import Mathlib.Algebra.GroupWithZero.Nat
import Mathlib.Data.List.Basic
import Mathlib.Tactic.Common

/-!
# One's complement sums of 16 bits

A sum with end-around carry: what overflows at the top is added at the bottom. It is the sum modulo
65535, except that 0 stands for sums that are 0 and 65535 for all other multiples of 65535
(`Represents`). A sum that was accumulated in a wider integer has the same value once its carries
have been folded back, and below 2^31 two folds are enough (`represents_fold`).
-/

namespace Foundation

/-- Addition of 16-bit words with end-around carry. -/
def onesAdd (a b : ℕ) : ℕ :=
  (a + b) % 65536 + (a + b) / 65536

/-- The 16-bit one's complement sum. -/
def onesSum (words : List ℕ) : ℕ :=
  words.foldl onesAdd 0

/-- `r` is the one's complement representation of the sum `n`. -/
structure Represents (r n : ℕ) : Prop where
  le : r ≤ 65535
  mod_eq : r % 65535 = n % 65535
  zero : r = 0 ↔ n = 0

theorem Represents.unique {r r' n : ℕ} (h : Represents r n) (h' : Represents r' n) : r = r' := by
  obtain ⟨hle, hmod, hzero⟩ := h
  obtain ⟨hle', hmod', hzero'⟩ := h'
  omega

theorem Represents.onesAdd {r n w : ℕ} (h : Represents r n) (hw : w ≤ 65535) :
    Represents (onesAdd r w) (n + w) := by
  obtain ⟨hle, hmod, hzero⟩ := h
  unfold Foundation.onesAdd
  refine ⟨?_, ?_, ?_⟩
  · omega
  · omega
  · omega

/-- The representation of a running sum. -/
theorem Represents.foldl {words : List ℕ} (hwords : ∀ w ∈ words, w ≤ 65535) {r n : ℕ}
    (h : Represents r n) : Represents (words.foldl Foundation.onesAdd r) (n + words.sum) := by
  induction words generalizing r n with
  | nil => simpa using h
  | cons w words ih =>
    have hw := hwords w List.mem_cons_self
    have hrest := ih (fun v hv => hwords v (List.mem_cons_of_mem w hv)) (h.onesAdd hw)
    rw [List.foldl_cons, List.sum_cons, ← Nat.add_assoc]
    exact hrest

theorem represents_onesSum {words : List ℕ} (hwords : ∀ w ∈ words, w ≤ 65535) :
    Represents (onesSum words) words.sum := by
  have hzero : Represents 0 0 := ⟨Nat.zero_le _, rfl, Iff.rfl⟩
  have hsum := hzero.foldl hwords
  rw [Nat.zero_add] at hsum
  exact hsum

/-- One fold of the carries. -/
def foldCarry (n : ℕ) : ℕ :=
  n / 65536 + n % 65536

theorem foldCarry_mod (n : ℕ) : foldCarry n % 65535 = n % 65535 := by
  unfold foldCarry
  omega

theorem foldCarry_eq_zero {n : ℕ} : foldCarry n = 0 ↔ n = 0 := by
  unfold foldCarry
  omega

/-- After one fold, a sum below 2^31 has at most one carry left. -/
theorem foldCarry_le {n : ℕ} (h : n < 2147483648) : foldCarry n ≤ 98302 := by
  unfold foldCarry
  omega

/-- **Two folds of a sum below 2^31**, the second of which leaves its carry in place. -/
theorem represents_fold {n : ℕ} (h : n < 2147483648) :
    Represents ((foldCarry n + foldCarry n / 65536) % 65536) n := by
  have hmod := foldCarry_mod n
  have hzero := foldCarry_eq_zero (n := n)
  have hle := foldCarry_le h
  generalize foldCarry n = m at hmod hzero hle ⊢
  by_cases hcarry : m < 65536
  · have hfolded : (m + m / 65536) % 65536 = m := by omega
    rw [hfolded]
    exact ⟨by omega, hmod, hzero⟩
  · have hfolded : (m + m / 65536) % 65536 = m - 65535 := by omega
    rw [hfolded]
    refine ⟨by omega, ?_, ?_⟩
    · rw [← hmod]
      omega
    · rw [← hzero]
      omega

end Foundation
