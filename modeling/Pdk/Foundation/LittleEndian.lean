import Mathlib.Algebra.GroupWithZero.Nat
import Mathlib.Data.List.Basic
import Mathlib.Tactic.Common

/-!
# Little-endian integers

The bytes of an unsigned integer of `k` bytes, the least significant byte first, as `memcpy` of such
an integer produces them on the machines the code runs on.

## Contents

- `toLe`, `ofLe`: encoding and decoding
- `ofLe_toLe`: an integer that fits is recovered from its bytes
- `toLe_mod`: a counter that wraps around has the same bytes
-/

namespace Foundation

/-- The `k` low bytes of `n`, the least significant first. -/
def toLe : ℕ → ℕ → List UInt8
  | 0, _ => []
  | k + 1, n => UInt8.ofNat n :: toLe k (n / 256)

/-- The integer whose bytes are given, the least significant first. -/
def ofLe : List UInt8 → ℕ
  | [] => 0
  | b :: bs => b.toNat + 256 * ofLe bs

@[simp]
theorem length_toLe (k n : ℕ) : (toLe k n).length = k := by
  induction k generalizing n with
  | zero => rfl
  | succ k ih => simp [toLe, ih]

/-- An integer that fits into `k` bytes is recovered from them. -/
theorem ofLe_toLe {k n : ℕ} (h : n < 2 ^ (8 * k)) : ofLe (toLe k n) = n := by
  induction k generalizing n with
  | zero =>
    have hn : n = 0 := by simpa using h
    subst hn
    rfl
  | succ k ih =>
    have hdiv : n / 256 < 2 ^ (8 * k) := by
      rw [Nat.div_lt_iff_lt_mul (by decide)]
      calc n < 2 ^ (8 * (k + 1)) := h
        _ = 2 ^ (8 * k) * 256 := by rw [Nat.mul_succ, Nat.pow_add]
    have hbyte : (UInt8.ofNat n).toNat = n % 256 := by simp
    rw [toLe, ofLe, ih hdiv, hbyte]
    exact Nat.mod_add_div n 256

/-- The bytes are those of the number they give. -/
theorem toLe_ofLe (bs : List UInt8) : toLe bs.length (ofLe bs) = bs := by
  induction bs with
  | nil => rfl
  | cons b bs ih =>
    have hb := b.toNat_lt
    have hdiv : (b.toNat + 256 * ofLe bs) / 256 = ofLe bs := by omega
    rw [ofLe, List.length_cons, toLe, hdiv, ih]
    congr 1
    rw [← UInt8.toNat_inj]
    simp

/-- Only the low `8 * k` bits matter. -/
theorem toLe_mod (k n : ℕ) : toLe k (n % 2 ^ (8 * k)) = toLe k n := by
  induction k generalizing n with
  | zero => rfl
  | succ k ih =>
    have hpow : 2 ^ (8 * (k + 1)) = 256 * 2 ^ (8 * k) := by
      rw [Nat.mul_succ, Nat.pow_add, Nat.mul_comm]
    have hlow : UInt8.ofNat (n % (256 * 2 ^ (8 * k))) = UInt8.ofNat n := by
      apply UInt8.toNat_inj.mp
      simp only [UInt8.toNat_ofNat', Nat.reducePow, Nat.mod_mul_right_mod]
    rw [hpow, toLe, toLe, Nat.mod_mul_right_div_self, ih, hlow]

end Foundation
