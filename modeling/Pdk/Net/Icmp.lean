import Mathlib.Algebra.Order.BigOperators.Group.List
import Mathlib.Algebra.Order.Ring.Nat
import Pdk.Foundation.Bytes
import Pdk.Foundation.LittleEndian
import Pdk.Foundation.OnesComplement

/-!
# The checksum of `IcmpManager`

Model of `IcmpManager::check_sum` in `include/icmp.hpp`, which adds the 16-bit words of a packet in
an `int`, folds the carries twice and returns the complement. The words are read as the machine
stores them, the low byte first. The sum of the largest packet is just below 2^31; a sum that
overflowed would have no result.
-/

namespace Pdk.Net

open Foundation

/-- `MAXPACKET`. -/
def maxPacket : ℕ := 65536 - 60 - 8

/-- The loop of `check_sum` with the odd byte behind it, from the value of `nSum` on. -/
def addWords (nSum : CInt) : List UInt8 → Option CInt
  | low :: high :: bytes =>
    (addInt32 nSum.val (ofLe [low, high])).bind fun nSum => addWords nSum bytes
  -- `answer` is zero up to its first byte
  | [low] => addInt32 nSum.val (ofLe [low, 0])
  | [] => some nSum

/-- `check_sum(addr, nLen)` of a buffer of `nLen` bytes. -/
def checkSum (bytes : List UInt8) : Option ℤ := do
  let nSum ← addWords ⟨0, int32_zero⟩ bytes
  -- `>> 16` and `& 0xffff`
  let nSum ← addInt32 (nSum.val / 65536) (nSum.val % 65536)
  let nSum ← addInt32 nSum.val (nSum.val / 65536)
  -- `static_cast<uint16_t>(~nSum)`
  return (-nSum.val - 1) % 65536

/-- The 16-bit words of a buffer; a last odd byte is padded with zero. -/
def words : List UInt8 → List ℕ
  | low :: high :: bytes => ofLe [low, high] :: words bytes
  | [low] => [ofLe [low, 0]]
  | [] => []

/-! ## The sum -/

theorem ofLe_pair_le (low high : UInt8) : ofLe [low, high] ≤ 65535 := by
  have hlow := low.toNat_lt
  have hhigh := high.toNat_lt
  simp only [ofLe]
  omega

theorem le_of_mem_words (bytes : List UInt8) {w : ℕ} (hw : w ∈ words bytes) : w ≤ 65535 := by
  induction bytes using words.induct with
  | case1 low high bytes ih =>
    rcases List.mem_cons.mp hw with rfl | hw
    · exact ofLe_pair_le low high
    · exact ih hw
  | case2 low =>
    rw [words, List.mem_singleton] at hw
    rw [hw]
    exact ofLe_pair_le low 0
  | case3 => cases hw

theorem length_words (bytes : List UInt8) : (words bytes).length = (bytes.length + 1) / 2 := by
  induction bytes using words.induct with
  | case1 low high bytes ih =>
    simp only [words, List.length_cons, ih]
    omega
  | case2 low => simp [words]
  | case3 => simp [words]

/-- The sum of the words of the largest packet fits into an `int`. -/
theorem sum_words_le {bytes : List UInt8} (h : bytes.length ≤ maxPacket) :
    (words bytes).sum ≤ 2146533890 := by
  have hlength := length_words bytes
  have hsum : (words bytes).sum ≤ (words bytes).length * 65535 :=
    List.sum_le_card_nsmul (words bytes) 65535 fun w => le_of_mem_words bytes
  simp only [maxPacket] at h
  omega

/-- The loop computes the sum of the words, as long as that fits. -/
theorem addWords_eq (bytes : List UInt8) (nSum : CInt) (hnonneg : 0 ≤ nSum.val)
    (hfits : nSum.val + (words bytes).sum ≤ int32Max) :
    ∃ total, addWords nSum bytes = some total ∧ total.val = nSum.val + (words bytes).sum := by
  induction bytes using words.induct generalizing nSum with
  | case1 low high bytes ih =>
    simp only [words, List.sum_cons, Int.natCast_add] at hfits ⊢
    have hbounds : int32Min ≤ nSum.val + (ofLe [low, high] : ℕ) ∧
        nSum.val + (ofLe [low, high] : ℕ) ≤ int32Max := by
      simp only [int32Min]
      omega
    obtain ⟨total, htotal, hval⟩ := ih ⟨_, hbounds⟩ (by simp only; omega)
      (by simp only; omega)
    refine ⟨total, ?_, ?_⟩
    · rw [addWords, addInt32_of_bounds hbounds]
      exact htotal
    · rw [hval]
      simp only
      omega
  | case2 low =>
    simp only [words, List.sum_cons, List.sum_nil, Nat.add_zero] at hfits ⊢
    have hbounds : int32Min ≤ nSum.val + (ofLe [low, 0] : ℕ) ∧
        nSum.val + (ofLe [low, 0] : ℕ) ≤ int32Max := by
      simp only [int32Min]
      omega
    exact ⟨_, addInt32_of_bounds hbounds, rfl⟩
  | case3 =>
    refine ⟨nSum, rfl, ?_⟩
    simp [words]

/-- **The checksum**: no sum overflows, and the result is the complement of the one's complement sum
    of the words. -/
theorem checkSum_eq {bytes : List UInt8} (h : bytes.length ≤ maxPacket) :
    checkSum bytes = some (65535 - (onesSum (words bytes) : ℤ)) := by
  have hle := sum_words_le h
  obtain ⟨total, hadd, htotal⟩ := addWords_eq bytes ⟨0, by decide⟩
    (Int.le_refl 0) (by simp only [int32Max]; omega)
  have hrep := (represents_onesSum fun w => le_of_mem_words bytes).unique
    (represents_fold (n := (words bytes).sum) (by omega))
  have hcarry := foldCarry_le (n := (words bytes).sum) (by omega)
  have hfirst : total.val / 65536 + total.val % 65536 = (foldCarry (words bytes).sum : ℕ) := by
    rw [htotal, foldCarry]
    simp only
    omega
  have hbounds : int32Min ≤ total.val / 65536 + total.val % 65536 ∧
      total.val / 65536 + total.val % 65536 ≤ int32Max := by
    rw [hfirst]
    simp only [int32Min, int32Max]
    omega
  have hbounds' : int32Min ≤ total.val / 65536 + total.val % 65536 +
        (total.val / 65536 + total.val % 65536) / 65536 ∧
      total.val / 65536 + total.val % 65536 +
        (total.val / 65536 + total.val % 65536) / 65536 ≤ int32Max := by
    rw [hfirst]
    simp only [int32Min, int32Max]
    omega
  simp only [checkSum, hadd, addInt32_of_bounds hbounds, addInt32_of_bounds hbounds',
    Option.bind_eq_bind, Option.bind_some, Option.pure_def, Option.some.injEq]
  rw [hfirst, hrep]
  omega

/-! ## Verification by the receiver -/

theorem exists_cons_cons {bytes : List UInt8} (h : 2 ≤ bytes.length) :
    ∃ low high rest, bytes = low :: high :: rest := by
  cases bytes with
  | nil => exact absurd h (by decide)
  | cons low bytes =>
    cases bytes with
    | nil => exact absurd h (by simp)
    | cons high rest => exact ⟨low, high, rest, rfl⟩

/-- Storing a value into a field at an even offset replaces a word. -/
theorem words_overwrite (bytes : List UInt8) (i v : ℕ) (hv : v < 65536)
    (hfield : 2 * i + 2 ≤ bytes.length) :
    words (Bytes.overwrite bytes (2 * i) (toLe 2 v)) = (words bytes).set i v := by
  have hpair : ofLe (toLe 2 v) = v := ofLe_toLe (by omega)
  rw [Bytes.overwrite_eq (by rw [length_toLe]; exact hfield), length_toLe]
  induction i generalizing bytes with
  | zero =>
    obtain ⟨low, high, rest, rfl⟩ := exists_cons_cons hfield
    simp only [toLe] at hpair
    simp [toLe, words, hpair]
  | succ i ih =>
    obtain ⟨low, high, rest, rfl⟩ := exists_cons_cons (by omega : 2 ≤ bytes.length)
    have hrest := ih rest (by simp only [List.length_cons] at hfield; omega)
    have hmul : 2 * (i + 1) = 2 * i + 2 := by omega
    simp only [hmul, List.take_succ_cons, List.drop_succ_cons, List.cons_append, words,
      List.set_cons_succ, hrest]

theorem word_of_zeros (bytes : List UInt8) (i : ℕ) (hfield : 2 * i + 2 ≤ bytes.length)
    (hzero : (bytes.drop (2 * i)).take 2 = [0, 0]) : (words bytes)[i]? = some 0 := by
  induction i generalizing bytes with
  | zero =>
    obtain ⟨low, high, rest, rfl⟩ := exists_cons_cons hfield
    simp only [Nat.mul_zero, List.drop_zero, List.take_succ_cons, List.take_zero] at hzero
    cases hzero
    rfl
  | succ i ih =>
    obtain ⟨low, high, rest, rfl⟩ := exists_cons_cons (by omega : 2 ≤ bytes.length)
    have hmul : 2 * (i + 1) = 2 * i + 2 := by omega
    rw [hmul, List.drop_succ_cons, List.drop_succ_cons] at hzero
    rw [words, List.getElem?_cons_succ]
    exact ih rest (by simp only [List.length_cons] at hfield; omega) hzero

theorem sum_set {ws : List ℕ} {i : ℕ} (h : ws[i]? = some 0) (v : ℕ) :
    (ws.set i v).sum = ws.sum + v := by
  induction ws generalizing i with
  | nil => cases h
  | cons w ws ih =>
    cases i with
    | zero =>
      obtain rfl : w = 0 := by simpa using h
      simp [Nat.add_comm]
    | succ i =>
      rw [List.set_cons_succ, List.sum_cons, List.sum_cons, ih (by simpa using h), Nat.add_assoc]

/-- A sum and its complement make 65535, one of the two representations of zero. -/
theorem onesSum_set {ws : List ℕ} {i : ℕ} (hws : ∀ w ∈ ws, w ≤ 65535) (hi : ws[i]? = some 0) :
    onesSum (ws.set i (65535 - onesSum ws)) = 65535 := by
  have hrep := represents_onesSum hws
  have hset : ∀ w ∈ ws.set i (65535 - onesSum ws), w ≤ 65535 := by
    intro w hw
    rcases List.mem_or_eq_of_mem_set hw with hold | rfl
    · exact hws w hold
    · omega
  refine (represents_onesSum hset).unique ?_
  obtain ⟨hle, hmod, hzero⟩ := hrep
  rw [sum_set hi]
  refine ⟨Nat.le_refl _, ?_, ?_⟩
  · omega
  · omega

/-- **The checksum of every packet**, of even or odd length: no sum overflows, the result is the
    complement of the one's complement sum of the words, and a packet with the result in the place
    of a zero field has the checksum 0. -/
theorem checkSum_correct (bytes : List UInt8) (h : bytes.length ≤ maxPacket) :
    checkSum bytes = some (65535 - (onesSum (words bytes) : ℤ)) ∧
      ∀ i, 2 * i + 2 ≤ bytes.length → (bytes.drop (2 * i)).take 2 = [0, 0] →
        ∀ sum, checkSum bytes = some sum →
          checkSum (Bytes.overwrite bytes (2 * i) (toLe 2 sum.toNat)) = some 0 := by
  refine ⟨checkSum_eq h, ?_⟩
  intro i hfield hzero sum hsum
  rw [checkSum_eq h] at hsum
  cases hsum
  have hnat : (65535 - (onesSum (words bytes) : ℤ)).toNat = 65535 - onesSum (words bytes) := by omega
  have hlt : 65535 - onesSum (words bytes) < 65536 := by omega
  rw [hnat, checkSum_eq (by rw [Bytes.length_overwrite]; exact h),
    words_overwrite bytes i _ hlt hfield,
    onesSum_set (fun w => le_of_mem_words bytes) (word_of_zeros bytes i hfield hzero)]
  rfl

/-- An echo request with three bytes of data. -/
theorem checkSum_correct_echo :
    checkSum [8, 0, 0, 0, 1, 2, 3, 4, 5, 6, 7] = some 62439 ∧
      checkSum [8, 0, 0xe7, 0xf3, 1, 2, 3, 4, 5, 6, 7] = some 0 := by
  have hcorrect := checkSum_correct [8, 0, 0, 0, 1, 2, 3, 4, 5, 6, 7] (by decide)
  have hsum : checkSum [8, 0, 0, 0, 1, 2, 3, 4, 5, 6, 7] = some 62439 := by
    rw [hcorrect.1]
    rfl
  refine ⟨hsum, ?_⟩
  exact hcorrect.2 1 (by decide) (by decide) 62439 hsum

end Pdk.Net
