import Mathlib.Data.List.Basic
import Mathlib.Data.List.TakeWhile
import Mathlib.Data.Int.Init
import Mathlib.Tactic.Common

/-!
# Byte buffers and 32-bit signed integers

The operations a C++ program performs on a growing byte buffer (`resize`, an in-place copy) and
on `int32_t` values. A signed sum that does not fit is undefined behaviour in C++: `addInt32`
has no result there.
-/

namespace Foundation

/-! ## Byte buffers -/

namespace Bytes

/-- Cut the buffer to `n` bytes, or extend it with zero bytes. -/
def resize (bs : List UInt8) (n : ℕ) : List UInt8 :=
  bs.take n ++ List.replicate (n - bs.length) 0

/-- Copy `src` over the bytes of the buffer from offset `off` on. Bytes that would fall behind
    the end of the buffer are not written, so the length never changes. -/
def overwrite (bs : List UInt8) (off : ℕ) (src : List UInt8) : List UInt8 :=
  bs.take off ++ src.take (bs.length - off) ++ bs.drop (off + src.length)

/-- The characters of a string up to its terminator, as `strlen` counts them. -/
def cString (bs : List UInt8) : List UInt8 :=
  bs.takeWhile (· ≠ 0)

theorem length_cString_le (bs : List UInt8) : (cString bs).length ≤ bs.length :=
  (List.takeWhile_prefix _).length_le

theorem zero_notMem_cString (bs : List UInt8) : 0 ∉ cString bs := by
  intro hmem
  have hzero := List.mem_takeWhile_imp hmem
  simp at hzero

/-- A string without a zero byte ends at its end. -/
theorem cString_eq_self {bs : List UInt8} (h : 0 ∉ bs) : cString bs = bs := by
  induction bs with
  | nil => rfl
  | cons b bs ih =>
    have hb : b ≠ 0 := fun hzero => h (hzero ▸ List.mem_cons_self)
    have hrest : 0 ∉ bs := fun hmem => h (List.mem_cons_of_mem b hmem)
    rw [cString, List.takeWhile_cons_of_pos (by simpa using hb)]
    exact congrArg (b :: ·) (ih hrest)

@[simp]
theorem length_resize (bs : List UInt8) (n : ℕ) : (resize bs n).length = n := by
  simp only [resize, List.length_append, List.length_take, List.length_replicate]
  omega

theorem resize_of_le {bs : List UInt8} {n : ℕ} (h : n ≤ bs.length) :
    resize bs n = bs.take n := by
  rw [resize, Nat.sub_eq_zero_of_le h, List.replicate_zero, List.append_nil]

@[simp]
theorem length_overwrite (bs : List UInt8) (off : ℕ) (src : List UInt8) :
    (overwrite bs off src).length = bs.length := by
  simp only [overwrite, List.length_append, List.length_take, List.length_drop]
  omega

/-- Copying inside the bounds replaces exactly the addressed bytes. -/
theorem overwrite_eq {bs src : List UInt8} {off : ℕ} (h : off + src.length ≤ bs.length) :
    overwrite bs off src = bs.take off ++ src ++ bs.drop (off + src.length) := by
  rw [overwrite, List.take_of_length_le (by omega : src.length ≤ bs.length - off)]

/-- Growing a buffer and copying to the new end appends. -/
theorem overwrite_resize_append (bs src : List UInt8) :
    overwrite (resize bs (bs.length + src.length)) bs.length src = bs ++ src := by
  rw [overwrite_eq (Nat.le_of_eq (length_resize _ _).symm), 
    List.drop_of_length_le (Nat.le_of_eq (length_resize _ _)),
    List.append_nil, resize, List.take_of_length_le (Nat.le_add_right _ _)]
  simp

/-- Copying to the front of a buffer keeps what is behind the copied bytes. -/
theorem overwrite_zero {bs src : List UInt8} (h : src.length ≤ bs.length) :
    overwrite bs 0 src = src ++ bs.drop src.length := by
  rw [overwrite_eq (by omega), List.take_zero, List.nil_append, Nat.zero_add]

/-- The bytes of the buffer, whether the copy fits or not. -/
theorem getElem?_overwrite_of_lt {bs : List UInt8} {i : ℕ} (hi : i < bs.length) (off : ℕ)
    (src : List UInt8) : (overwrite bs off src)[i]? =
      if off ≤ i ∧ i < off + src.length then src[i - off]? else bs[i]? := by
  rw [overwrite, List.append_assoc, List.getElem?_append, List.length_take]
  by_cases hbefore : i < off
  · rw [if_pos (by omega), if_neg (by omega), List.getElem?_take_of_lt hbefore]
  · rw [if_neg (by omega), Nat.min_eq_left (by omega), List.getElem?_append, List.length_take]
    by_cases hinside : i - off < src.length
    · rw [if_pos (by omega), if_pos (by omega), List.getElem?_take_of_lt (by omega)]
    · rw [if_neg (by omega), if_neg (by omega), List.getElem?_drop, Nat.min_eq_right (by omega)]
      congr 1
      omega

/-- The front of a buffer is overwritten as if there was nothing behind it. -/
theorem take_overwrite (bs more : List UInt8) (off : ℕ) (src : List UInt8) :
    (overwrite (bs ++ more) off src).take bs.length = overwrite bs off src := by
  refine List.ext_getElem? fun i => ?_
  by_cases hi : i < bs.length
  · rw [List.getElem?_take_of_lt hi, getElem?_overwrite_of_lt hi,
      getElem?_overwrite_of_lt (by rw [List.length_append]; omega), List.getElem?_append_left hi]
  · rw [List.getElem?_eq_none (by simp; omega), List.getElem?_eq_none (by simp; omega)]

theorem overwrite_nil (bs : List UInt8) (off : ℕ) : overwrite bs off [] = bs := by
  rw [overwrite, List.take_nil, List.append_nil, List.length_nil, Nat.add_zero,
    List.take_append_drop]

/-- A copy that begins behind the front part of a buffer. -/
theorem overwrite_append_right (front back : List UInt8) (off : ℕ) (src : List UInt8) :
    overwrite (front ++ back) (front.length + off) src = front ++ overwrite back off src := by
  simp only [overwrite, List.length_append, List.append_assoc]
  rw [List.take_length_add_append, Nat.add_sub_add_left, Nat.add_assoc,
    List.drop_length_add_append, List.append_assoc]

/-- A copy to the front of a buffer, of which each part takes what falls into it. -/
theorem overwrite_append_zero (front back src : List UInt8) :
    overwrite (front ++ back) 0 src =
      overwrite front 0 src ++ overwrite back 0 (src.drop front.length) := by
  simp only [overwrite, List.take_zero, List.nil_append, Nat.sub_zero, Nat.zero_add,
    List.length_append, List.length_drop]
  by_cases hfits : src.length ≤ front.length
  · rw [List.take_of_length_le (by omega), List.take_of_length_le hfits,
      List.drop_of_length_le hfits, List.take_nil, Nat.sub_eq_zero_of_le hfits, List.drop_zero,
      List.nil_append, List.drop_append_of_le_length hfits, List.append_assoc]
  · have hsplit : src.take (front.length + back.length) =
        src.take front.length ++ (src.drop front.length).take back.length := List.take_add
    rw [hsplit, List.drop_of_length_le (by omega : front.length ≤ src.length), List.append_nil,
      List.drop_append, List.drop_of_length_le (by omega : front.length ≤ src.length),
      List.nil_append, List.append_assoc]

/-! ## Adjacent cells -/

/-- Copy `src` over the bytes of adjacent cells of `size` bytes, from the begin of cell `first` on:
    each cell takes what falls into it, and what would fall behind the last one is not written. -/
def overwriteCells (size first : ℕ) (src : List UInt8) (cells : List (List UInt8)) :
    List (List UInt8) :=
  cells.mapIdx fun j cell =>
    if j < first then cell else overwrite cell 0 (src.drop ((j - first) * size))

@[simp]
theorem length_overwriteCells (size first : ℕ) (src : List UInt8) (cells : List (List UInt8)) :
    (overwriteCells size first src cells).length = cells.length :=
  List.length_mapIdx

theorem getElem?_overwriteCells_self (size first : ℕ) (src : List UInt8)
    (cells : List (List UInt8)) :
    (overwriteCells size first src cells)[first]? =
      cells[first]?.map fun cell => overwrite cell 0 src := by
  rw [overwriteCells, List.getElem?_mapIdx]
  simp

/-- A copy that fits into its cell leaves the other cells alone. -/
theorem getElem?_overwriteCells_of_ne {size first j : ℕ} {src : List UInt8}
    {cells : List (List UInt8)} (hfits : src.length ≤ size) (hne : j ≠ first) :
    (overwriteCells size first src cells)[j]? = cells[j]? := by
  rw [overwriteCells, List.getElem?_mapIdx]
  by_cases hbefore : j < first
  · simp [hbefore]
  · have hbehind : src.drop ((j - first) * size) = [] := by
      apply List.drop_of_length_le
      calc src.length ≤ 1 * size := by omega
        _ ≤ (j - first) * size := Nat.mul_le_mul_right size (by omega)
    simp [hbefore, hbehind, overwrite_nil]

/-- The cells keep their size. -/
theorem length_of_mem_overwriteCells {size first : ℕ} {src : List UInt8}
    {cells : List (List UInt8)} (h : ∀ cell ∈ cells, cell.length = size) {cell : List UInt8}
    (hcell : cell ∈ overwriteCells size first src cells) : cell.length = size := by
  obtain ⟨j, hj, rfl⟩ := List.mem_mapIdx.mp hcell
  split
  · exact h _ (List.getElem_mem hj)
  · rw [length_overwrite]
    exact h _ (List.getElem_mem hj)

/-- **The cells are one buffer**: a copy over the cells is a copy into the bytes of all of them. -/
theorem flatten_overwriteCells {size : ℕ} (first : ℕ) (src : List UInt8)
    {cells : List (List UInt8)} (h : ∀ cell ∈ cells, cell.length = size) :
    (overwriteCells size first src cells).flatten =
      overwrite cells.flatten (first * size) src := by
  induction cells generalizing first src with
  | nil => simp [overwriteCells, overwrite]
  | cons cell cells ih =>
    have hcell := h cell List.mem_cons_self
    have hcells := fun c hc => h c (List.mem_cons_of_mem cell hc)
    cases first with
    | zero =>
      -- the rest of the cells takes what is left of the bytes
      have hrest : overwriteCells size 0 (src.drop size) cells =
          cells.mapIdx fun j c => overwrite c 0 (src.drop ((j + 1) * size)) := by
        simp only [overwriteCells, Nat.not_lt_zero, if_false, Nat.sub_zero, List.drop_drop,
          Nat.succ_mul, Nat.add_comm]
      rw [overwriteCells, List.mapIdx_cons, List.flatten_cons, List.flatten_cons, Nat.zero_mul,
        overwrite_append_zero, hcell]
      simp only [Nat.not_lt_zero, if_false, Nat.sub_zero, List.drop_zero]
      rw [← hrest, ih 0 (src.drop size) hcells, Nat.zero_mul]
    | succ first =>
      have hrest : (cells.mapIdx fun j c => if j + 1 < first + 1 then c
          else overwrite c 0 (src.drop ((j + 1 - (first + 1)) * size))) =
            overwriteCells size first src cells := by
        simp only [overwriteCells, Nat.add_lt_add_iff_right, Nat.add_sub_add_right]
      rw [overwriteCells, List.mapIdx_cons, List.flatten_cons, List.flatten_cons, hrest,
        ih first src hcells, Nat.succ_mul, Nat.add_comm (first * size) size, ← hcell,
        overwrite_append_right]
      simp

/-! ## Copies within one object -/

/-- A `memcpy` of `count` bytes within one object of `size` bytes. -/
structure Copy where
  size : ℕ
  dst : ℕ
  src : ℕ
  count : ℕ
  deriving DecidableEq, Repr

/-- What `memcpy` requires: the source is inside the object, and the two ranges have no byte in
    common. -/
structure Copy.Legal (c : Copy) : Prop where
  inside : ∀ i < c.count, c.src + i < c.size
  disjoint : ∀ i < c.count, ∀ j < c.count, c.src + i ≠ c.dst + j

/-- A copy of the end of an object to its front is legal exactly when the end is not longer than
    what is in front of it. -/
theorem Copy.legal_front_iff (src count : ℕ) :
    Legal ⟨src + count, 0, src, count⟩ ↔ count ≤ src := by
  constructor
  · intro h
    by_contra hlong
    -- otherwise the byte at `src` is read and written
    exact h.disjoint 0 (by simp only; omega) src (by simp only; omega) (by simp only; omega)
  · intro hle
    constructor
    · intro i hi
      simp only at hi ⊢
      omega
    · intro i hi j hj
      simp only at hi hj ⊢
      omega

end Bytes

/-! ## 32-bit signed integers -/

/-- The largest `int32_t`. -/
def int32Max : ℤ := 2147483647

/-- The smallest `int32_t`. -/
def int32Min : ℤ := -2147483648

/-- A value of type `int32_t`. -/
abbrev CInt : Type := { x : ℤ // int32Min ≤ x ∧ x ≤ int32Max }

theorem int32_zero : int32Min ≤ 0 ∧ 0 ≤ int32Max := by decide

theorem int32_one : int32Min ≤ 1 ∧ 1 ≤ int32Max := by decide

/-- Signed addition; there is no result when the sum overflows. -/
def addInt32 (a b : ℤ) : Option CInt :=
  if h : int32Min ≤ a + b ∧ a + b ≤ int32Max then some ⟨a + b, h⟩ else none

/-- The `int32_t` stored little-endian in four bytes. -/
def int32Le (b0 b1 b2 b3 : UInt8) : CInt :=
  let n : ℤ := b0.toNat + 256 * b1.toNat + 65536 * b2.toNat + 16777216 * b3.toNat
  if h : n ≤ int32Max then
    ⟨n, by simp only [int32Min]; omega, h⟩
  else
    ⟨n - 4294967296, by
      have h0 := b0.toNat_lt
      have h1 := b1.toNat_lt
      have h2 := b2.toNat_lt
      have h3 := b3.toNat_lt
      simp only [int32Max, int32Min] at h ⊢
      omega⟩

theorem addInt32_of_bounds {a b : ℤ} (h : int32Min ≤ a + b ∧ a + b ≤ int32Max) :
    addInt32 a b = some ⟨a + b, h⟩ := by
  rw [addInt32, dif_pos h]

theorem addInt32_eq_some {a b : ℤ} {c : CInt} (h : addInt32 a b = some c) :
    c.val = a + b := by
  rw [addInt32] at h
  split at h
  · cases h
    rfl
  · cases h

/-- The top bit of the last byte is the sign. -/
theorem int32Le_neg {b0 b1 b2 b3 : UInt8} (h : 128 ≤ b3.toNat) :
    (int32Le b0 b1 b2 b3).val < 0 := by
  have h0 := b0.toNat_lt
  have h1 := b1.toNat_lt
  have h2 := b2.toNat_lt
  have h3 := b3.toNat_lt
  rw [int32Le]
  split
  · rename_i hle
    simp only [int32Max] at hle
    omega
  · simp only
    omega

/-- Without it, the last byte is the most significant one. -/
theorem int32Le_large {b0 b1 b2 b3 : UInt8} (h : b3.toNat < 128) :
    (16777216 * b3.toNat : ℤ) ≤ (int32Le b0 b1 b2 b3).val := by
  have h0 := b0.toNat_lt
  have h1 := b1.toNat_lt
  have h2 := b2.toNat_lt
  rw [int32Le]
  split
  · simp only
    omega
  · rename_i hgt
    simp only [int32Max] at hgt
    omega

end Foundation
