import Pdk.Foundation.Bytes

/-!
# `MemoryStream`

Model of `include/stream.hpp`: a byte vector with a read/write position. Sizes and positions
are `int32_t` in the source. The vector never outgrows them: `size_le` is a field of the
structure, and an operation whose signed sum would overflow has no result (`none`).
-/

namespace Pdk.Net

open Foundation

/-- `TSeekOrigin`. -/
inductive SeekOrigin where
  | soBeginning
  | soCurrent
  | soEnd
  deriving DecidableEq, Repr

/-- `MemoryStream`: `buf_` and `pos_`. The position may lie anywhere, also before the
    beginning or behind the end of the data. -/
@[ext]
structure MemoryStream where
  buf : List UInt8
  pos : CInt
  /-- The size fits into `int32_t`. -/
  size_le : (buf.length : ℤ) ≤ int32Max

namespace MemoryStream

/-- A freshly constructed stream. -/
def empty : MemoryStream := ⟨[], ⟨0, int32_zero⟩, by decide⟩

/-- `MemoryStream::clear`. -/
def clear (_ : MemoryStream) : MemoryStream := empty

/-- `MemoryStream::data`: `none` is the null pointer. -/
def data (s : MemoryStream) : Option (List UInt8) :=
  if s.buf.isEmpty then none else some s.buf

/-- `MemoryStream::read`: the bytes copied out and the stream after the call. -/
def read (s : MemoryStream) (n : ℤ) : List UInt8 × MemoryStream :=
  if hneg : s.pos.val < 0 ∨ n ≤ 0 then ([], s)
  else
    let avail : ℤ := s.buf.length - s.pos.val
    if avail ≤ 0 then ([], s)
    else
      let cnt := if n < avail then n else avail
      have hcnt : int32Min ≤ s.pos.val + cnt ∧ s.pos.val + cnt ≤ int32Max := by
        have hsize := s.size_le
        simp only [cnt, avail, int32Min]
        split <;> omega
      ((s.buf.drop s.pos.val.toNat).take cnt.toNat, { s with pos := ⟨s.pos.val + cnt, hcnt⟩ })

/-- `MemoryStream::write`: the number of bytes written and the stream after the call. There is
    no result when `pos_ + n` overflows, or when the source holds fewer than `n` bytes. -/
def write (s : MemoryStream) (src : List UInt8) (n : ℤ) : Option (ℤ × MemoryStream) :=
  if s.pos.val < 0 ∨ n ≤ 0 then some (0, s)
  else if (src.length : ℤ) < n then none
  else
    match addInt32 s.pos.val n with
    | none => none
    | some newSize =>
      let grown := if newSize.val > s.buf.length then Bytes.resize s.buf newSize.val.toNat else s.buf
      have hgrown : ((Bytes.overwrite grown s.pos.val.toNat (src.take n.toNat)).length : ℤ) ≤
          int32Max := by
        have hsize := s.size_le
        have hnew := newSize.property
        rw [Bytes.length_overwrite]
        simp only [grown]
        split
        · rw [Bytes.length_resize]
          omega
        · exact hsize
      some (n, ⟨Bytes.overwrite grown s.pos.val.toNat (src.take n.toNat), newSize, hgrown⟩)

/-- `MemoryStream::seek`: the new position and the stream after the call. -/
def seek (s : MemoryStream) (offset : CInt) (origin : SeekOrigin) : Option (CInt × MemoryStream) :=
  match origin with
  | .soBeginning => some (offset, { s with pos := offset })
  | .soCurrent => (addInt32 s.pos.val offset.val).map fun p => (p, { s with pos := p })
  | .soEnd => (addInt32 s.buf.length offset.val).map fun p => (p, { s with pos := p })

/-- `Stream::GetSize`: seeks to the end and back. -/
def getSize (s : MemoryStream) : Option (CInt × MemoryStream) := do
  let (cur, s) ← s.seek ⟨0, int32_zero⟩ .soCurrent
  let (size, s) ← s.seek ⟨0, int32_zero⟩ .soEnd
  let (_, s) ← s.seek cur .soBeginning
  return (size, s)

/-- `MemoryStream::SetSize`. -/
def setSize (s : MemoryStream) (n : CInt) : MemoryStream where
  buf := Bytes.resize s.buf (if n.val > 0 then n.val.toNat else 0)
  pos := if s.pos.val > n.val then n else s.pos
  size_le := by
    have hn := n.property
    rw [Bytes.length_resize]
    split <;> simp only [int32Max, int32Min] at * <;> omega

/-- A copy through the pointer that `data()` returned: no bookkeeping, the size stays. -/
def poke (s : MemoryStream) (off : ℕ) (src : List UInt8) : MemoryStream where
  buf := Bytes.overwrite s.buf off src
  pos := s.pos
  size_le := by
    rw [Bytes.length_overwrite]
    exact s.size_le

/-! ## What each operation does -/

@[simp]
theorem buf_empty : empty.buf = [] := rfl

@[simp]
theorem pos_empty : empty.pos.val = 0 := rfl

theorem data_eq_none {s : MemoryStream} : s.data = none ↔ s.buf = [] := by
  simp [data]

theorem data_eq_some {s : MemoryStream} {bytes : List UInt8} (h : s.data = some bytes) :
    bytes = s.buf ∧ s.buf ≠ [] := by
  rw [data] at h
  split at h
  · cases h
  · rename_i hne
    cases h
    exact ⟨rfl, by simpa using hne⟩

/-- `GetSize` gives the number of bytes and leaves the stream as it was. -/
theorem getSize_eq (s : MemoryStream) :
    s.getSize = some (⟨s.buf.length, by
      have hsize := s.size_le
      simp only [int32Min, int32Max] at *
      omega⟩, s) := by
  have hsize := s.size_le
  have hcur : addInt32 s.pos.val 0 = some s.pos := by
    rw [addInt32_of_bounds (by rw [Int.add_zero]; exact s.pos.property)]
    simp
  have hend : int32Min ≤ (s.buf.length : ℤ) + 0 ∧ (s.buf.length : ℤ) + 0 ≤ int32Max := by
    simp only [int32Min, int32Max] at *
    omega
  simp [getSize, seek, hcur, addInt32_of_bounds hend]

/-- Writing at the end appends, and keeps the position at the end. -/
theorem write_at_end {s : MemoryStream} {src : List UInt8}
    (hpos : s.pos.val = s.buf.length) (hne : src ≠ [])
    (hfits : (s.buf.length : ℤ) + src.length ≤ int32Max) :
    ∃ s', s.write src src.length = some ((src.length : ℤ), s') ∧
      s'.buf = s.buf ++ src ∧ s'.pos.val = s'.buf.length := by
  have hlen : 0 < src.length := List.length_pos_iff.mpr hne
  have hbounds : int32Min ≤ s.pos.val + src.length ∧ s.pos.val + (src.length : ℤ) ≤ int32Max := by
    simp only [int32Min] at *
    omega
  have hgrow : s.pos.val + (src.length : ℤ) > s.buf.length := by omega
  have hsize : (s.pos.val + (src.length : ℤ)).toNat = s.buf.length + src.length := by omega
  have hat : s.pos.val.toNat = s.buf.length := by omega
  rw [write, if_neg (by omega), if_neg (by omega), addInt32_of_bounds hbounds]
  refine ⟨_, rfl, ?_, ?_⟩
  · simp only [if_pos hgrow, hsize, hat, Int.toNat_natCast, List.take_length]
    exact Bytes.overwrite_resize_append s.buf src
  · simp only [if_pos hgrow, hsize, Bytes.length_overwrite, Bytes.length_resize]
    omega

/-- A write at the end that has a result did not overflow. -/
theorem fits_of_write {s : MemoryStream} {src : List UInt8} {r : ℤ × MemoryStream}
    (hpos : s.pos.val = s.buf.length) (hne : src ≠ [])
    (h : s.write src src.length = some r) :
    (s.buf.length : ℤ) + src.length ≤ int32Max := by
  have hlen : 0 < src.length := List.length_pos_iff.mpr hne
  rw [write, if_neg (by omega), if_neg (by omega)] at h
  split at h
  · cases h
  · rename_i newSize hsum
    have hval := addInt32_eq_some hsum
    have hle := newSize.property.2
    omega

/-- Shrinking a stream whose position is at its end moves the position to the new end. -/
theorem setSize_at_end {s : MemoryStream} {n : CInt} (hpos : s.pos.val = s.buf.length)
    (h0 : 0 ≤ n.val) (hn : n.val ≤ s.buf.length) :
    (s.setSize n).buf = s.buf.take n.val.toNat ∧
      (s.setSize n).pos.val = (s.setSize n).buf.length := by
  have hsize : (if n.val > 0 then n.val.toNat else 0) = n.val.toNat := by
    split <;> omega
  have hbuf : (s.setSize n).buf = s.buf.take n.val.toNat := by
    simp only [setSize, hsize]
    exact Bytes.resize_of_le (by omega)
  refine ⟨hbuf, ?_⟩
  rw [hbuf, List.length_take]
  simp only [setSize]
  split <;> omega

@[simp]
theorem buf_poke (s : MemoryStream) (off : ℕ) (src : List UInt8) :
    (s.poke off src).buf = Bytes.overwrite s.buf off src := rfl

@[simp]
theorem pos_poke (s : MemoryStream) (off : ℕ) (src : List UInt8) :
    (s.poke off src).pos = s.pos := rfl

end MemoryStream

end Pdk.Net
