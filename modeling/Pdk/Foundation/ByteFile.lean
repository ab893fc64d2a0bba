import Pdk.Foundation.Bytes

/-!
# Random-access byte files

A file is its size, the byte at every place and the position of the next access. The position is any
integer. A write replaces the bytes at the position and nothing else; what is between the old end and
the position becomes zero. `ofBytes` is the file with given contents, and the operations on a growing
byte buffer are those of the file (`ofBytes_resize`, `ofBytes_overwrite`, `read_ofBytes`).
-/

namespace Foundation

@[ext]
structure ByteFile where
  size : ℕ
  pos : ℤ
  byte : ℕ → UInt8
  -- there is nothing behind the end
  byte_of_le : ∀ i, size ≤ i → byte i = 0

namespace ByteFile

def empty : ByteFile := ⟨0, 0, fun _ => 0, fun _ _ => rfl⟩

/-- The bytes that a read of `n` bytes transfers. -/
def available (f : ByteFile) (n : ℤ) : ℤ :=
  if f.pos < 0 ∨ n ≤ 0 then 0 else max 0 (min n (f.size - f.pos))

def read (f : ByteFile) (n : ℤ) : List UInt8 × ByteFile :=
  ((List.range (f.available n).toNat).map fun i => f.byte (f.pos.toNat + i),
    { f with pos := f.pos + f.available n })

/-- The byte that is at a place behind a write. -/
def written (f : ByteFile) (src : List UInt8) (i : ℕ) : UInt8 :=
  if f.pos.toNat ≤ i then src[i - f.pos.toNat]?.getD (f.byte i) else f.byte i

def write (f : ByteFile) (src : List UInt8) : ByteFile :=
  if f.pos < 0 ∨ src = [] then f
  else
    { size := max f.size (f.pos.toNat + src.length)
      pos := f.pos + src.length
      byte := f.written src
      byte_of_le := by
        intro i hi
        have hold := f.byte_of_le i (Nat.le_trans (Nat.le_max_left _ _) hi)
        have hlen : src.length ≤ i - f.pos.toNat := by omega
        rw [written, List.getElem?_eq_none hlen, hold]
        split <;> rfl }

/-- Cut or extend the file; the position stays inside. -/
def resize (f : ByteFile) (n : ℕ) : ByteFile where
  size := n
  pos := min f.pos n
  byte := fun i => if i < n then f.byte i else 0
  byte_of_le := fun _ hi => if_neg (Nat.not_lt.mpr hi)

def seek (f : ByteFile) (pos : ℤ) : ByteFile :=
  { f with pos := pos }

/-! ## Files with given contents -/

def ofBytes (bs : List UInt8) (pos : ℤ) : ByteFile where
  size := bs.length
  pos := pos
  byte := fun i => bs[i]?.getD 0
  byte_of_le := by
    intro i hi
    rw [List.getElem?_eq_none hi]
    rfl

theorem getElem?_resize (bs : List UInt8) (n i : ℕ) :
    (Bytes.resize bs n)[i]?.getD 0 = if i < n then bs[i]?.getD 0 else 0 := by
  rw [Bytes.resize, List.getElem?_append, List.length_take]
  by_cases hi : i < n
  · rw [if_pos hi]
    split
    · rw [List.getElem?_take_of_lt hi]
    · rename_i hlen
      rw [List.getElem?_eq_none (by omega : bs.length ≤ i), List.getElem?_replicate]
      split <;> rfl
  · rw [if_neg hi]
    split
    · omega
    · rw [List.getElem?_replicate, if_neg (by omega)]
      rfl

theorem getElem?_overwrite {bs src : List UInt8} {off : ℕ} (h : off + src.length ≤ bs.length)
    (i : ℕ) : (Bytes.overwrite bs off src)[i]? =
      if off ≤ i ∧ i < off + src.length then src[i - off]? else bs[i]? := by
  rw [Bytes.overwrite_eq h, List.append_assoc, List.getElem?_append, List.length_take,
    Nat.min_eq_left (by omega)]
  by_cases hbefore : i < off
  · rw [if_pos hbefore, if_neg (by omega), List.getElem?_take_of_lt hbefore]
  · rw [if_neg hbefore, List.getElem?_append]
    by_cases hinside : i - off < src.length
    · rw [if_pos hinside, if_pos (by omega)]
    · rw [if_neg hinside, if_neg (by omega), List.getElem?_drop]
      congr 1
      omega

theorem ofBytes_resize (bs : List UInt8) (pos : ℤ) (n : ℕ) :
    ofBytes (Bytes.resize bs n) (min pos n) = (ofBytes bs pos).resize n := by
  ext1
  · exact Bytes.length_resize bs n
  · rfl
  · funext i
    exact getElem?_resize bs n i

/-- A copy into a buffer that is long enough for it, and was extended for that if necessary. -/
theorem ofBytes_overwrite {bs src : List UInt8} {pos : ℤ} (hpos : 0 ≤ pos) (hsrc : src ≠ []) :
    ofBytes (Bytes.overwrite (Bytes.resize bs (max bs.length (pos.toNat + src.length))) pos.toNat src)
      (pos + src.length) = (ofBytes bs pos).write src := by
  have hcase : ¬((ofBytes bs pos).pos < 0 ∨ src = []) := by
    rintro (hneg | hnil)
    · exact absurd hpos (Int.not_le.mpr hneg)
    · exact hsrc hnil
  rw [write, if_neg hcase]
  ext1
  · show (Bytes.overwrite _ _ _).length = max bs.length (pos.toNat + src.length)
    rw [Bytes.length_overwrite, Bytes.length_resize]
  · rfl
  · funext i
    have hroom : pos.toNat + src.length ≤
        (Bytes.resize bs (max bs.length (pos.toNat + src.length))).length := by
      rw [Bytes.length_resize]
      exact Nat.le_max_right _ _
    have hold : (Bytes.resize bs (max bs.length (pos.toNat + src.length)))[i]?.getD 0 =
        bs[i]?.getD 0 := by
      rw [getElem?_resize]
      split
      · rfl
      · rw [List.getElem?_eq_none (by omega)]
        rfl
    show (Bytes.overwrite _ _ _)[i]?.getD 0 = written _ _ i
    rw [getElem?_overwrite hroom, written]
    show _ = if pos.toNat ≤ i then src[i - pos.toNat]?.getD (bs[i]?.getD 0) else bs[i]?.getD 0
    by_cases hi : pos.toNat ≤ i
    · rw [if_pos hi]
      by_cases hinside : i < pos.toNat + src.length
      · rw [if_pos ⟨hi, hinside⟩, List.getElem?_eq_getElem (by omega)]
        rfl
      · rw [if_neg (fun h => hinside h.2), hold, List.getElem?_eq_none (by omega : src.length ≤ _)]
        rfl
    · rw [if_neg (fun h => hi h.1), if_neg hi, hold]

/-- What is read from a buffer. -/
theorem read_ofBytes {bs : List UInt8} {p c : ℕ} (h : p + c ≤ bs.length) (pos : ℤ) :
    (List.range c).map (fun i => (ofBytes bs pos).byte (p + i)) = (bs.drop p).take c := by
  refine List.ext_getElem? fun i => ?_
  rw [List.getElem?_map]
  by_cases hi : i < c
  · rw [List.getElem?_range hi, List.getElem?_take_of_lt hi, List.getElem?_drop]
    simp only [ofBytes, Option.map_some]
    rw [List.getElem?_eq_getElem (by omega)]
    rfl
  · rw [List.getElem?_eq_none (by simpa using hi), List.getElem?_eq_none]
    · rfl
    · rw [List.length_take]
      omega

end ByteFile

end Foundation
