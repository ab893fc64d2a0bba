import Pdk.Io.ArchiveRoundTrip

/-!
# Reading a string into a buffer

`read_string(lpsz, nMax)` reads the count of a string, cuts it to what the buffer can hold, and then
reads only that many characters. The characters that it cuts off stay in the stream and are taken
for the next value. So it stays in step with `read_string(rString)` exactly when the string is shorter
than the buffer (`readers_agree_iff`). With `nMax` zero, `nMax - 1` wraps around, and the read of that
many bytes throws before anything is written.
-/

namespace Pdk.Io

open Foundation

namespace Archive

/-- The length that `read_string(lpsz, nMax)` makes of a count. -/
def cutCount (count nMax : UInt32) : UInt32 :=
  if count ≥ nMax then nMax - 1 else count

/-- `read_string(lpsz, nMax)`, where `dest` is the memory at `lpsz`: what it returns or throws, the
    memory afterwards, and the archive. There is no result when it writes outside of that memory. -/
def readStringTo (a : Archive) (nMax : UInt32) (dest : List UInt8) :
    Option (Except String (List UInt8) × Archive) :=
  match a.readCount with
  | (.error e, a') => some (.error e, a')
  | (.ok count, a') =>
    let len := cutCount count nMax
    match a'.read len.toNat with
    | (.error e, a') => some (.error e, a')
    | (.ok bytes, a') =>
      if len.toNat < dest.length then
        some (.ok (Bytes.overwrite (Bytes.overwrite dest 0 bytes) len.toNat [0]), a')
      else none

/-- The reader of a buffer does what the other reader does: the archive stands behind the string, and
    the buffer holds a part of it with its terminator. -/
def InStep (a : Archive) (nMax : UInt32) (dest text rest : List UInt8) : Prop :=
  ∃ dest' a', a.readStringTo nMax dest = some (.ok dest', a') ∧
    a'.unread = rest ∧ a.readString.2.unread = rest ∧
    ∃ stored, stored <+: text ∧ stored.length + 1 ≤ nMax.toNat ∧
      dest'.take (stored.length + 1) = stored ++ [0]

/-! ## One call -/

theorem toNat_cutCount_of_lt {n : ℕ} {nMax : UInt32} (hn : n < 2 ^ 32) (h : n < nMax.toNat) :
    (cutCount (UInt32.ofNat n) nMax).toNat = n := by
  have hcount : (UInt32.ofNat n).toNat = n := UInt32.toNat_ofNat_of_lt hn
  have hlt : ¬UInt32.ofNat n ≥ nMax := by
    rw [ge_iff_le, UInt32.le_iff_toNat_le, hcount]
    omega
  rw [cutCount, if_neg hlt, hcount]

theorem toNat_cutCount_of_le {n : ℕ} {nMax : UInt32} (hn : n < 2 ^ 32) (h : nMax.toNat ≤ n)
    (hmax : 0 < nMax.toNat) : (cutCount (UInt32.ofNat n) nMax).toNat = nMax.toNat - 1 := by
  have hcount : (UInt32.ofNat n).toNat = n := UInt32.toNat_ofNat_of_lt hn
  have hle : UInt32.ofNat n ≥ nMax := by
    rw [ge_iff_le, UInt32.le_iff_toNat_le, hcount]
    exact h
  have hone : (1 : UInt32) ≤ nMax := by
    rw [UInt32.le_iff_toNat_le]
    exact hmax
  rw [cutCount, if_pos hle, UInt32.toNat_sub_of_le nMax 1 hone]
  rfl

/-- `nMax - 1` wraps around. -/
theorem le_toNat_cutCount_zero (count : UInt32) : 2 ^ 31 ≤ (cutCount count 0).toNat := by
  have hle : count ≥ 0 := by
    rw [ge_iff_le, UInt32.le_iff_toNat_le]
    exact Nat.zero_le _
  rw [cutCount, if_pos hle]
  decide

/-- Text and terminator at the front of a buffer that has room for both. -/
theorem take_terminated {dest text : List UInt8} (h : text.length < dest.length) :
    (Bytes.overwrite (Bytes.overwrite dest 0 text) text.length [0]).take (text.length + 1) =
      text ++ [0] := by
  have hfirst : Bytes.overwrite dest 0 text = text ++ dest.drop text.length :=
    Bytes.overwrite_zero (Nat.le_of_lt h)
  rw [Bytes.overwrite_eq (by rw [Bytes.length_overwrite]; exact h), hfirst, List.take_left]
  have hlen : (text ++ [(0 : UInt8)]).length = text.length + 1 := by simp
  rw [← hlen, List.take_left]

/-- It throws what the read of the characters throws. -/
theorem readStringTo_error {a a₁ a₂ : Archive} {count nMax : UInt32} {e : String}
    (hcount : a.readCount = (.ok count, a₁))
    (hread : a₁.read (cutCount count nMax).toNat = (.error e, a₂)) (dest : List UInt8) :
    a.readStringTo nMax dest = some (.error e, a₂) := by
  simp only [readStringTo, hcount, hread]

namespace Loading

variable {size : ℕ} {a : Archive} {text rest dest : List UInt8} {nMax : UInt32}

/-- A string that is shorter than the buffer is read as a whole. -/
theorem readStringTo_of_lt (h : Loading size a) (henough : 128 ≤ size) (hs : text.length ≤ size)
    (hunread : a.unread = toLe 4 text.length ++ text ++ rest) (hdest : dest.length = nMax.toNat)
    (hlt : text.length < nMax.toNat) :
    ∃ a', a.readStringTo nMax dest =
        some (.ok (Bytes.overwrite (Bytes.overwrite dest 0 text) text.length [0]), a') ∧
      a'.unread = rest := by
  have hsize := h.size_lt
  obtain ⟨a₁, hcount, hloading, hrest⟩ := h.read_count henough hs hunread
  obtain ⟨a₂, hread, -, hrest₂⟩ := hloading.read_block hrest hs
  refine ⟨a₂, ?_, hrest₂⟩
  simp only [readStringTo, hcount, toNat_cutCount_of_lt (by omega) hlt, hread]
  rw [if_pos (by rw [hdest]; exact hlt)]

/-- Of a longer one, the rest stays in the stream. -/
theorem readStringTo_of_le (h : Loading size a) (henough : 128 ≤ size) (hs : text.length ≤ size)
    (hunread : a.unread = toLe 4 text.length ++ text ++ rest) (hdest : dest.length = nMax.toNat)
    (hle : nMax.toNat ≤ text.length) (hmax : 0 < nMax.toNat) :
    ∃ dest' a', a.readStringTo nMax dest = some (.ok dest', a') ∧
      a'.unread = text.drop (nMax.toNat - 1) ++ rest := by
  have hsize := h.size_lt
  obtain ⟨a₁, hcount, hloading, hrest⟩ := h.read_count henough hs hunread
  have hlen : (text.take (nMax.toNat - 1)).length = nMax.toNat - 1 := by
    rw [List.length_take]
    omega
  rw [← List.take_append_drop (nMax.toNat - 1) text, List.append_assoc] at hrest
  obtain ⟨a₂, hread, -, hrest₂⟩ := hloading.read_block hrest (by omega)
  rw [hlen] at hread
  refine ⟨Bytes.overwrite (Bytes.overwrite dest 0 (text.take (nMax.toNat - 1))) (nMax.toNat - 1) [0],
    a₂, ?_, hrest₂⟩
  simp only [readStringTo, hcount, toNat_cutCount_of_le (by omega) hle hmax, hread]
  rw [if_pos (by omega)]

/-- Without a buffer, it throws. -/
theorem readStringTo_zero (h : Loading size a) (henough : 128 ≤ size) (hbuf : size < 2 ^ 31)
    (hs : text.length ≤ size) (hunread : a.unread = toLe 4 text.length ++ text ++ rest)
    (dest : List UInt8) : ∃ a', a.readStringTo 0 dest = some (.error prematureEnd, a') := by
  obtain ⟨a₁, hcount, hloading, hrest⟩ := h.read_count henough hs hunread
  have hlong := le_toNat_cutCount_zero (UInt32.ofNat text.length)
  obtain ⟨a₂, -, hok | herror⟩ :=
    hloading.read_spec (cutCount (UInt32.ofNat text.length) 0).toNat
  · have hsize := hok.1
    omega
  · exact ⟨a₂, readStringTo_error hcount herror.2.1 dest⟩

/-- **In step, or not**: exactly when the string is shorter than the buffer. -/
theorem inStep_iff (h : Loading size a) (henough : 128 ≤ size) (hbuf : size < 2 ^ 31)
    (hs : text.length ≤ size) (hunread : a.unread = toLe 4 text.length ++ text ++ rest)
    (hdest : dest.length = nMax.toNat) :
    InStep a nMax dest text rest ↔ text.length < nMax.toNat := by
  constructor
  · rintro ⟨dest', a', hread, hrest, -, -⟩
    by_contra hlong
    by_cases hmax : nMax = 0
    · subst hmax
      obtain ⟨a'', herror⟩ := h.readStringTo_zero henough hbuf hs hunread dest
      rw [hread] at herror
      cases herror
    · have hpos : 0 < nMax.toNat := by
        rw [Nat.pos_iff_ne_zero]
        intro hzero
        exact hmax (UInt32.toNat_inj.mp hzero)
      obtain ⟨dest'', a'', hcut, hleft⟩ :=
        h.readStringTo_of_le henough hs hunread hdest (Nat.not_lt.mp hlong) hpos
      rw [hread] at hcut
      cases hcut
      rw [hrest] at hleft
      have hlen := congrArg List.length hleft
      rw [List.length_append, List.length_drop] at hlen
      omega
  · intro hlt
    obtain ⟨a', hread, hrest⟩ := h.readStringTo_of_lt henough hs hunread hdest hlt
    obtain ⟨a'', hstring, -, hrest'⟩ := h.load_string henough hs hunread
    refine ⟨_, a', hread, hrest, by rw [hstring]; exact hrest', text, List.prefix_refl _, hlt, ?_⟩
    exact take_terminated (by rw [hdest]; exact hlt)

end Loading

/-! ## Stored strings -/

/-- **The two readers of a string agree exactly when it is shorter than the buffer.** For every
    string that the load buffer can hold, every sequence of values behind it and every buffer, the
    call has a result: it never writes outside of the buffer. -/
theorem readers_agree_iff (written : List UInt8) (nLoad : CInt) (lpsz : List UInt8)
    (calls : List StoreCall) (hfits : (Bytes.cString lpsz).length ≤ bufSize nLoad) (nMax : UInt32)
    (dest : List UInt8) (hdest : dest.length = nMax.toNat) :
    let a := new ⟨written, encodings (.writeString lpsz :: calls)⟩ .load nLoad
    (∃ result, a.readStringTo nMax dest = some result) ∧
      (InStep a nMax dest (Bytes.cString lpsz) (encodings calls) ↔
        (Bytes.cString lpsz).length < nMax.toNat) := by
  intro a
  have hloading := loading_new ⟨written, encodings (.writeString lpsz :: calls)⟩ nLoad
  have hunread : a.unread = toLe 4 (Bytes.cString lpsz).length ++ Bytes.cString lpsz ++
      encodings calls := by
    rw [unread_new]
    rfl
  have henough := le_bufSize nLoad
  refine ⟨?_, hloading.inStep_iff henough (bufSize_lt nLoad) hfits hunread hdest⟩
  by_cases hlt : (Bytes.cString lpsz).length < nMax.toNat
  · obtain ⟨a', hread, -⟩ := hloading.readStringTo_of_lt henough hfits hunread hdest hlt
    exact ⟨_, hread⟩
  · by_cases hmax : nMax.toNat = 0
    · obtain rfl : nMax = 0 := UInt32.toNat_inj.mp hmax
      obtain ⟨a', herror⟩ :=
        hloading.readStringTo_zero henough (bufSize_lt nLoad) hfits hunread dest
      exact ⟨_, herror⟩
    · obtain ⟨dest', a', hread, -⟩ := hloading.readStringTo_of_le henough hfits hunread hdest
        (Nat.not_lt.mp hlt) (Nat.pos_of_ne_zero hmax)
      exact ⟨_, hread⟩

/-- Three characters in a buffer of four bytes, in front of a number. -/
theorem readers_agree_iff_terminated :
    InStep (new ⟨[], encodings [.writeString [97, 98, 99], .store (.uint32 7)]⟩ .load ⟨128, by decide⟩)
      4 [1, 1, 1, 1] [97, 98, 99] (encodings [.store (.uint32 7)]) :=
  (readers_agree_iff [] ⟨128, by decide⟩ [97, 98, 99] [.store (.uint32 7)] (by decide) 4 [1, 1, 1, 1]
    (by decide)).2.mpr (by decide)

/-- Three characters in a buffer of three bytes: the third one stays in the stream. -/
theorem not_readers_agree_equal :
    ¬InStep (new ⟨[], encodings [.writeString [97, 98, 99], .store (.uint32 7)]⟩ .load ⟨128, by decide⟩)
      3 [1, 1, 1] [97, 98, 99] (encodings [.store (.uint32 7)]) := by
  have hloading := loading_new ⟨[], encodings [.writeString [97, 98, 99], .store (.uint32 7)]⟩
    ⟨128, by decide⟩
  intro hstep
  have hshort := (hloading.inStep_iff (le_bufSize _) (bufSize_lt _) (by decide) (unread_new _ _ _)
    (by decide)).mp hstep
  exact absurd hshort (by decide)

end Archive

end Pdk.Io
