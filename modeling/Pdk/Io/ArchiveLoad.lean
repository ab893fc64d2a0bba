import Pdk.Io.Archive

/-!
# Loading through the buffer

What an archive in load mode has not yet delivered is the unread part of its buffer followed by the
unread part of the file (`unread`). Refilling the buffer does not change it (`fillBuffer_spec`), so
that a read of `n` bytes depends on it alone: it delivers the first `n` of them, and it throws when
there are fewer or when the buffer is smaller than `n` (`read_spec`). Every scalar is smaller than
the smallest buffer, so that scalars are loaded as if directly from the file.
-/

namespace Pdk.Io

open Foundation

/-- The buffer's size fits an `int`, and is at least 128. -/
theorem bufSize_lt (nBufSize : CInt) : bufSize nBufSize < 2 ^ 31 := by
  have hmax := nBufSize.property.2
  unfold bufSize
  simp only [int32Max] at hmax
  split <;> omega

theorem le_bufSize (nBufSize : CInt) : 128 ≤ bufSize nBufSize := by
  unfold bufSize
  split <;> omega

theorem ScalarType.size_le (t : ScalarType) : t.size ≤ 8 := by
  cases t <;> decide

namespace Archive

/-- What was not yet loaded. -/
def unread (a : Archive) : List UInt8 :=
  (a.buf.take a.bufFill).drop a.bufCur ++ a.file.unread

/-- An archive over a buffer of the given size from which is loaded. -/
structure Loading (size : ℕ) (a : Archive) : Prop where
  attached : a.attached = true
  length_buf : a.buf.length = size
  size_lt : size < 2 ^ 32
  cur_le : a.bufCur ≤ a.bufFill
  fill_le : a.bufFill ≤ size

theorem loading_new (file : File) (nBufSize : CInt) :
    Loading (bufSize nBufSize) (new file .load nBufSize) := by
  refine ⟨rfl, List.length_replicate, ?_, Nat.le_refl _, Nat.zero_le _⟩
  have hlt := bufSize_lt nBufSize
  omega

@[simp]
theorem unread_new (file : File) (mode : Mode) (nBufSize : CInt) :
    (new file mode nBufSize).unread = file.unread := by
  simp [new, unread]

namespace Loading

variable {size : ℕ} {a : Archive}

/-- The unread part of the buffer. -/
theorem length_tail (h : Loading size a) :
    ((a.buf.take a.bufFill).drop a.bufCur).length = a.bufFill - a.bufCur := by
  have hbuf := h.length_buf
  have hfill := h.fill_le
  simp only [List.length_drop, List.length_take]
  omega

/-- **Refilling the buffer** moves bytes from the file to the buffer, as many as there is room for. -/
theorem fillBuffer_spec (h : Loading size a) :
    Loading size a.fillBuffer ∧ a.fillBuffer.unread = a.unread ∧ a.fillBuffer.bufCur = 0 ∧
      a.fillBuffer.bufFill = min size a.unread.length := by
  have hbuf := h.length_buf
  have hcur := h.cur_le
  have hfill := h.fill_le
  have hsize := h.size_lt
  have htail := h.length_tail
  have hmod : (a.buf.length - (a.bufFill - a.bufCur)) % 2 ^ 32 =
      size - (a.bufFill - a.bufCur) := by
    rw [hbuf]
    exact Nat.mod_eq_of_lt (by omega)
  -- the unread tail, as it is moved to the front
  obtain ⟨tail, htaildef⟩ : ∃ tail, (a.buf.take a.bufFill).drop a.bufCur = tail := ⟨_, rfl⟩
  have hmoved : (a.buf.drop a.bufCur).take (a.bufFill - a.bufCur) = tail := by
    rw [← htaildef, List.drop_take]
  rw [htaildef] at htail
  obtain ⟨bytes, hbytes⟩ : ∃ bytes, a.file.unread.take (size - (a.bufFill - a.bufCur)) = bytes :=
    ⟨_, rfl⟩
  have hlen : bytes.length ≤ size - (a.bufFill - a.bufCur) := by
    rw [← hbytes, List.length_take]
    exact Nat.min_le_left _ _
  have hshifted : Bytes.overwrite a.buf 0 tail = tail ++ a.buf.drop tail.length :=
    Bytes.overwrite_zero (by omega)
  have hnew : Bytes.overwrite (Bytes.overwrite a.buf 0 tail) (a.bufFill - a.bufCur) bytes =
      tail ++ bytes ++ a.buf.drop (tail.length + bytes.length) := by
    rw [Bytes.overwrite_eq (by rw [Bytes.length_overwrite]; omega), hshifted, ← htail,
      List.take_left, List.drop_append, List.drop_of_length_le (by omega), List.nil_append,
      Nat.add_sub_cancel_left, List.drop_drop]
  have hdef : a.fillBuffer = { a with
      file := { a.file with unread := a.file.unread.drop (size - (a.bufFill - a.bufCur)) }
      buf := tail ++ bytes ++ a.buf.drop (tail.length + bytes.length)
      bufCur := 0
      bufFill := tail.length + bytes.length } := by
    simp only [fillBuffer, h.attached, if_true, File.read, hmod, hmoved, hbytes, hnew, htail]
  have hunread : a.unread = tail ++ a.file.unread := by rw [unread, htaildef]
  rw [hdef]
  refine ⟨⟨h.attached, ?_, hsize, Nat.zero_le _, ?_⟩, ?_, rfl, ?_⟩
  · simp only [List.length_append, List.length_drop]
    omega
  · simp only
    omega
  · rw [hunread]
    simp only [unread, List.drop_zero]
    rw [← List.length_append, List.take_left, List.append_assoc, ← hbytes,
      List.take_append_drop]
  · rw [hunread, List.length_append]
    simp only
    rw [← hbytes, List.length_take]
    omega

/-- `_ensureRead(n)` keeps what is unread; it returns when there are `n` bytes and the buffer can
    hold them, and then the buffer does. -/
theorem ensureRead_spec (h : Loading size a) (n : ℕ) :
    Loading size (a.ensureRead n).2 ∧ (a.ensureRead n).2.unread = a.unread ∧
      ((a.ensureRead n).1 = true ↔ n ≤ size ∧ n ≤ a.unread.length) ∧
      ((a.ensureRead n).1 = true →
        (a.ensureRead n).2.bufCur + n ≤ (a.ensureRead n).2.bufFill) := by
  have hfill := h.fill_le
  have hcur := h.cur_le
  have htail := h.length_tail
  have hunread : a.unread.length = (a.bufFill - a.bufCur) + a.file.unread.length := by
    rw [unread, List.length_append, htail]
  by_cases henough : a.bufCur + n > a.bufFill
  · obtain ⟨hfilled, hsame, hzero, hmin⟩ := h.fillBuffer_spec
    have hdef : a.ensureRead n =
        if a.fillBuffer.bufCur + n > a.fillBuffer.bufFill then (false, a.fillBuffer)
        else (true, a.fillBuffer) := by
      rw [ensureRead, if_pos henough]
    rw [hzero, hmin] at hdef
    by_cases hshort : 0 + n > min size a.unread.length
    · rw [if_pos hshort] at hdef
      rw [hdef]
      refine ⟨hfilled, hsame, ?_, nofun⟩
      simp only [Bool.false_eq_true, false_iff]
      omega
    · rw [if_neg hshort] at hdef
      rw [hdef]
      refine ⟨hfilled, hsame, ?_, ?_⟩
      · simp only [true_iff]
        omega
      · intro _
        simp only
        omega
  · have hdef : a.ensureRead n = (true, a) := by
      rw [ensureRead, if_neg henough, if_neg henough]
    rw [hdef]
    refine ⟨h, rfl, ?_, ?_⟩
    · simp only [true_iff]
      omega
    · intro _
      simp only
      omega

/-- **A read through the buffer** depends on what is unread and on the size of the buffer only. -/
theorem read_spec (h : Loading size a) (n : ℕ) :
    ∃ a', Loading size a' ∧
      ((n ≤ size ∧ n ≤ a.unread.length ∧ a.read n = (.ok (a.unread.take n), a') ∧
          a'.unread = a.unread.drop n) ∨
        (¬(n ≤ size ∧ n ≤ a.unread.length) ∧ a.read n = (.error prematureEnd, a') ∧
          a'.unread = a.unread)) := by
  obtain ⟨hloading, hsame, hiff, hroom⟩ := h.ensureRead_spec n
  obtain ⟨⟨ok, filled⟩, hres⟩ : ∃ r, a.ensureRead n = r := ⟨_, rfl⟩
  rw [hres] at hloading hsame hiff hroom
  simp only at hloading hsame hiff hroom
  cases ok with
  | false =>
    refine ⟨filled, hloading, .inr ⟨?_, ?_, hsame⟩⟩
    · intro hcond
      exact absurd (hiff.mpr hcond) (by decide)
    · simp [read, hres]
  | true =>
    have hinside := hroom rfl
    obtain ⟨hsize, hlen⟩ := hiff.mp rfl
    have hfill := hloading.fill_le
    have hbuf := hloading.length_buf
    have htail := hloading.length_tail
    have hchunk : (filled.buf.drop filled.bufCur).take n = a.unread.take n := by
      rw [← hsame, unread, List.take_append_of_le_length (by omega), List.drop_take, List.take_take]
      congr 1
      omega
    refine ⟨{ filled with bufCur := filled.bufCur + n },
      ⟨hloading.attached, hbuf, hloading.size_lt, hinside, hfill⟩, .inl ⟨hsize, hlen, ?_, ?_⟩⟩
    · simp [read, hres, copyOut, hchunk]
    · rw [← hsame]
      simp only [unread]
      rw [List.drop_append_of_le_length (by omega), List.drop_drop]

end Loading

/-! ## Scalars -/

/-- Decode the value at an offset of a file, and step over it; throw and stay when the file ends
    before it does. -/
def loadDirect (content : List UInt8) (offset : ℕ) (t : ScalarType) : Except String Scalar × ℕ :=
  if offset + t.size ≤ content.length then
    (.ok (t.decode ((content.drop offset).take t.size)), offset + t.size)
  else (.error prematureEnd, offset)

/-- The loads one after the other, with what each of them returns or throws. -/
def loadEach (a : Archive) : List ScalarType → List (Except String Scalar) × Archive
  | [] => ([], a)
  | t :: types =>
    let (result, a') := a.load t
    let (results, last) := a'.loadEach types
    (result :: results, last)

/-- The same directly from the file. -/
def loadDirectEach (content : List UInt8) (offset : ℕ) :
    List ScalarType → List (Except String Scalar) × ℕ
  | [] => ([], offset)
  | t :: types =>
    let (result, offset') := loadDirect content offset t
    let (results, last) := loadDirectEach content offset' types
    (result :: results, last)

/-- The archive stands at an offset of the file. -/
structure At (content : List UInt8) (size offset : ℕ) (a : Archive) : Prop where
  loading : Loading size a
  enough : 128 ≤ size
  offset_le : offset ≤ content.length
  unread_eq : a.unread = content.drop offset

namespace At

variable {content : List UInt8} {size offset : ℕ} {a : Archive}

/-- One load through the buffer is one load from the file. -/
theorem load (h : At content size offset a) (t : ScalarType) :
    (a.load t).1 = (loadDirect content offset t).1 ∧
      At content size (loadDirect content offset t).2 (a.load t).2 := by
  have hsize : t.size ≤ size := Nat.le_trans t.size_le (Nat.le_trans (by decide) h.enough)
  have hoffset := h.offset_le
  have hlen : a.unread.length = content.length - offset := by rw [h.unread_eq, List.length_drop]
  obtain ⟨a', hloading, hok | herror⟩ := h.loading.read_spec t.size
  · obtain ⟨-, hle, hread, hunread⟩ := hok
    have hdirect : loadDirect content offset t =
        (.ok (t.decode ((content.drop offset).take t.size)), offset + t.size) := if_pos (by omega)
    have hload : a.load t = (.ok (t.decode (a.unread.take t.size)), a') := by
      rw [Archive.load, hread]
      rfl
    rw [hdirect, hload, h.unread_eq]
    refine ⟨rfl, hloading, h.enough, by simp only; omega, ?_⟩
    rw [hunread, h.unread_eq, List.drop_drop]
  · obtain ⟨hshort, hread, hunread⟩ := herror
    have hdirect : loadDirect content offset t = (.error prematureEnd, offset) :=
      if_neg (by omega)
    have hload : a.load t = (.error prematureEnd, a') := by
      rw [Archive.load, hread]
      rfl
    rw [hdirect, hload]
    exact ⟨rfl, hloading, h.enough, hoffset, hunread.trans h.unread_eq⟩

theorem loadEach (h : At content size offset a) (types : List ScalarType) :
    (a.loadEach types).1 = (loadDirectEach content offset types).1 ∧
      At content size (loadDirectEach content offset types).2 (a.loadEach types).2 := by
  induction types generalizing a offset with
  | nil => exact ⟨rfl, h⟩
  | cons t types ih =>
    obtain ⟨hresult, hnext⟩ := h.load t
    obtain ⟨hresults, hlast⟩ := ih hnext
    refine ⟨?_, hlast⟩
    simp only [Archive.loadEach, loadDirectEach, hresult, hresults]

end At

theorem at_new (written content : List UInt8) (nBufSize : CInt) :
    At content (bufSize nBufSize) 0 (new ⟨written, content⟩ .load nBufSize) :=
  ⟨loading_new _ nBufSize, le_bufSize nBufSize, Nat.zero_le _, by simp⟩

/-- **Buffered loading.** For every file, buffer size and sequence of loads, what each load returns
    or throws is what decoding at the running offset of the file gives, and afterwards the unread
    bytes are those behind that offset. Hence after any loads, the next one throws exactly when
    fewer bytes are left than it needs, and then it leaves the unread bytes as they were. -/
theorem loads_direct (written content : List UInt8) (nBufSize : CInt) (types : List ScalarType) :
    let a := new ⟨written, content⟩ .load nBufSize
    let last := (a.loadEach types).2
    (a.loadEach types).1 = (loadDirectEach content 0 types).1 ∧
      last.unread = content.drop (loadDirectEach content 0 types).2 ∧
      ∀ t : ScalarType,
        ((last.load t).1 = .error prematureEnd ↔ last.unread.length < t.size) ∧
        (last.unread.length < t.size → (last.load t).2.unread = last.unread) ∧
        (t.size ≤ last.unread.length →
          (last.load t).1 = .ok (t.decode (last.unread.take t.size)) ∧
            (last.load t).2.unread = last.unread.drop t.size) := by
  intro a last
  obtain ⟨hresults, hlast⟩ := (at_new written content nBufSize).loadEach types
  refine ⟨hresults, hlast.unread_eq, ?_⟩
  intro t
  obtain ⟨hresult, hnext⟩ := hlast.load t
  have hoffset := hlast.offset_le
  have hlen : last.unread.length = content.length - (loadDirectEach content 0 types).2 := by
    rw [hlast.unread_eq, List.length_drop]
  by_cases hle : (loadDirectEach content 0 types).2 + t.size ≤ content.length
  · rw [loadDirect, if_pos hle] at hresult hnext
    rw [hresult, hnext.unread_eq, hlast.unread_eq, ← List.drop_drop]
    refine ⟨⟨nofun, ?_⟩, ?_, fun _ => ⟨rfl, rfl⟩⟩
    · rw [List.length_drop]
      omega
    · rw [List.length_drop]
      omega
  · rw [loadDirect, if_neg hle] at hresult hnext
    rw [hresult, hnext.unread_eq, hlast.unread_eq]
    refine ⟨⟨fun _ => ?_, fun _ => rfl⟩, fun _ => rfl, ?_⟩
    · rw [List.length_drop]
      omega
    · rw [List.length_drop]
      omega

end Archive

end Pdk.Io
