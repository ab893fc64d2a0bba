import Pdk.Foundation.BufferedWriter
import Pdk.Io.Archive

/-!
# Storing through the buffer

An archive in store mode is a buffered writer (`writer`): `_ensureWrite` followed by the copy is a
block, `flush()` is a flush, and `static_cast<unsigned int>(buf_cur_)` is the length of a write that
wraps around at 2^32. The copy always stays inside the buffer (`write_writer`). The bytes in the
file are the encodings of the values exactly when no write is that long and no string is cut by
`static_cast<uint32_t>(strlen(lpsz))`.
-/

namespace Pdk.Io

open Foundation

/-- The number of values of an `unsigned int`. -/
def uintLimit : ℕ := 2 ^ 32

/-! ## Calls -/

/-- The calls that store something. A block that is passed to `write` has a length that an
    `unsigned int` can hold. -/
inductive StoreCall where
  | store (v : Scalar)
  | write (bytes : { bytes : List UInt8 // bytes.length < uintLimit })
  | writeCount (dwCount : UInt32)
  | writeString (lpsz : List UInt8)
  | flush

namespace StoreCall

/-- The encoding of what the call is given: a string is its length, in four bytes, followed by its
    characters. -/
def encoding : StoreCall → List UInt8
  | store v => v.encode
  | write bytes => bytes.val
  | writeCount dwCount => (Scalar.uint32 dwCount).encode
  | writeString lpsz => toLe 4 (Bytes.cString lpsz).length ++ Bytes.cString lpsz
  | flush => []

/-- The length of the string, if the call is given one, fits into the four bytes of its count. -/
def Counted : StoreCall → Prop
  | writeString lpsz => (Bytes.cString lpsz).length < uintLimit
  | _ => True

/-- The blocks that the call copies into the buffer. -/
def ops : StoreCall → List (WriterOp UInt8)
  | store v => [.block v.encode]
  | write bytes => [.block bytes.val]
  | writeCount dwCount => [.block (Scalar.uint32 dwCount).encode]
  | writeString lpsz =>
    [.block (toLe 4 (Bytes.cString lpsz).length),
      .block ((Bytes.cString lpsz).take ((Bytes.cString lpsz).length % uintLimit))]
  | flush => [.flush]

end StoreCall

namespace Archive

def call (a : Archive) : StoreCall → Option Archive
  | .store v => a.store v
  | .write bytes => a.write bytes.val
  | .writeCount dwCount => a.writeCount dwCount
  | .writeString lpsz => a.writeString lpsz
  | .flush => some a.flush

/-- The calls one after the other; `none` as soon as a copy leaves the buffer. -/
def runCalls (a : Archive) (calls : List StoreCall) : Option Archive :=
  calls.foldlM call a

/-! ## The archive as a buffered writer -/

/-- An archive in store mode that was not closed. -/
structure Storing (a : Archive) : Prop where
  mode : a.mode = .store
  attached : a.attached = true
  inside : a.bufCur ≤ a.buf.length

/-- What the buffer holds and what the file holds. -/
def writer (a : Archive) : BufferedWriter UInt8 :=
  ⟨a.buf.length, a.buf.take a.bufCur, a.file.written⟩

theorem storing_new (file : File) (nBufSize : CInt) : (new file .store nBufSize).Storing :=
  ⟨rfl, rfl, Nat.zero_le _⟩

namespace Storing

variable {a : Archive}

theorem length_pending (h : a.Storing) : a.writer.pending.length = a.bufCur := by
  simp [writer, h.inside]

/-- `flush()` empties the buffer. -/
theorem flush_eq (h : a.Storing) :
    a.flush = { a with
      file := a.file.write (a.buf.take (a.bufCur % uintLimit))
      bufCur := 0 } := by
  unfold flush
  by_cases hcur : a.bufCur > 0
  · simp [isStoring, h.mode, h.attached, hcur, uintLimit]
  · -- with nothing pending, `File::write` is not called
    have hzero : a.bufCur = 0 := by omega
    have hwrite : a.file.write [] = a.file := by simp [File.write]
    simp only [hzero, gt_iff_lt, Nat.lt_irrefl, decide_false, Bool.and_false, Bool.false_and,
      Bool.false_eq_true, if_false, Nat.zero_mod, List.take_zero, hwrite]
    cases a
    cases hzero
    rfl

/-- **`flush()` is a flush.** -/
theorem flush_writer (h : a.Storing) : a.flush.Storing ∧ a.flush.writer = a.writer.flush uintLimit := by
  have hlen := h.length_pending
  rw [h.flush_eq]
  refine ⟨⟨h.mode, h.attached, Nat.zero_le _⟩, ?_⟩
  have hle : a.bufCur % uintLimit ≤ a.bufCur := Nat.mod_le _ _
  rw [BufferedWriter.flush, hlen]
  simp [writer, File.write, List.take_take, hle]

/-- The copy into the buffer appends to what is pending. -/
theorem copyIn_writer (h : a.Storing) (bytes : List UInt8)
    (hroom : a.bufCur + bytes.length ≤ a.buf.length) :
    ∃ a', a.copyIn bytes = some a' ∧ a'.Storing ∧
      a'.writer = { a.writer with pending := a.writer.pending ++ bytes } := by
  refine ⟨_, if_pos hroom, ⟨h.mode, h.attached, by simpa using hroom⟩, ?_⟩
  simp only [writer, Bytes.length_overwrite, BufferedWriter.mk.injEq, true_and, and_true]
  rw [Bytes.overwrite_eq hroom, List.append_assoc]
  have hcur : (a.buf.take a.bufCur).length = a.bufCur := by simp [h.inside]
  rw [List.take_append, List.take_of_length_le (by omega), hcur, Nat.add_sub_cancel_left,
    List.take_append, List.take_of_length_le (Nat.le_refl _), Nat.sub_self, List.take_zero,
    List.append_nil]

/-- Enlarging the buffer keeps what is pending. -/
theorem resize_writer (h : a.Storing) {n : ℕ} (hn : a.buf.length ≤ n) :
    Storing { a with buf := Bytes.resize a.buf n } ∧
      writer { a with buf := Bytes.resize a.buf n } = { a.writer with size := n } := by
  have hinside := h.inside
  refine ⟨⟨h.mode, h.attached, by simp; omega⟩, ?_⟩
  simp only [writer, Bytes.length_resize, BufferedWriter.mk.injEq, true_and, and_true]
  rw [Bytes.resize, List.take_of_length_le hn, List.take_append_of_le_length hinside]

/-- A block behind a flush: the buffer is empty, and is enlarged if the block does not fit into it. -/
theorem refill_writer (h : a.Storing) (hcur : a.bufCur = 0) (bytes : List UInt8) :
    ∃ a', copyIn (if bytes.length > a.buf.length then
        { a with buf := Bytes.resize a.buf (bytes.length * 2) } else a) bytes = some a' ∧
      a'.Storing ∧
      a'.writer = ⟨BufferedWriter.grow a.buf.length bytes.length, bytes, a.writer.written⟩ := by
  have hpending : a.writer.pending = [] := by
    rw [writer, hcur]
    rfl
  by_cases hgrow : bytes.length > a.buf.length
  · obtain ⟨hresized, hresize⟩ := h.resize_writer (n := bytes.length * 2) (by omega)
    obtain ⟨a', hcopy, hstoring, hwriter⟩ := hresized.copyIn_writer bytes
      (by simp only [hcur, Bytes.length_resize]; omega)
    refine ⟨a', by rw [if_pos hgrow, hcopy], hstoring, ?_⟩
    rw [hwriter, hresize, BufferedWriter.grow, if_pos hgrow, hpending, List.nil_append]
  · obtain ⟨a', hcopy, hstoring, hwriter⟩ := h.copyIn_writer bytes (by rw [hcur]; omega)
    refine ⟨a', by rw [if_neg hgrow, hcopy], hstoring, ?_⟩
    rw [hwriter, BufferedWriter.grow, if_neg hgrow, hpending, List.nil_append]
    rfl

/-- **A block is a block**: `_ensureWrite(n)` makes room for the copy of `n` bytes, which therefore
    stays inside the buffer. -/
theorem write_writer (h : a.Storing) (bytes : List UInt8) :
    ∃ a', a.write bytes = some a' ∧ a'.Storing ∧
      a'.writer = a.writer.apply uintLimit (.block bytes) := by
  have hlen := h.length_pending
  have hsize : a.writer.size = a.buf.length := rfl
  by_cases hroom : a.bufCur + bytes.length ≤ a.buf.length
  · have hensure : a.ensureWrite bytes.length = a := if_neg (Nat.not_lt.mpr hroom)
    obtain ⟨a', hcopy, hstoring, hwriter⟩ := h.copyIn_writer bytes hroom
    refine ⟨a', by rw [write, hensure, hcopy], hstoring, ?_⟩
    rw [hwriter, BufferedWriter.apply, hlen, hsize, if_pos hroom]
    rfl
  · obtain ⟨hflushed, hflush⟩ := h.flush_writer
    have hcur : a.flush.bufCur = 0 := by rw [h.flush_eq]
    have hbuf : a.flush.buf = a.buf := by rw [h.flush_eq]
    have hensure : a.ensureWrite bytes.length =
        if bytes.length > a.flush.buf.length then
          { a.flush with buf := Bytes.resize a.flush.buf (bytes.length * 2) } else a.flush :=
      if_pos (Nat.not_le.mp hroom)
    obtain ⟨a', hcopy, hstoring, hwriter⟩ := hflushed.refill_writer hcur bytes
    refine ⟨a', by rw [write, hensure, hcopy], hstoring, ?_⟩
    rw [BufferedWriter.apply, hlen, hsize, if_neg hroom, ← hflush, hwriter, hbuf]

end Storing

/-! ## Calls as operations of the writer -/

variable {a : Archive}

theorem store_eq_write (a : Archive) (v : Scalar) : a.store v = a.write v.encode := by
  rw [store, write, Scalar.length_encode]

theorem toNat_count (n : ℕ) : (UInt32.ofNat n).toNat = n % uintLimit := by
  simp [uintLimit]

theorem encode_count (n : ℕ) : (Scalar.uint32 (UInt32.ofNat n)).encode = toLe 4 n := by
  have hmod := toLe_mod 4 n
  rw [Scalar.encode, toNat_count]
  exact hmod

/-- A call never copies outside the buffer, and it is what `ops` says. -/
theorem call_writer (h : a.Storing) (c : StoreCall) :
    ∃ a', a.call c = some a' ∧ a'.Storing ∧ a'.writer = a.writer.run uintLimit c.ops := by
  cases c with
  | store v =>
    simp only [call, store_eq_write]
    exact h.write_writer v.encode
  | write bytes => exact h.write_writer bytes.val
  | writeCount dwCount =>
    simp only [call, writeCount, store_eq_write]
    exact h.write_writer _
  | writeString lpsz =>
    obtain ⟨a₁, hcount, hstoring₁, hwriter₁⟩ := h.write_writer (toLe 4 (Bytes.cString lpsz).length)
    obtain ⟨a₂, hchars, hstoring₂, hwriter₂⟩ :=
      hstoring₁.write_writer ((Bytes.cString lpsz).take ((Bytes.cString lpsz).length % uintLimit))
    refine ⟨a₂, ?_, hstoring₂, ?_⟩
    · simp only [call, writeString, writeCount, store_eq_write, encode_count, toNat_count, hcount,
        Option.bind_some, hchars]
    · rw [hwriter₂, hwriter₁]
      rfl
  | flush => exact ⟨a.flush, rfl, h.flush_writer.1, h.flush_writer.2⟩

theorem runCalls_writer (h : a.Storing) (calls : List StoreCall) :
    ∃ a', a.runCalls calls = some a' ∧ a'.Storing ∧
      a'.writer = a.writer.run uintLimit (calls.flatMap StoreCall.ops) := by
  induction calls generalizing a with
  | nil => exact ⟨a, rfl, h, rfl⟩
  | cons c calls ih =>
    obtain ⟨a₁, hcall, hstoring₁, hwriter₁⟩ := call_writer h c
    obtain ⟨a₂, hrun, hstoring₂, hwriter₂⟩ := ih hstoring₁
    refine ⟨a₂, ?_, hstoring₂, ?_⟩
    · rw [runCalls, List.foldlM_cons, hcall]
      exact hrun
    · rw [hwriter₂, hwriter₁, List.flatMap_cons, BufferedWriter.run, BufferedWriter.run,
        BufferedWriter.run, List.foldl_append]

/-! ## The file -/

/-- The encodings of what the calls are given, in order. -/
def encodings (calls : List StoreCall) : List UInt8 :=
  calls.flatMap StoreCall.encoding

/-- `close()` flushes. -/
theorem close_written (h : a.Storing) :
    a.close.file.written = (a.writer.flush uintLimit).written := by
  rw [← h.flush_writer.2]
  rfl

/-- What a call copies is its encoding, unless its string is cut. -/
theorem items_ops {c : StoreCall} (h : c.Counted) : BufferedWriter.items c.ops = c.encoding := by
  cases c with
  | writeString lpsz =>
    have hlen : (Bytes.cString lpsz).length % uintLimit = (Bytes.cString lpsz).length := Nat.mod_eq_of_lt h
    simp [StoreCall.ops, StoreCall.encoding, WriterOp.items, hlen]
  | _ => simp [StoreCall.ops, StoreCall.encoding, WriterOp.items]

/-- A call whose string is cut copies less than its encoding. -/
theorem length_items_ops (c : StoreCall) :
    (BufferedWriter.items c.ops).length ≤ c.encoding.length ∧
      (¬c.Counted → (BufferedWriter.items c.ops).length < c.encoding.length) := by
  by_cases hcounted : c.Counted
  · rw [items_ops hcounted]
    exact ⟨Nat.le_refl _, fun hnot => absurd hcounted hnot⟩
  · cases c with
    | writeString lpsz =>
      have hlong : uintLimit ≤ (Bytes.cString lpsz).length := Nat.not_lt.mp hcounted
      have hmod : (Bytes.cString lpsz).length % uintLimit < uintLimit := Nat.mod_lt _ (by decide)
      simp only [StoreCall.ops, StoreCall.encoding, BufferedWriter.items_cons,
        BufferedWriter.items_nil, WriterOp.items, List.length_append, List.length_take,
        length_toLe, List.append_nil]
      omega
    | _ => exact absurd trivial hcounted

theorem items_flatMap (calls : List StoreCall) (h : ∀ c ∈ calls, c.Counted) :
    BufferedWriter.items (calls.flatMap StoreCall.ops) = encodings calls := by
  induction calls with
  | nil => rfl
  | cons c calls ih =>
    have hrest := ih fun d hd => h d (List.mem_cons_of_mem c hd)
    rw [BufferedWriter.items] at hrest ⊢
    rw [List.flatMap_cons, List.flatMap_append, hrest]
    exact congrArg (· ++ encodings calls) (items_ops (h c List.mem_cons_self))

theorem length_items_flatMap (calls : List StoreCall) :
    (BufferedWriter.items (calls.flatMap StoreCall.ops)).length ≤ (encodings calls).length ∧
      (¬(∀ c ∈ calls, c.Counted) →
        (BufferedWriter.items (calls.flatMap StoreCall.ops)).length < (encodings calls).length) := by
  induction calls with
  | nil => exact ⟨Nat.le_refl _, fun hnot => absurd (by simp) hnot⟩
  | cons c calls ih =>
    obtain ⟨hle, hlt⟩ := ih
    obtain ⟨hle', hlt'⟩ := length_items_ops c
    have hitems : (BufferedWriter.items ((c :: calls).flatMap StoreCall.ops)).length =
        (BufferedWriter.items c.ops).length +
          (BufferedWriter.items (calls.flatMap StoreCall.ops)).length := by
      simp [BufferedWriter.items]
    have hencodings : (encodings (c :: calls)).length = c.encoding.length + (encodings calls).length := by
      simp [encodings]
    rw [hitems, hencodings]
    refine ⟨by omega, fun hnot => ?_⟩
    by_cases hcounted : c.Counted
    · have hrest := hlt fun hall => hnot (List.forall_mem_cons.mpr ⟨hcounted, hall⟩)
      omega
    · have hfirst := hlt' hcounted
      omega

/-- The bytes in the file are the encodings exactly when no write of the buffer is too long and no
    string is cut. -/
theorem written_iff (file : File) (nBufSize : CInt) (calls : List StoreCall) {a : Archive}
    (hrun : (new file .store nBufSize).runCalls calls = some a) :
    a.close.file.written = file.written ++ encodings calls ↔
      BufferedWriter.Fits uintLimit (bufSize nBufSize) 0 (calls.flatMap StoreCall.ops) ∧
        ∀ c ∈ calls, c.Counted := by
  obtain ⟨a', hrun', hstoring, hwriter⟩ := runCalls_writer (storing_new file nBufSize) calls
  obtain rfl : a' = a := Option.some.inj (hrun'.symm.trans hrun)
  have hnew : (new file .store nBufSize).writer = ⟨bufSize nBufSize, [], file.written⟩ := by
    simp [new, writer]
  rw [hnew] at hwriter
  have hclose : a'.close.file.written = ((BufferedWriter.run uintLimit ⟨bufSize nBufSize, [],
      file.written⟩ (calls.flatMap StoreCall.ops)).flush uintLimit).written := by
    rw [close_written hstoring, hwriter]
  have hexact := BufferedWriter.written_run_iff (by decide : 0 < uintLimit)
    ⟨bufSize nBufSize, [], file.written⟩ (calls.flatMap StoreCall.ops)
  rw [← hclose, List.append_nil] at hexact
  by_cases hcounted : ∀ c ∈ calls, c.Counted
  · rw [items_flatMap calls hcounted] at hexact
    rw [and_iff_left hcounted]
    exact hexact
  · -- a cut string makes the file too short
    have hwritten := (BufferedWriter.length_written_run (by decide : 0 < uintLimit)
      ⟨bufSize nBufSize, [], file.written⟩ (calls.flatMap StoreCall.ops)).1
    have hcut := (length_items_flatMap calls).2 hcounted
    rw [← hclose] at hwritten
    refine ⟨fun heq => ?_, fun hcond => absurd hcond.2 hcounted⟩
    rw [heq] at hwritten
    simp only [List.length_append, List.length_nil] at hwritten
    omega

/-- **Buffered storing.** For every buffer size and every sequence of calls, each copy stays inside
    the buffer; the bytes that `close()` leaves in the file are those that were there, followed by
    the encodings in call order, exactly when every string is shorter than 2^32 bytes and fewer than
    2^32 bytes are pending at every flush. -/
theorem stored_iff (file : File) (nBufSize : CInt) (calls : List StoreCall) :
    (∃ a, (new file .store nBufSize).runCalls calls = some a) ∧
      ((∃ a, (new file .store nBufSize).runCalls calls = some a ∧
          a.close.file.written = file.written ++ encodings calls) ↔
        BufferedWriter.Fits uintLimit (bufSize nBufSize) 0 (calls.flatMap StoreCall.ops) ∧
          ∀ c ∈ calls, c.Counted) := by
  obtain ⟨a, hrun, -, -⟩ := runCalls_writer (storing_new file nBufSize) calls
  refine ⟨⟨a, hrun⟩, ?_⟩
  constructor
  · rintro ⟨a', hrun', hwritten⟩
    exact (written_iff file nBufSize calls hrun').mp hwritten
  · intro hcond
    exact ⟨a, hrun, (written_iff file nBufSize calls hrun).mpr hcond⟩

/-- A block of zero bytes that `write` can be given. -/
def zeroBlock (n : ℕ) (hn : n < uintLimit) : { bytes : List UInt8 // bytes.length < uintLimit } :=
  ⟨List.replicate n 0, by rwa [List.length_replicate]⟩

/-- The second of two blocks of half the limit fits behind the first one, which has enlarged the
    buffer to the limit. -/
theorem not_fits_two_blocks {n : ℕ} (hn : n < uintLimit) (hhalf : n + n = uintLimit) :
    ¬BufferedWriter.Fits uintLimit 128 0
      ([.write (zeroBlock n hn), .write (zeroBlock n hn)].flatMap StoreCall.ops) := by
  have hlen : (zeroBlock n hn).val.length = n := List.length_replicate
  have hbig : 128 < n := by
    rw [uintLimit] at hhalf
    omega
  have hfirst : ¬0 + n ≤ 128 := by omega
  have hgrow : BufferedWriter.grow 128 n = n * 2 := if_pos hbig
  have hsecond : n + n ≤ n * 2 := by omega
  simp only [StoreCall.ops, List.flatMap_cons, List.flatMap_nil, List.cons_append, List.nil_append,
    BufferedWriter.Fits, hlen, hfirst, if_false, hgrow]
  rw [if_pos hsecond, hhalf]
  exact fun hfits => Nat.lt_irrefl _ hfits.2

/-- Two blocks of 2^31 bytes are both pending at `close()`, which then writes 2^32 mod 2^32 bytes. -/
theorem stored_counterexample :
    ¬∀ (file : File) (nBufSize : CInt) (calls : List StoreCall),
      ∃ a, (new file .store nBufSize).runCalls calls = some a ∧
        a.close.file.written = file.written ++ encodings calls := by
  intro h
  obtain ⟨n, hn, hhalf⟩ : ∃ n, n < uintLimit ∧ n + n = uintLimit := ⟨2 ^ 31, by decide, by decide⟩
  obtain ⟨a, hrun, hwritten⟩ := h ⟨[], []⟩ ⟨128, by decide⟩
    [.write (zeroBlock n hn), .write (zeroBlock n hn)]
  obtain ⟨hfits, -⟩ := (written_iff _ _ _ hrun).mp hwritten
  exact not_fits_two_blocks hn hhalf hfits

end Archive

end Pdk.Io
