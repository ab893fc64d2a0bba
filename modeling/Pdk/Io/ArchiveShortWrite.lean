import Pdk.Foundation.ShortWriter
import Pdk.Io.ArchiveStore

/-!
# Storing into a file that takes less

`File::write` returns the number of bytes that `::write` has taken, 0 when it failed. `flush()` does
not look at this number: it sets `buf_cur_` to 0, and the bytes that were not taken are gone. The
archive here is the one of `Archive`, over a file whose writes take what a list of outcomes says. It
is a buffered writer over a device that takes less (`writer`), so that the file and the buffer hold
everything stored exactly as long as every write is taken as a whole.
-/

namespace Pdk.Io

open Foundation

/-- An archive and the number of bytes that the next writes of its file take at most. -/
structure ShortArchive where
  archive : Archive
  accepts : List ℕ
  deriving DecidableEq, Repr

namespace ShortArchive

/-- `Archive(pFile, store, nBufSize)`. -/
def new (file : File) (nBufSize : CInt) (accepts : List ℕ) : ShortArchive :=
  ⟨Archive.new file .store nBufSize, accepts⟩

/-- What `File::write` returns for `nCount` bytes. -/
def accepted (s : ShortArchive) (nCount : ℕ) : ℕ :=
  min (s.accepts.headD nCount) nCount

/-- `flush()`. -/
def flush (s : ShortArchive) : ShortArchive :=
  if s.archive.isStoring && decide (s.archive.bufCur > 0) && s.archive.attached then
    let nCount := s.archive.bufCur % 2 ^ 32
    { archive := { s.archive with
        file := s.archive.file.write (s.archive.buf.take (s.accepted nCount))
        -- whatever `File::write` has returned
        bufCur := 0 }
      accepts := s.accepts.tail }
  else s

/-- `close()`. -/
def close (s : ShortArchive) : ShortArchive :=
  { s.flush with archive := { s.flush.archive with attached := false } }

/-- `_ensureWrite(n)`. -/
def ensureWrite (s : ShortArchive) (n : ℕ) : ShortArchive :=
  if s.archive.bufCur + n > s.archive.buf.length then
    let flushed := s.flush
    if n > flushed.archive.buf.length then
      { flushed with
        archive := { flushed.archive with buf := Bytes.resize flushed.archive.buf (n * 2) } }
    else flushed
  else s

/-- `memcpy(buf_.data() + buf_cur_, pBuf, n); buf_cur_ += n`. -/
def copyIn (s : ShortArchive) (bytes : List UInt8) : Option ShortArchive :=
  (s.archive.copyIn bytes).map fun archive => { s with archive := archive }

/-- `write(pBuf, nMax)`. -/
def write (s : ShortArchive) (bytes : List UInt8) : Option ShortArchive :=
  (s.ensureWrite bytes.length).copyIn bytes

/-- `operator<<`. -/
def store (s : ShortArchive) (v : Scalar) : Option ShortArchive :=
  (s.ensureWrite v.type.size).copyIn v.encode

/-- `write_count(dwCount)`. -/
def writeCount (s : ShortArchive) (dwCount : UInt32) : Option ShortArchive :=
  s.store (.uint32 dwCount)

/-- `write_string(lpsz)`. -/
def writeString (s : ShortArchive) (lpsz : List UInt8) : Option ShortArchive :=
  let len := UInt32.ofNat (Bytes.cString lpsz).length
  (s.writeCount len).bind fun s => s.write ((Bytes.cString lpsz).take len.toNat)

def call (s : ShortArchive) : StoreCall → Option ShortArchive
  | .store v => s.store v
  | .write bytes => s.write bytes.val
  | .writeCount dwCount => s.writeCount dwCount
  | .writeString lpsz => s.writeString lpsz
  | .flush => some s.flush

def runCalls (s : ShortArchive) (calls : List StoreCall) : Option ShortArchive :=
  calls.foldlM call s

/-- The bytes that the file has taken, followed by those that are still in the buffer. -/
def kept (s : ShortArchive) : List UInt8 :=
  s.archive.file.written ++ s.archive.buf.take s.archive.bufCur

/-! ## The archive as a buffered writer -/

def writer (s : ShortArchive) : ShortWriter UInt8 :=
  ⟨s.archive.writer.size, s.archive.writer.pending, s.archive.writer.written, s.accepts⟩

@[simp]
theorem content_writer (s : ShortArchive) : s.writer.content = s.kept := rfl

variable {s : ShortArchive}

/-- `flush()` empties the buffer, whatever the file takes of it. -/
theorem flush_eq (h : s.archive.Storing) :
    s.flush =
      ⟨{ s.archive with
          file := s.archive.file.write (s.archive.buf.take (s.accepted (s.archive.bufCur % uintLimit)))
          bufCur := 0 },
        ShortWriter.rest s.accepts s.archive.bufCur⟩ := by
  unfold flush
  by_cases hcur : s.archive.bufCur > 0
  · have hrest : ShortWriter.rest s.accepts s.archive.bufCur = s.accepts.tail :=
      if_neg (Nat.ne_of_gt hcur)
    simp [Archive.isStoring, h.mode, h.attached, hcur, uintLimit, hrest]
  · -- with nothing pending, `File::write` is not called
    have hzero : s.archive.bufCur = 0 := Nat.eq_zero_of_not_pos hcur
    have hnone : s.accepted 0 = 0 := Nat.min_zero _
    have hwrite : s.archive.file.write [] = s.archive.file := by simp [File.write]
    simp only [hzero, gt_iff_lt, Nat.lt_irrefl, decide_false, Bool.and_false, Bool.false_and,
      Bool.false_eq_true, if_false, Nat.zero_mod, hnone, List.take_zero, hwrite]
    obtain ⟨archive, accepts⟩ := s
    cases archive
    cases hzero
    rfl

/-- **`flush()` is a flush.** -/
theorem flush_writer (h : s.archive.Storing) :
    s.flush.archive.Storing ∧ s.flush.writer = s.writer.flush uintLimit := by
  have hlen : s.writer.pending.length = s.archive.bufCur := h.length_pending
  have htakes : s.accepted (s.archive.bufCur % uintLimit) =
      ShortWriter.takes uintLimit s.accepts s.archive.bufCur := rfl
  have hle := ShortWriter.takes_le uintLimit s.accepts s.archive.bufCur
  rw [flush_eq h, htakes]
  refine ⟨⟨h.mode, h.attached, Nat.zero_le _⟩, ?_⟩
  rw [ShortWriter.flush, hlen]
  simp only [writer, Archive.writer, File.write, List.take_zero, List.take_take, Nat.min_eq_left hle]

theorem copyIn_writer (h : s.archive.Storing) (bytes : List UInt8)
    (hroom : s.archive.bufCur + bytes.length ≤ s.archive.buf.length) :
    ∃ s', s.copyIn bytes = some s' ∧ s'.archive.Storing ∧
      s'.writer = { s.writer with pending := s.writer.pending ++ bytes } := by
  obtain ⟨archive, hcopy, hstoring, hwriter⟩ := h.copyIn_writer bytes hroom
  refine ⟨{ s with archive := archive }, by rw [copyIn, hcopy]; rfl, hstoring, ?_⟩
  rw [writer, hwriter]
  rfl

/-- **A block is a block**, as over a file that takes everything. -/
theorem write_writer (h : s.archive.Storing) (bytes : List UInt8) :
    ∃ s', s.write bytes = some s' ∧ s'.archive.Storing ∧
      s'.writer = s.writer.apply uintLimit (.block bytes) := by
  have hlen : s.writer.pending.length = s.archive.bufCur := h.length_pending
  have hsize : s.writer.size = s.archive.buf.length := rfl
  by_cases hroom : s.archive.bufCur + bytes.length ≤ s.archive.buf.length
  · have hensure : s.ensureWrite bytes.length = s := if_neg (Nat.not_lt.mpr hroom)
    obtain ⟨s', hcopy, hstoring, hwriter⟩ := copyIn_writer h bytes hroom
    refine ⟨s', by rw [write, hensure, hcopy], hstoring, ?_⟩
    rw [hwriter, ShortWriter.apply, hlen, hsize, if_pos hroom]
    rfl
  · obtain ⟨hflushed, hflush⟩ := flush_writer h
    have hcur : s.flush.archive.bufCur = 0 := by rw [flush_eq h]
    have hbuf : s.flush.archive.buf = s.archive.buf := by rw [flush_eq h]
    obtain ⟨archive, hcopy, hstoring, hwriter⟩ := hflushed.refill_writer hcur bytes
    have hensure : s.ensureWrite bytes.length =
        ⟨if bytes.length > s.flush.archive.buf.length then
          { s.flush.archive with buf := Bytes.resize s.flush.archive.buf (bytes.length * 2) }
          else s.flush.archive, s.flush.accepts⟩ := by
      rw [ensureWrite, if_pos (Nat.not_le.mp hroom)]
      simp only
      split <;> rfl
    refine ⟨⟨archive, s.flush.accepts⟩, ?_, hstoring, ?_⟩
    · rw [write, hensure, copyIn, hcopy]
      rfl
    · rw [ShortWriter.apply, hlen, hsize, if_neg hroom, ← hflush, writer, hwriter, hbuf]
      rfl

/-! ## Calls as operations of the writer -/

theorem store_eq_write (s : ShortArchive) (v : Scalar) : s.store v = s.write v.encode := by
  rw [store, write, Scalar.length_encode]

theorem call_writer (h : s.archive.Storing) (c : StoreCall) :
    ∃ s', s.call c = some s' ∧ s'.archive.Storing ∧ s'.writer = s.writer.run uintLimit c.ops := by
  cases c with
  | store v =>
    simp only [call, store_eq_write]
    exact write_writer h v.encode
  | write bytes => exact write_writer h bytes.val
  | writeCount dwCount =>
    simp only [call, writeCount, store_eq_write]
    exact write_writer h _
  | writeString lpsz =>
    obtain ⟨s₁, hcount, hstoring₁, hwriter₁⟩ := write_writer h (toLe 4 (Bytes.cString lpsz).length)
    obtain ⟨s₂, hchars, hstoring₂, hwriter₂⟩ := write_writer hstoring₁
      ((Bytes.cString lpsz).take ((Bytes.cString lpsz).length % uintLimit))
    refine ⟨s₂, ?_, hstoring₂, ?_⟩
    · simp only [call, writeString, writeCount, store_eq_write, Archive.encode_count,
        Archive.toNat_count, hcount, Option.bind_some, hchars]
    · rw [hwriter₂, hwriter₁]
      rfl
  | flush => exact ⟨s.flush, rfl, (flush_writer h).1, (flush_writer h).2⟩

theorem runCalls_writer (h : s.archive.Storing) (calls : List StoreCall) :
    ∃ s', s.runCalls calls = some s' ∧ s'.archive.Storing ∧
      s'.writer = s.writer.run uintLimit (calls.flatMap StoreCall.ops) := by
  induction calls generalizing s with
  | nil => exact ⟨s, rfl, h, rfl⟩
  | cons c calls ih =>
    obtain ⟨s₁, hcall, hstoring₁, hwriter₁⟩ := call_writer h c
    obtain ⟨s₂, hrun, hstoring₂, hwriter₂⟩ := ih hstoring₁
    refine ⟨s₂, ?_, hstoring₂, ?_⟩
    · rw [runCalls, List.foldlM_cons, hcall]
      exact hrun
    · rw [hwriter₂, hwriter₁, List.flatMap_cons, ShortWriter.run_append]

/-! ## Nothing is dropped -/

theorem kept_close (h : s.archive.Storing) : s.close.kept = (s.writer.flush uintLimit).content := by
  rw [← (flush_writer h).2]
  rfl

/-- What a writer holds after operations that copy the encodings of the calls. -/
theorem content_iff (b : ShortWriter UInt8) (calls : List StoreCall) (ops : List (WriterOp UInt8))
    (hops : BufferedWriter.items ops = BufferedWriter.items (calls.flatMap StoreCall.ops)) :
    (b.run uintLimit ops).content = b.content ++ Archive.encodings calls ↔
      ShortWriter.Accepted uintLimit b.size b.pending.length b.outcomes ops ∧
        ∀ c ∈ calls, c.Counted := by
  by_cases hcounted : ∀ c ∈ calls, c.Counted
  · rw [and_iff_left hcounted, ← Archive.items_flatMap calls hcounted, ← hops]
    exact ShortWriter.content_run_iff b ops
  · -- a cut string is shorter than its encoding
    have hcut := (Archive.length_items_flatMap calls).2 hcounted
    have hlen := (ShortWriter.length_content_run uintLimit b ops).1
    refine ⟨fun heq => ?_, fun hcond => absurd hcond.2 hcounted⟩
    rw [heq, hops, List.length_append] at hlen
    omega

theorem writer_new (file : File) (nBufSize : CInt) (accepts : List ℕ) :
    (new file nBufSize accepts).writer = ⟨bufSize nBufSize, [], file.written, accepts⟩ := by
  simp [new, writer, Archive.new, Archive.writer]

/-- After the calls. -/
theorem kept_iff (file : File) (nBufSize : CInt) (accepts : List ℕ) (calls : List StoreCall)
    {s : ShortArchive} (hrun : (new file nBufSize accepts).runCalls calls = some s) :
    (s.kept = file.written ++ Archive.encodings calls ↔
        ShortWriter.Accepted uintLimit (bufSize nBufSize) 0 accepts (calls.flatMap StoreCall.ops) ∧
          ∀ c ∈ calls, c.Counted) ∧
      (s.close.kept = file.written ++ Archive.encodings calls ↔
        ShortWriter.Accepted uintLimit (bufSize nBufSize) 0 accepts
            (calls.flatMap StoreCall.ops ++ [.flush]) ∧
          ∀ c ∈ calls, c.Counted) := by
  obtain ⟨s', hrun', hstoring, hwriter⟩ := runCalls_writer
    (s := new file nBufSize accepts) (Archive.storing_new file nBufSize) calls
  obtain rfl : s' = s := Option.some.inj (hrun'.symm.trans hrun)
  rw [writer_new] at hwriter
  have hcontent : ShortWriter.content ⟨bufSize nBufSize, [], file.written, accepts⟩ = file.written :=
    List.append_nil _
  constructor
  · have hiff := content_iff ⟨bufSize nBufSize, [], file.written, accepts⟩ calls _ rfl
    rw [← hwriter, content_writer, hcontent] at hiff
    exact hiff
  · have hiff := content_iff ⟨bufSize nBufSize, [], file.written, accepts⟩ calls
      (calls.flatMap StoreCall.ops ++ [.flush]) (by simp [BufferedWriter.items, WriterOp.items])
    rw [ShortWriter.run_append, ← hwriter, hcontent] at hiff
    rw [kept_close hstoring]
    exact hiff

/-- **Short writes.** For every buffer size, every sequence of calls and every file, each call
    returns. At every point the bytes that the file has taken and those in the buffer are the
    encodings of what was stored so far, exactly when every write of the calls is taken as a whole
    and every string is shorter than 2^32 bytes; they are so after `close()`, too, exactly when its
    write is also taken as a whole. -/
theorem short_write_iff (file : File) (nBufSize : CInt) (accepts : List ℕ) (calls : List StoreCall) :
    (∃ s, (new file nBufSize accepts).runCalls calls = some s) ∧
      ((∀ before after s, calls = before ++ after →
          (new file nBufSize accepts).runCalls before = some s →
          s.kept = file.written ++ Archive.encodings before) ↔
        ShortWriter.Accepted uintLimit (bufSize nBufSize) 0 accepts (calls.flatMap StoreCall.ops) ∧
          ∀ c ∈ calls, c.Counted) ∧
      ((∀ s, (new file nBufSize accepts).runCalls calls = some s →
          s.close.kept = file.written ++ Archive.encodings calls) ↔
        ShortWriter.Accepted uintLimit (bufSize nBufSize) 0 accepts
            (calls.flatMap StoreCall.ops ++ [.flush]) ∧
          ∀ c ∈ calls, c.Counted) := by
  obtain ⟨s, hrun, -, -⟩ := runCalls_writer
    (s := new file nBufSize accepts) (Archive.storing_new file nBufSize) calls
  refine ⟨⟨s, hrun⟩, ⟨fun hall => ?_, fun hcond before after s' hsplit hrun' => ?_⟩,
    fun hall => ?_, fun hcond s' hrun' => ?_⟩
  · exact (kept_iff file nBufSize accepts calls hrun).1.mp
      (hall calls [] s (List.append_nil _).symm hrun)
  · refine (kept_iff file nBufSize accepts before hrun').1.mpr ⟨?_, fun c hc => ?_⟩
    · have hall := hcond.1
      rw [hsplit, List.flatMap_append] at hall
      exact hall.of_append
    · exact hcond.2 c (hsplit ▸ List.mem_append_left after hc)
  · exact (kept_iff file nBufSize accepts calls hrun).2.mp (hall s hrun)
  · exact (kept_iff file nBufSize accepts calls hrun').2.mpr hcond

/-- A byte is stored and flushed into a file whose `write` fails. -/
theorem short_write_counterexample :
    ¬∀ (file : File) (nBufSize : CInt) (accepts : List ℕ) (calls : List StoreCall)
      (before after : List StoreCall) (s : ShortArchive), calls = before ++ after →
        (new file nBufSize accepts).runCalls before = some s →
        s.kept = file.written ++ Archive.encodings before := by
  intro h
  obtain ⟨s, hrun, -, -⟩ := runCalls_writer (s := new ⟨[], []⟩ ⟨128, by decide⟩ [0])
    (Archive.storing_new _ _) [.store (.uint8 7), .flush]
  have hkept := h _ _ _ _ _ [] s (List.append_nil _).symm hrun
  obtain ⟨haccepted, -⟩ := (kept_iff _ _ _ _ hrun).1.mp hkept
  have htakes : ShortWriter.takes uintLimit [0] 1 = 0 := by decide
  simp [StoreCall.ops, ShortWriter.Accepted, Scalar.type, ScalarType.size, bufSize, htakes]
    at haccepted

end ShortArchive

end Pdk.Io
