import Pdk.Foundation.Bytes
import Pdk.Foundation.LittleEndian

/-!
# `Archive`

Model of the binary archive of `include/base.hpp` and `src/archive.cpp`. The file behind `m_pFile` is
seen through the bytes that were written to it and those that were not yet read from it:
`File::write` writes all bytes it is given, `File::read` returns as many as are left, at most the
requested number. Integers are copied with `memcpy`, little-endian; `float` and `double` are their
bit patterns.

`buf_cur_`, `buf_fill_` and the buffer's size are `size_t`; the lengths that `File::write` and
`File::read` are called with are cast to `unsigned int`. A copy that would leave the buffer has no
result, and an operation that throws leaves the archive behind as it is at that moment.
-/

namespace Pdk.Io

open Foundation

/-! ## Files -/

structure File where
  written : List UInt8
  unread : List UInt8
  deriving DecidableEq, Repr

namespace File

/-- `write(lpBuf, nCount)`. -/
def write (f : File) (bytes : List UInt8) : File :=
  { f with written := f.written ++ bytes }

/-- `read(lpBuf, nCount)`: the bytes that were read. -/
def read (f : File) (nCount : ℕ) : List UInt8 × File :=
  (f.unread.take nCount, { f with unread := f.unread.drop nCount })

end File

/-! ## Values -/

/-- The values that `operator<<` stores. -/
inductive Scalar where
  | uint8 (b : UInt8)
  | uint16 (w : UInt16)
  | int32 (l : Int32)
  | uint32 (dw : UInt32)
  | float (bits : UInt32)
  | double (bits : UInt64)
  | char (c : UInt8)
  | bool (b : Bool)
  deriving DecidableEq, Repr

/-- The types that `operator>>` loads. -/
inductive ScalarType where
  | uint8 | uint16 | int32 | uint32 | float | double | char | bool
  deriving DecidableEq, Repr

/-- `sizeof` of what is stored: a `char` as a `uint8_t`, a `bool` as an `int32_t`. -/
def ScalarType.size : ScalarType → ℕ
  | .uint8 | .char => 1
  | .uint16 => 2
  | .int32 | .uint32 | .float | .bool => 4
  | .double => 8

/-- The value that `operator>>` makes of the bytes it has copied out of the buffer. -/
def ScalarType.decode (t : ScalarType) (bytes : List UInt8) : Scalar :=
  match t with
  | .uint8 => .uint8 (UInt8.ofNat (ofLe bytes))
  | .uint16 => .uint16 (UInt16.ofNat (ofLe bytes))
  | .int32 => .int32 (UInt32.ofNat (ofLe bytes)).toInt32
  | .uint32 => .uint32 (UInt32.ofNat (ofLe bytes))
  | .float => .float (UInt32.ofNat (ofLe bytes))
  | .double => .double (UInt64.ofNat (ofLe bytes))
  | .char => .char (UInt8.ofNat (ofLe bytes))
  -- `b = (i != 0)`
  | .bool => .bool (decide ((UInt32.ofNat (ofLe bytes)).toInt32 ≠ 0))

namespace Scalar

def type : Scalar → ScalarType
  | uint8 _ => .uint8
  | uint16 _ => .uint16
  | int32 _ => .int32
  | uint32 _ => .uint32
  | float _ => .float
  | double _ => .double
  | char _ => .char
  | bool _ => .bool

/-- The bytes that `operator<<` copies into the buffer. -/
def encode : Scalar → List UInt8
  | uint8 b => toLe 1 b.toNat
  | uint16 w => toLe 2 w.toNat
  | int32 l => toLe 4 l.toUInt32.toNat
  | uint32 dw => toLe 4 dw.toNat
  | float bits => toLe 4 bits.toNat
  | double bits => toLe 8 bits.toNat
  -- `*this << static_cast<uint8_t>(c)`
  | char c => toLe 1 c.toNat
  -- `*this << static_cast<int32_t>(b)`
  | bool b => toLe 4 (if b then 1 else 0)

@[simp]
theorem length_encode (v : Scalar) : v.encode.length = v.type.size := by
  cases v <;> exact length_toLe _ _

/-- What was stored is what is loaded. -/
theorem decode_encode (v : Scalar) : v.type.decode v.encode = v := by
  cases v with
  | uint8 b => simp [type, encode, ScalarType.decode, ofLe_toLe (k := 1) b.toNat_lt]
  | uint16 w => simp [type, encode, ScalarType.decode, ofLe_toLe (k := 2) w.toNat_lt]
  | int32 l => simp [type, encode, ScalarType.decode, ofLe_toLe (k := 4) l.toUInt32.toNat_lt]
  | uint32 dw => simp [type, encode, ScalarType.decode, ofLe_toLe (k := 4) dw.toNat_lt]
  | float bits => simp [type, encode, ScalarType.decode, ofLe_toLe (k := 4) bits.toNat_lt]
  | double bits => simp [type, encode, ScalarType.decode, ofLe_toLe (k := 8) bits.toNat_lt]
  | char c => simp [type, encode, ScalarType.decode, ofLe_toLe (k := 1) c.toNat_lt]
  | bool b => cases b <;> rfl

end Scalar

/-! ## The archive -/

/-- `Archive::Mode`. -/
inductive Mode where
  | store
  | load
  deriving DecidableEq, Repr

structure Archive where
  mode : Mode
  -- the file behind `m_pFile`, and whether `m_pFile` still points to it
  file : File
  attached : Bool
  buf : List UInt8
  bufCur : ℕ
  bufFill : ℕ
  deriving DecidableEq, Repr

/-- The size of the buffer that the constructor allocates. -/
def bufSize (nBufSize : CInt) : ℕ :=
  if nBufSize.val > 128 then nBufSize.val.toNat else 128

/-- The text of the exception that `_ensureRead` throws. -/
def prematureEnd : String :=
  "Archive: premature end of stream"

namespace Archive

/-- `Archive(pFile, nMode, nBufSize)`. -/
def new (file : File) (mode : Mode) (nBufSize : CInt) : Archive :=
  ⟨mode, file, true, List.replicate (bufSize nBufSize) 0, 0, 0⟩

/-- `is_storing()`. -/
def isStoring (a : Archive) : Bool :=
  a.mode = .store

/-- `flush()`. -/
def flush (a : Archive) : Archive :=
  if a.isStoring && decide (a.bufCur > 0) && a.attached then
    { a with file := a.file.write (a.buf.take (a.bufCur % 2 ^ 32)), bufCur := 0 }
  else a

/-- `close()`. -/
def close (a : Archive) : Archive :=
  { a.flush with attached := false }

/-- `fill_buffer()`. -/
def fillBuffer (a : Archive) : Archive :=
  if a.attached then
    let remaining := a.bufFill - a.bufCur
    let shifted := Bytes.overwrite a.buf 0 ((a.buf.drop a.bufCur).take remaining)
    let toRead := a.buf.length - remaining
    let (bytes, file) := a.file.read (toRead % 2 ^ 32)
    { a with
      file := file
      buf := Bytes.overwrite shifted remaining bytes
      bufCur := 0
      bufFill := remaining + bytes.length }
  else a

/-- `_ensureWrite(n)`. -/
def ensureWrite (a : Archive) (n : ℕ) : Archive :=
  if a.bufCur + n > a.buf.length then
    let flushed := a.flush
    if n > flushed.buf.length then { flushed with buf := Bytes.resize flushed.buf (n * 2) }
    else flushed
  else a

/-- `_ensureRead(n)`: whether it returns, and the archive when it does or throws. -/
def ensureRead (a : Archive) (n : ℕ) : Bool × Archive :=
  let filled := if a.bufCur + n > a.bufFill then a.fillBuffer else a
  if filled.bufCur + n > filled.bufFill then (false, filled) else (true, filled)

/-! ## Storing -/

/-- `memcpy(buf_.data() + buf_cur_, pBuf, n); buf_cur_ += n`. -/
def copyIn (a : Archive) (bytes : List UInt8) : Option Archive :=
  if a.bufCur + bytes.length ≤ a.buf.length then
    some { a with
      buf := Bytes.overwrite a.buf a.bufCur bytes
      bufCur := a.bufCur + bytes.length }
  else none

/-- `write(pBuf, nMax)`. -/
def write (a : Archive) (bytes : List UInt8) : Option Archive :=
  (a.ensureWrite bytes.length).copyIn bytes

/-- `operator<<`. -/
def store (a : Archive) (v : Scalar) : Option Archive :=
  (a.ensureWrite v.type.size).copyIn v.encode

/-- `write_count(dwCount)`. -/
def writeCount (a : Archive) (dwCount : UInt32) : Option Archive :=
  a.store (.uint32 dwCount)

/-- `write_string(lpsz)`. -/
def writeString (a : Archive) (lpsz : List UInt8) : Option Archive :=
  let len := UInt32.ofNat (Bytes.cString lpsz).length
  (a.writeCount len).bind fun a => a.write ((Bytes.cString lpsz).take len.toNat)

/-! ## Loading -/

/-- `memcpy(pBuf, buf_.data() + buf_cur_, n); buf_cur_ += n`. -/
def copyOut (a : Archive) (n : ℕ) : List UInt8 × Archive :=
  ((a.buf.drop a.bufCur).take n, { a with bufCur := a.bufCur + n })

/-- `read(pBuf, nMax)`. -/
def read (a : Archive) (nMax : ℕ) : Except String (List UInt8) × Archive :=
  let (returns, filled) := a.ensureRead nMax
  if returns then
    let (bytes, a') := filled.copyOut nMax
    (.ok bytes, a')
  else (.error prematureEnd, filled)

/-- `operator>>`. -/
def load (a : Archive) (t : ScalarType) : Except String Scalar × Archive :=
  let (bytes, a') := a.read t.size
  (bytes.map t.decode, a')

/-- `read_count()`: `operator>>` of a `uint32_t`. -/
def readCount (a : Archive) : Except String UInt32 × Archive :=
  let (bytes, a') := a.read ScalarType.uint32.size
  (bytes.map fun bytes => UInt32.ofNat (ofLe bytes), a')

/-- `read_string(rString)`. -/
def readString (a : Archive) : Except String (List UInt8) × Archive :=
  match a.readCount with
  | (.error e, a') => (.error e, a')
  | (.ok len, a') => if len > 0 then a'.read len.toNat else (.ok [], a')

end Archive

end Pdk.Io
