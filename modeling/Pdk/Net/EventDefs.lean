import Pdk.Foundation.Bytes
import Pdk.Foundation.LittleEndian

/-!
# Event packets

Sizes and layout of `include/eventdefs.hpp`. The structures hold 16- and 32-bit members only, so
that no padding is inserted and every size is the sum of the members' sizes.
-/

namespace Pdk.Net

open Foundation

/-- `sizeof(XTMADDR)`: four 16-bit ids and one 32-bit pid. -/
def sizeofXtmAddr : ℕ := 4 * 2 + 4

/-- `sizeof(XTMMSGHDR)`: cookie, length, receiver, sender and six 16-bit members. -/
def sizeofXtmMsgHdr : ℕ := 4 + 4 + 2 * sizeofXtmAddr + 6 * 2

/-- `sizeof(ARSLINE)`: five 16-bit ids and three reserved ones. -/
def sizeofArsLine : ℕ := 5 * 2 + 3 * 2

/-- `MAX_EVENTINFO_SIZE`. -/
def maxEventInfoSize : ℕ := 4 * 1024

/-- `EVENTINFO_HEADER_LENGTH`. -/
def eventInfoHeaderLength : ℕ := sizeofXtmMsgHdr + sizeofArsLine

/-- `MAX_VALUE_SIZE`. -/
def maxValueSize : ℕ := maxEventInfoSize - eventInfoHeaderLength

/-- `sizeof(EVENTINFO)`: header, line and value. -/
def sizeofEventInfo : ℕ := sizeofXtmMsgHdr + sizeofArsLine + maxValueSize

-- the packet fills exactly the space the macros promise
example : sizeofEventInfo = maxEventInfoSize := by decide

/-- Number of bytes of a packet up to and including `h.nMsgLen`: the cookie and the length. -/
def msgLenEnd : ℕ := 4 + 4

/-- Byte `i` read through a pointer to `bytes`. A byte behind the data is whatever `beyond` says
    the memory there holds. -/
def byteAt (beyond : ℕ → UInt8) (bytes : List UInt8) (i : ℕ) : UInt8 :=
  bytes[i]?.getD (beyond i)

theorem byteAt_of_lt {bytes : List UInt8} {i : ℕ} (h : i < bytes.length)
    (beyond beyond' : ℕ → UInt8) (more : List UInt8) :
    byteAt beyond (bytes ++ more) i = byteAt beyond' bytes i := by
  rw [byteAt, byteAt, List.getElem?_append_left h, List.getElem?_eq_getElem h,
    Option.getD_some, Option.getD_some]

theorem byteAt_of_ge {bytes : List UInt8} {i : ℕ} (h : bytes.length ≤ i)
    (beyond : ℕ → UInt8) : byteAt beyond bytes i = beyond i := by
  rw [byteAt, List.getElem?_eq_none h, Option.getD_none]

/-- `h.nMsgLen` read through a `PEVENTINFO` that points to `bytes`, which may be shorter than
    the structure. -/
def nMsgLen (beyond : ℕ → UInt8) (bytes : List UInt8) : CInt :=
  int32Le (byteAt beyond bytes 4) (byteAt beyond bytes 5) (byteAt beyond bytes 6)
    (byteAt beyond bytes 7)

/-- With the first eight bytes there, the length depends neither on the memory behind nor on
    later bytes. -/
theorem nMsgLen_append {bytes : List UInt8} (h : msgLenEnd ≤ bytes.length)
    (beyond beyond' : ℕ → UInt8) (more : List UInt8) :
    nMsgLen beyond (bytes ++ more) = nMsgLen beyond' bytes := by
  simp only [msgLenEnd] at h
  rw [nMsgLen, nMsgLen, byteAt_of_lt (by omega) beyond beyond', byteAt_of_lt (by omega) beyond beyond',
    byteAt_of_lt (by omega) beyond beyond', byteAt_of_lt (by omega) beyond beyond']

theorem nMsgLen_congr {bytes : List UInt8} (h : msgLenEnd ≤ bytes.length)
    (beyond beyond' : ℕ → UInt8) : nMsgLen beyond bytes = nMsgLen beyond' bytes := by
  simpa using nMsgLen_append h beyond beyond' []

/-- With fewer than eight bytes there, the sign of the length comes from the memory behind. -/
theorem nMsgLen_neg_of_short (beyond : ℕ → UInt8) (hb : 128 ≤ (beyond 7).toNat)
    (bytes : List UInt8) (h : bytes.length < msgLenEnd) : (nMsgLen beyond bytes).val < 0 := by
  simp only [msgLenEnd] at h
  rw [nMsgLen, byteAt_of_ge (by omega : bytes.length ≤ 7)]
  exact int32Le_neg hb

/-- The other way round: with a large byte behind the data, fewer than eight bytes read as a length
    beyond every packet. -/
theorem nMsgLen_large_of_short (beyond : ℕ → UInt8) (hb : beyond 7 = 127)
    (bytes : List UInt8) (h : bytes.length < msgLenEnd) :
    (maxEventInfoSize : ℤ) < (nMsgLen beyond bytes).val := by
  simp only [msgLenEnd] at h
  rw [nMsgLen, byteAt_of_ge (by omega : bytes.length ≤ 7), hb]
  calc (maxEventInfoSize : ℤ) < 16777216 * (127 : UInt8).toNat := by decide
    _ ≤ _ := int32Le_large (by decide)

/-! ## Lengths -/

/-- `event_value_length`, of an event whose `h.nMsgLen` is `n`. -/
def eventValueLength (n : ℤ) : ℤ := n - eventInfoHeaderLength

/-- A length that an event can have. -/
def LengthOk (n : ℤ) : Prop :=
  (eventInfoHeaderLength : ℤ) ≤ n ∧ n ≤ maxEventInfoSize

instance (n : ℤ) : Decidable (LengthOk n) := inferInstanceAs (Decidable (_ ∧ _))

/-- It is the length of an event whose value fits into `Value`. -/
theorem lengthOk_iff (n : ℤ) :
    LengthOk n ↔ 0 ≤ eventValueLength n ∧ eventValueLength n ≤ maxValueSize := by
  have hsizes : maxEventInfoSize = eventInfoHeaderLength + maxValueSize := by decide
  simp only [LengthOk, eventValueLength, hsizes]
  omega

/-- `h.nMsgLen = n` in a packet. -/
def setMsgLen (packet : List UInt8) (n : ℕ) : List UInt8 :=
  Bytes.overwrite packet 4 (toLe 4 n)

@[simp]
theorem length_setMsgLen (packet : List UInt8) (n : ℕ) :
    (setMsgLen packet n).length = packet.length := by
  simp [setMsgLen]

theorem byteAt_overwrite (beyond : ℕ → UInt8) {packet src : List UInt8} {off i : ℕ}
    (hlen : off + src.length ≤ packet.length) (hi : i < src.length) :
    byteAt beyond (Bytes.overwrite packet off src) (off + i) = src[i] := by
  have htake : (packet.take off).length = off := by
    rw [List.length_take]
    omega
  rw [byteAt, Bytes.overwrite_eq hlen, List.append_assoc, List.getElem?_append_right (by omega),
    htake, Nat.add_sub_cancel_left, List.getElem?_append_left hi, List.getElem?_eq_getElem hi,
    Option.getD_some]

theorem int32Le_toLe {n : ℕ} (hn : (n : ℤ) ≤ int32Max) :
    (int32Le (UInt8.ofNat n) (UInt8.ofNat (n / 256)) (UInt8.ofNat (n / 256 / 256))
      (UInt8.ofNat (n / 256 / 256 / 256))).val = n := by
  have hbytes := ofLe_toLe (k := 4) (n := n) (by simp only [int32Max] at hn; omega)
  simp only [toLe, ofLe] at hbytes
  rw [int32Le]
  simp only [int32Max] at hn
  split
  · simp only
    omega
  · rename_i hgt
    simp only [int32Max] at hgt
    omega

theorem nMsgLen_setMsgLen (beyond : ℕ → UInt8) {packet : List UInt8} {n : ℕ}
    (hlen : msgLenEnd ≤ packet.length) (hn : (n : ℤ) ≤ int32Max) :
    (nMsgLen beyond (setMsgLen packet n)).val = n := by
  have hbyte : ∀ i (hi : i < (toLe 4 n).length),
      byteAt beyond (setMsgLen packet n) (4 + i) = (toLe 4 n)[i] :=
    fun i hi => byteAt_overwrite beyond (by rw [length_toLe]; exact hlen) hi
  rw [nMsgLen, hbyte 0, hbyte 1, hbyte 2, hbyte 3]
  · exact int32Le_toLe hn
  all_goals
    rw [length_toLe]
    decide

end Pdk.Net
