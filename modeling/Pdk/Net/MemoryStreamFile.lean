import Pdk.Foundation.ByteFile
import Pdk.Net.MemoryStream

/-!
# `MemoryStream` as a random-access file

Every call of a `MemoryStream` does to its buffer and position what it does to a random-access byte
file (`ByteFile`), with the same result. The buffer grows only in `write` and `SetSize`, both fill
with zeros, and `GetSize` puts the position back.

- `FileCall`: the calls, with what they mean for a file (`FileCall.perform`)
- `FileCall.Fits`: the sums of the call do not overflow
- `stream_is_file`: whole sequences of calls
-/

namespace Pdk.Net

open Foundation

/-! ## Calls -/

inductive FileCall where
  | read (n : CInt)
  -- the source holds at least `n` bytes
  | write (n : CInt) (src : { src : List UInt8 // n.val ≤ src.length })
  | seek (offset : CInt) (origin : SeekOrigin)
  | setSize (n : { n : CInt // 0 ≤ n.val })
  | clear
  | getSize

/-- What a call returns: the bytes that were copied out, a number, or nothing. -/
inductive FileResult where
  | bytes (bs : List UInt8)
  | number (n : ℤ)
  | none
  deriving DecidableEq, Repr

namespace FileCall

/-- Where `seek` goes. -/
def target (f : ByteFile) (offset : CInt) : SeekOrigin → ℤ
  | .soBeginning => offset.val
  | .soCurrent => f.pos + offset.val
  | .soEnd => f.size + offset.val

/-- The meaning of a call. -/
def perform (f : ByteFile) : FileCall → FileResult × ByteFile
  | read n => (.bytes (f.read n.val).1, (f.read n.val).2)
  | write n src =>
    (.number (if f.pos < 0 ∨ n.val ≤ 0 then 0 else n.val), f.write (src.val.take n.val.toNat))
  | seek offset origin => (.number (target f offset origin), f.seek (target f offset origin))
  | setSize n => (.none, f.resize n.val.val.toNat)
  | clear => (.none, .empty)
  | getSize => (.number f.size, f)

/-- No sum of the call overflows. -/
def Fits (f : ByteFile) : FileCall → Prop
  | write n _ => 0 ≤ f.pos → 0 < n.val → f.pos + n.val ≤ int32Max
  | seek offset origin =>
    int32Min ≤ target f offset origin ∧ target f offset origin ≤ int32Max
  | _ => True

instance decidableFits (f : ByteFile) : (call : FileCall) → Decidable (call.Fits f)
  | write n _ => inferInstanceAs (Decidable (0 ≤ f.pos → 0 < n.val → f.pos + n.val ≤ int32Max))
  | seek offset origin => inferInstanceAs
      (Decidable (int32Min ≤ target f offset origin ∧ target f offset origin ≤ int32Max))
  | read _ | setSize _ | clear | getSize => inferInstanceAs (Decidable True)

/-- The calls one after the other. -/
def performAll (f : ByteFile) : List FileCall → List FileResult × ByteFile
  | [] => ([], f)
  | call :: calls =>
    let (result, f') := perform f call
    let (results, last) := performAll f' calls
    (result :: results, last)

/-- The sums of all calls, each where the calls before it have left the file. -/
def AllFit (f : ByteFile) : List FileCall → Prop
  | [] => True
  | call :: calls => call.Fits f ∧ AllFit (perform f call).2 calls

instance decidableAllFit : (f : ByteFile) → (calls : List FileCall) → Decidable (AllFit f calls)
  | _, [] => inferInstanceAs (Decidable True)
  | f, call :: calls =>
    have := decidableAllFit (perform f call).2 calls
    inferInstanceAs (Decidable (call.Fits f ∧ AllFit (perform f call).2 calls))

end FileCall

namespace MemoryStream

/-- The calls of the code; there is no result where a sum overflows. -/
def call (s : MemoryStream) : FileCall → Option (FileResult × MemoryStream)
  | .read n => some (.bytes (s.read n.val).1, (s.read n.val).2)
  | .write n src => (s.write src.val n.val).map fun (count, s') => (.number count, s')
  | .seek offset origin => (s.seek offset origin).map fun (pos, s') => (.number pos.val, s')
  | .setSize n => some (.none, s.setSize n.val)
  | .clear => some (.none, s.clear)
  | .getSize => s.getSize.map fun (size, s') => (.number size.val, s')

def callAll (s : MemoryStream) : List FileCall → Option (List FileResult × MemoryStream)
  | [] => some ([], s)
  | c :: calls => do
    let (result, s') ← s.call c
    let (results, last) ← s'.callAll calls
    return (result :: results, last)

/-- The file that a stream stands for. -/
def file (s : MemoryStream) : ByteFile :=
  .ofBytes s.buf s.pos.val

/-! ## One call -/

theorem read_file (s : MemoryStream) (n : ℤ) :
    (s.read n).1 = (s.file.read n).1 ∧ (s.read n).2.file = (s.file.read n).2 := by
  by_cases hnothing : s.pos.val < 0 ∨ n ≤ 0
  · have havailable : s.file.available n = 0 := if_pos hnothing
    rw [read, dif_pos hnothing, ByteFile.read, havailable]
    refine ⟨rfl, ?_⟩
    rw [Int.add_zero]
  · have havailable : s.file.available n = max 0 (min n (s.buf.length - s.pos.val)) :=
      if_neg hnothing
    rw [read, dif_neg hnothing, ByteFile.read, havailable]
    simp only
    split
    · rename_i hend
      have hzero : max 0 (min n ((s.buf.length : ℤ) - s.pos.val)) = 0 := by omega
      rw [hzero]
      refine ⟨rfl, ?_⟩
      rw [Int.add_zero]
    · rename_i hinside
      have hcount : (if n < (s.buf.length : ℤ) - s.pos.val then n else s.buf.length - s.pos.val) =
          max 0 (min n ((s.buf.length : ℤ) - s.pos.val)) := by
        split <;> omega
      simp only [hcount]
      refine ⟨?_, rfl⟩
      exact (ByteFile.read_ofBytes (by omega) _).symm

/-- The buffer that `write` copies into. -/
theorem grown_eq (s : MemoryStream) {newSize : ℕ} :
    (if (newSize : ℤ) > s.buf.length then Bytes.resize s.buf newSize else s.buf) =
      Bytes.resize s.buf (max s.buf.length newSize) := by
  split
  · congr 1
    omega
  · rw [Nat.max_eq_left (by omega), Bytes.resize_of_le (Nat.le_refl _), List.take_length]

theorem write_file (s : MemoryStream) {n : ℤ} {src : List UInt8} (hsrc : n ≤ src.length)
    (hfits : 0 ≤ s.pos.val → 0 < n → s.pos.val + n ≤ int32Max) :
    ∃ s', s.write src n = some (if s.pos.val < 0 ∨ n ≤ 0 then 0 else n, s') ∧
      s'.file = s.file.write (src.take n.toNat) := by
  by_cases hnothing : s.pos.val < 0 ∨ n ≤ 0
  · refine ⟨s, by rw [write, if_pos hnothing, if_pos hnothing], ?_⟩
    have hcase : s.file.pos < 0 ∨ src.take n.toNat = [] := by
      rcases hnothing with hneg | hnil
      · exact .inl hneg
      · exact .inr (by rw [Int.toNat_of_nonpos hnil, List.take_zero])
    rw [ByteFile.write, if_pos hcase]
  · have hpos : 0 ≤ s.pos.val := by omega
    have hn : 0 < n := by omega
    have hbounds : int32Min ≤ s.pos.val + n ∧ s.pos.val + n ≤ int32Max := by
      refine ⟨?_, hfits hpos hn⟩
      simp only [int32Min]
      omega
    have hlen : (src.take n.toNat).length = n.toNat := by
      rw [List.length_take]
      omega
    have hne : src.take n.toNat ≠ [] := by
      rw [← List.length_pos_iff, hlen]
      omega
    have hsize : (s.pos.val + n).toNat = s.pos.val.toNat + (src.take n.toNat).length := by omega
    have hcast : s.pos.val + n = ((s.pos.val + n).toNat : ℤ) := by omega
    rw [write, if_neg hnothing, if_neg (by omega), if_neg hnothing, addInt32_of_bounds hbounds]
    refine ⟨_, rfl, ?_⟩
    rw [file, file, ← ByteFile.ofBytes_overwrite hpos hne]
    simp only
    congr 1
    · rw [← hsize, ← grown_eq, ← hcast]
    · omega

theorem seek_file (s : MemoryStream) (offset : CInt) (origin : SeekOrigin)
    (hfits : int32Min ≤ FileCall.target s.file offset origin ∧
      FileCall.target s.file offset origin ≤ int32Max) :
    ∃ s', s.seek offset origin = some (⟨FileCall.target s.file offset origin, hfits⟩, s') ∧
      s'.file = s.file.seek (FileCall.target s.file offset origin) := by
  cases origin with
  | soBeginning => exact ⟨_, rfl, rfl⟩
  | soCurrent =>
    have hsum : int32Min ≤ s.pos.val + offset.val ∧ s.pos.val + offset.val ≤ int32Max := hfits
    refine ⟨{ s with pos := ⟨_, hsum⟩ }, ?_, rfl⟩
    rw [seek, addInt32_of_bounds hsum]
    rfl
  | soEnd =>
    have hsum : int32Min ≤ s.buf.length + offset.val ∧ s.buf.length + offset.val ≤ int32Max := hfits
    refine ⟨{ s with pos := ⟨_, hsum⟩ }, ?_, rfl⟩
    rw [seek, addInt32_of_bounds hsum]
    rfl

theorem setSize_file (s : MemoryStream) {n : CInt} (hn : 0 ≤ n.val) :
    (s.setSize n).file = s.file.resize n.val.toNat := by
  have hsize : (if n.val > 0 then n.val.toNat else 0) = n.val.toNat := by
    split <;> omega
  have hpos : (s.setSize n).pos.val = min s.pos.val n.val.toNat := by
    simp only [setSize]
    split <;> omega
  rw [file, hpos, file, ← ByteFile.ofBytes_resize]
  simp only [setSize, hsize]

/-- **Each call is the call of the file**: it has a result if its sums fit, and does the same. -/
theorem call_file (s : MemoryStream) (c : FileCall) (hfits : c.Fits s.file) :
    ∃ s', s.call c = some ((c.perform s.file).1, s') ∧ s'.file = (c.perform s.file).2 := by
  cases c with
  | read n =>
    obtain ⟨hbytes, hfile⟩ := s.read_file n.val
    refine ⟨(s.read n.val).2, ?_, hfile⟩
    rw [call, hbytes]
    rfl
  | write n src =>
    obtain ⟨s', hwrite, hfile⟩ := s.write_file src.property hfits
    refine ⟨s', ?_, hfile⟩
    rw [call, hwrite]
    rfl
  | seek offset origin =>
    obtain ⟨s', hseek, hfile⟩ := s.seek_file offset origin hfits
    refine ⟨s', ?_, hfile⟩
    rw [call, hseek]
    rfl
  | setSize n => exact ⟨_, rfl, s.setSize_file n.property⟩
  | clear => exact ⟨_, rfl, by ext1 <;> rfl⟩
  | getSize =>
    refine ⟨s, ?_, rfl⟩
    rw [call, getSize_eq]
    rfl

/-! ## Sequences of calls -/

/-- **A `MemoryStream` is a random-access file**: whatever is done to it, it returns what the file
    returns, and has the size, the position and the contents of the file. -/
theorem stream_is_file (s : MemoryStream) (calls : List FileCall)
    (hfits : FileCall.AllFit s.file calls) :
    ∃ s', s.callAll calls = some ((FileCall.performAll s.file calls).1, s') ∧
      s'.file = (FileCall.performAll s.file calls).2 := by
  induction calls generalizing s with
  | nil => exact ⟨s, rfl, rfl⟩
  | cons c calls ih =>
    obtain ⟨hnow, hlater⟩ := hfits
    obtain ⟨s₁, hcall, hfile⟩ := s.call_file c hnow
    rw [← hfile] at hlater
    obtain ⟨s', hrest, hlast⟩ := ih s₁ hlater
    refine ⟨s', ?_, ?_⟩
    · simp only [callAll, hcall, Option.bind_eq_bind, Option.bind_some, hrest, FileCall.performAll,
        hfile]
      rfl
    · rw [hlast, hfile]
      rfl

/-- Bytes behind a gap, a cut inside them, and a read of what the regrown stream holds. -/
theorem stream_is_file_regrown :
    let calls : List FileCall :=
      [.seek ⟨2, by decide⟩ .soBeginning, .write ⟨3, by decide⟩ ⟨[7, 8, 9], by decide⟩,
        .setSize ⟨⟨4, by decide⟩, by decide⟩, .setSize ⟨⟨6, by decide⟩, by decide⟩,
        .seek ⟨-5, by decide⟩ .soEnd, .read ⟨9, by decide⟩]
    ∃ s', empty.callAll calls = some ([.number 2, .number 3, .none, .none, .number 1,
      .bytes [0, 7, 8, 0, 0]], s') := by
  intro calls
  obtain ⟨s', hcalls, -⟩ := stream_is_file empty calls (by decide)
  exact ⟨s', hcalls⟩

end MemoryStream

end Pdk.Net
