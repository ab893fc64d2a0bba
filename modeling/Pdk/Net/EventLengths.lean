import Pdk.Net.TcpLengths
import Pdk.Net.UdpServer

/-!
# Event lengths

An `EVENTINFO` gets its length from the wire (`TcpChannel`), from `recvfrom` (`UUdpReceiver`,
`IUdpReceiver`), or from an argument (`add_event` of `QThread` and `UUdpReceiver`). None of these
places checks that it lies between the header and the whole structure. For each of them, the exact
condition on its input is given under which only lengths of events get through.
-/

namespace Pdk.Net

open Foundation
open Pdk.Sync

/-! ## Events that are filled from an argument -/

section

variable {type subtype : ℕ} {pValue : Option (ℕ → UInt8)} {nLen : CInt} {event : EventInfo}

/-- The copy stays inside `Value`, and the length does not overflow. -/
def FitsValue (pValue : Option (ℕ → UInt8)) (nLen : CInt) : Prop :=
  (pValue.isSome = true → nLen.val ≤ maxValueSize) ∧ eventInfoHeaderLength + nLen.val ≤ int32Max

theorem length_copied_le_iff :
    (EventInfo.copied pValue nLen).length ≤ maxValueSize ↔
      (pValue.isSome = true → nLen.val ≤ maxValueSize) := by
  cases pValue with
  | none => simp [EventInfo.copied]
  | some bytes => simp [EventInfo.copied]

theorem length_fill (h : EventInfo.fill type subtype pValue nLen = some event) :
    event.length = eventInfoHeaderLength + nLen.val := by
  unfold EventInfo.fill at h
  split at h
  · cases h
  · obtain ⟨length, hlength, rfl⟩ := Option.map_eq_some_iff.mp h
    exact addInt32_eq_some hlength

theorem fill_defined_iff (type subtype : ℕ) (pValue : Option (ℕ → UInt8)) (nLen : CInt) :
    (∃ event, EventInfo.fill type subtype pValue nLen = some event) ↔ FitsValue pValue nLen := by
  rw [FitsValue, ← length_copied_le_iff]
  unfold EventInfo.fill
  constructor
  · intro ⟨event, h⟩
    split at h
    · cases h
    · rename_i hshort
      obtain ⟨length, hlength, -⟩ := Option.map_eq_some_iff.mp h
      rw [← addInt32_eq_some hlength]
      exact ⟨Nat.not_lt.mp hshort, length.property.2⟩
  · intro ⟨hshort, hmax⟩
    have hmin : int32Min ≤ (eventInfoHeaderLength : ℤ) + nLen.val := by
      have hlow := nLen.property.1
      omega
    rw [if_neg (Nat.not_lt.mpr hshort), addInt32_of_bounds ⟨hmin, hmax⟩]
    exact ⟨_, rfl⟩

/-- An event is filled, and has the length of an event, exactly when `nLen` is the length of a
    value. -/
theorem fill_lengthOk_iff (type subtype : ℕ) (pValue : Option (ℕ → UInt8)) (nLen : CInt) :
    (∃ event, EventInfo.fill type subtype pValue nLen = some event ∧ LengthOk event.length) ↔
      0 ≤ nLen.val ∧ nLen.val ≤ maxValueSize := by
  have hsizes : maxEventInfoSize = eventInfoHeaderLength + maxValueSize := by decide
  have hmax : (eventInfoHeaderLength + maxValueSize : ℤ) ≤ int32Max := by decide
  constructor
  · rintro ⟨event, hfill, hok⟩
    rw [length_fill hfill, LengthOk, hsizes] at hok
    omega
  · rintro ⟨hnonneg, hle⟩
    have hfits : FitsValue pValue nLen := ⟨fun _ => hle, by omega⟩
    obtain ⟨event, hfill⟩ := (fill_defined_iff type subtype pValue nLen).mpr hfits
    refine ⟨event, hfill, ?_⟩
    rw [length_fill hfill, LengthOk, hsizes]
    omega

end

/-! ## `QThread::add_event` -/

/-- The queue takes another event. -/
def HasRoom (t : QThread) : Prop :=
  t.queue.closed = false ∧ (t.queue.q.length : ℤ) < t.queue.max

/-- The call has a result, and what it has enqueued has the length of an event. -/
def EnqueuesOk (t : QThread) (result : Option (Bool × QThread)) : Prop :=
  ∃ accepted t', result = some (accepted, t') ∧
    (accepted = true → ∃ event, t'.queue.q = t.queue.q ++ [event] ∧ LengthOk event.length)

theorem enqueuesOk_add (t : QThread) (event : EventInfo) :
    EnqueuesOk t (some (t.add event)) ↔ (HasRoom t → LengthOk event.length) := by
  rcases Queue.put_cases t.queue event with ⟨hput, hopen, hroom⟩ | ⟨hput, hwhy⟩
  · have hadd : t.add event = (true, { t with queue := { t.queue with q := t.queue.q ++ [event] } }) := by
      simp [QThread.add, hput]
    rw [hadd]
    constructor
    · rintro ⟨accepted, t', ⟨⟩, hok⟩ _
      obtain ⟨event', hqueue, hlength⟩ := hok rfl
      obtain rfl : event = event' := by simpa using hqueue
      exact hlength
    · intro hlength
      exact ⟨true, _, rfl, fun _ => ⟨event, rfl, hlength ⟨hopen, hroom⟩⟩⟩
  · have hadd : t.add event = (false, t) := by simp [QThread.add, hput]
    rw [hadd]
    refine iff_of_true ⟨false, t, rfl, nofun⟩ ?_
    intro ⟨hopen, hroom⟩
    rcases hwhy with hclosed | hfull
    · rw [hopen] at hclosed
      cases hclosed
    · omega

theorem enqueuesOk_addEvent_iff (t : QThread) (type subtype : ℕ) (pValue : Option (ℕ → UInt8))
    (nLen : CInt) :
    EnqueuesOk t (t.addEvent type subtype pValue nLen) ↔
      FitsValue pValue nLen ∧ (HasRoom t → 0 ≤ nLen.val ∧ nLen.val ≤ maxValueSize) := by
  rw [← fill_defined_iff type subtype, ← fill_lengthOk_iff type subtype pValue, QThread.addEvent]
  cases hfill : EventInfo.fill type subtype pValue nLen with
  | none =>
    refine iff_of_false ?_ ?_
    · rintro ⟨accepted, t', hnone, -⟩
      cases hnone
    · rintro ⟨⟨event, hnone⟩, -⟩
      cases hnone
  | some event =>
    rw [Option.map_some, enqueuesOk_add]
    simp

/-- The overload for one 32-bit value never enqueues another length. -/
theorem enqueuesOk_addEventValue (t : QThread) (type subtype : ℕ) (value : UInt32) :
    EnqueuesOk t (some (t.addEventValue type subtype value)) := by
  refine (enqueuesOk_add t _).mpr fun _ => ?_
  show LengthOk (eventInfoHeaderLength + (toLe 4 value.toNat).length)
  rw [length_toLe]
  decide

/-! ## All entry points -/

/-- **When only lengths of events are accepted**, for every entry point.

    On a TCP connection: exactly when every packet has the length of an event, as far as its length
    is not illegal, and no chunk ends inside the bytes up to the length. Of the UDP receivers: exactly
    when no datagram is shorter than a header. Of `add_event`: exactly when `nLen` is the length of a
    value; when the queue is full, it is enough that the copy fits. -/
theorem event_lengths_iff (chunks : List (List UInt8))
    (hchunks : ∀ c ∈ chunks, 1 ≤ c.length ∧ c.length ≤ sizeofEventInfo) (cb : Callback)
    (acts : List UdpAct) (r : UdpReceiver)
    (hrun : (UUdpReceiver.machine (some cb)).run UdpReceiver.start acts = some r ∨
      (IUdpReceiver.machine (some cb)).run UdpReceiver.start acts = some r)
    (t : QThread) (type subtype : ℕ) (pValue : Option (ℕ → UInt8)) (nLen : CInt)
    (value : UInt32) :
    (TcpChannel.SoundLengths chunks ↔ TcpChannel.ProperChunks chunks) ∧
    ((∀ packet ∈ r.delivered, LengthOk (nMsgLen (fun _ => 0) packet).val) ↔
      ∀ datagram, .recv datagram ∈ acts →
        datagram = [] ∨ eventInfoHeaderLength ≤ datagram.length) ∧
    ((∃ event, UUdpReceiver.addEvent pValue nLen = some event ∧ LengthOk event.length) ↔
      0 ≤ nLen.val ∧ nLen.val ≤ maxValueSize) ∧
    (EnqueuesOk t (t.addEvent type subtype pValue nLen) ↔
      FitsValue pValue nLen ∧ (HasRoom t → 0 ≤ nLen.val ∧ nLen.val ≤ maxValueSize)) ∧
    EnqueuesOk t (some (t.addEventValue type subtype value)) := by
  refine ⟨TcpChannel.soundLengths_iff hchunks, ?_, fill_lengthOk_iff 1 2 pValue nLen,
    enqueuesOk_addEvent_iff t type subtype pValue nLen, enqueuesOk_addEventValue t type subtype value⟩
  rcases hrun with hunix | hinet
  · exact UdpReceiver.delivered_lengthOk_iff hunix
  · exact UdpReceiver.delivered_lengthOk_iff hinet

/-- An event without a value. -/
def emptyEvent : List UInt8 :=
  [0, 0, 0, 0, 60, 0, 0, 0] ++ List.replicate 52 0

/-- It is accepted from a connection, and so is its length as an argument. -/
theorem event_lengths_empty_event :
    TcpChannel.SoundLengths [emptyEvent] ∧
      (∃ event, UUdpReceiver.addEvent none ⟨0, by decide⟩ = some event ∧ LengthOk event.length) ∧
      EnqueuesOk (.new 32) ((QThread.new 32).addEvent 0 0 none ⟨0, by decide⟩) := by
  have hframe : reference.frames emptyEvent = ⟨[emptyEvent], some []⟩ := by
    rw [Framer.frames_packet (n := 60) (by decide), show emptyEvent.drop 60 = [] from rfl,
      reference_nil]
    rfl
  obtain ⟨hsound, -, hfill, hadd, -⟩ := event_lengths_iff [emptyEvent] (by decide) .readOnly []
    UdpReceiver.start (.inl rfl) (.new 32) 0 0 none ⟨0, by decide⟩ 0
  refine ⟨hsound.mpr ?_, hfill.mpr (by decide),
    hadd.mpr ⟨⟨nofun, by decide⟩, fun _ => by decide⟩⟩
  intro cs hcs
  rcases List.prefix_cons_iff.mp hcs with rfl | ⟨rest, rfl, hrest⟩
  · exact TcpChannel.properFraming_nil
  · rw [List.prefix_nil.mp hrest, List.flatten_singleton]
    constructor
    · rw [hframe]
      intro packet hpacket
      rw [List.mem_singleton.mp hpacket]
      decide
    · rw [hframe]
      rintro r ⟨⟩
      exact .inl rfl

/-- A packet of one byte is delivered from a connection, a datagram of one byte by a receiver, and
    `add_event` enqueues a negative length and copies over the end of `Value`. -/
theorem not_event_lengths :
    ¬TcpChannel.SoundLengths [[0, 0, 0, 0, 1, 0, 0, 0]] ∧
      (∃ r, (UUdpReceiver.machine (some .readOnly)).run UdpReceiver.start [.recv [7]] = some r ∧
        ¬∀ packet ∈ r.delivered, LengthOk (nMsgLen (fun _ => 0) packet).val) ∧
      ¬EnqueuesOk (.new 32) ((QThread.new 32).addEvent 0 0 none ⟨-1, by decide⟩) ∧
      (QThread.new 32).addEvent 0 0 (some fun _ => 7) ⟨4097, by decide⟩ = none := by
  refine ⟨?_, ?_, ?_, ?_⟩
  · intro hsound
    have hproper := (TcpChannel.soundLengths_iff (by decide)).mp hsound _ (List.prefix_refl _)
    have hpacket := hproper.packets [0]
    rw [show [[0, 0, 0, 0, 1, 0, 0, (0 : UInt8)]].flatten = [0, 0, 0, 0, 1, 0, 0, 0] from rfl,
      Framer.frames_packet (n := 1) (by decide)] at hpacket
    exact absurd (hpacket (by simp)) (by decide)
  · have hrun : (UdpReceiver.machine retryCount (some .readOnly)).run UdpReceiver.start
        [.recv [7]] = some _ := rfl
    refine ⟨_, hrun, ?_⟩
    rw [UdpReceiver.delivered_lengthOk_iff hrun]
    intro hlong
    exact absurd (hlong [7] (List.mem_singleton_self _)) (by decide)
  · rw [enqueuesOk_addEvent_iff]
    intro ⟨_, hroom⟩
    exact absurd (hroom ⟨rfl, by decide⟩) (by decide)
  · have hlong : maxValueSize < (EventInfo.copied (some fun _ => 7) ⟨4097, by decide⟩).length := by
      rw [EventInfo.copied, List.length_map, List.length_range]
      decide
    rw [QThread.addEvent, EventInfo.fill, if_pos hlong]
    rfl

end Pdk.Net
