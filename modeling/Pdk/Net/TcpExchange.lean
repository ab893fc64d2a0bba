import Pdk.Net.TcpReassembly

/-!
# Events over a connection

`TcpChannel::send` in `src/tcpserver.cpp` calls `send` once and returns how many bytes it has taken,
which may be fewer than there are. The receive thread at the other end cuts the stream into events.
If no header is cut there, all events arrive as they were sent exactly if every call of `send` took
all of its bytes (`exchange_complete_iff`): one that did not shifts everything behind it.
-/

namespace Pdk.Net

open Foundation

/-- A call of `TcpChannel::send`, with the number of bytes that `sock_->send` has taken. -/
structure SendCall where
  buffer : List UInt8
  nCount : ℕ
  count_le : nCount ≤ buffer.length

namespace SendCall

/-- What is on the wire behind some calls. -/
def wire (calls : List SendCall) : List UInt8 :=
  (calls.map fun call => call.buffer.take call.nCount).flatten

/-- All bytes of the call are taken. -/
def Complete (call : SendCall) : Prop := call.nCount = call.buffer.length

/-- The buffer is an event that carries its length. -/
def IsEvent (call : SendCall) : Prop :=
  msgLenEnd ≤ call.buffer.length ∧ (nMsgLen (fun _ => 0) call.buffer).val = call.buffer.length

instance (call : SendCall) : Decidable call.Complete :=
  inferInstanceAs (Decidable (_ = _))

instance (call : SendCall) : Decidable call.IsEvent :=
  inferInstanceAs (Decidable (_ ∧ _))

theorem wire_cons (call : SendCall) (calls : List SendCall) :
    wire (call :: calls) = call.buffer.take call.nCount ++ wire calls := by
  simp [wire]

theorem length_wire_le (calls : List SendCall) :
    (wire calls).length ≤ (calls.map buffer).flatten.length := by
  induction calls with
  | nil => exact Nat.le_refl _
  | cons call calls ih =>
    have hle := call.count_le
    rw [wire_cons, List.map_cons, List.flatten_cons, List.length_append, List.length_append,
      List.length_take]
    omega

/-- No byte is missing exactly if no call is incomplete. -/
theorem length_wire_iff (calls : List SendCall) :
    (calls.map buffer).flatten.length ≤ (wire calls).length ↔ ∀ call ∈ calls, call.Complete := by
  induction calls with
  | nil => exact ⟨fun _ call hcall => (by cases hcall), fun _ => Nat.le_refl _⟩
  | cons call calls ih =>
    have hle := call.count_le
    have hrest := length_wire_le calls
    rw [List.forall_mem_cons, ← ih, wire_cons, List.map_cons, List.flatten_cons, List.length_append,
      List.length_append, List.length_take, Complete]
    omega

theorem wire_of_complete {calls : List SendCall} (h : ∀ call ∈ calls, call.Complete) :
    wire calls = (calls.map buffer).flatten := by
  rw [wire]
  congr 1
  refine List.map_inj_left.mpr fun call hcall => ?_
  rw [h call hcall, List.take_length]

/-- The reference framing finds an event that stands in front. -/
theorem IsEvent.verdict {call : SendCall} (h : call.IsEvent) (more : List UInt8) :
    reference.verdict (call.buffer ++ more) = .packet call.buffer.length := by
  obtain ⟨hlong, hlen⟩ := h
  have hpos : 1 ≤ call.buffer.length := Nat.le_trans (by decide) hlong
  have hmore : msgLenEnd ≤ (call.buffer ++ more).length := by
    rw [List.length_append]
    omega
  rw [reference_long hmore (fun _ => 0), nMsgLen_append hlong _ (fun _ => 0), hlen,
    if_neg (by omega), if_neg (by rw [List.length_append]; omega), Int.toNat_natCast]

theorem frames_events {calls : List SendCall} (h : ∀ call ∈ calls, call.IsEvent) :
    reference.frames (calls.map buffer).flatten = ⟨calls.map buffer, some []⟩ := by
  refine Framer.frames_flatten (fun p hp more => ?_) (reference_short (by decide))
  obtain ⟨call, hcall, rfl⟩ := List.mem_map.mp hp
  exact (h call hcall).verdict more

/-- The receiver can follow a stream that comes event by event. -/
theorem uncut_of_events {calls : List SendCall} (h : ∀ call ∈ calls, call.IsEvent) :
    TcpChannel.HeadersUncut (calls.map buffer) ∧ TcpChannel.SizesFit (calls.map buffer) := by
  have hrest : ∀ k r, (reference.frames ((calls.map buffer).take k).flatten).rest = some r → r = [] := by
    intro k r hr
    rw [← List.map_take, frames_events fun call hcall => h call (List.mem_of_mem_take hcall)] at hr
    exact (Option.some.inj hr).symm
  refine ⟨fun k _ r hr => .inl (hrest k r hr), fun k hk r hr => ?_⟩
  rw [hrest k r hr]
  obtain ⟨call, hcall, hget⟩ := List.mem_map.mp (List.get_mem (calls.map buffer) ⟨k, hk⟩)
  rw [← hget, ← (h call hcall).2]
  have hmax := (nMsgLen (fun _ => 0) call.buffer).property.2
  simp only [List.length_nil]
  omega

/-- The events of a sequence of calls arrive, as they were sent and no other ones, if and only if
    every call was complete; for any cut of the stream into chunks that the receiver can follow. -/
theorem exchange_complete_iff {calls : List SendCall} (hcalls : ∀ call ∈ calls, call.IsEvent)
    {chunks : List (List UInt8)} (hwire : chunks.flatten = wire calls)
    (hchunks : ∀ c ∈ chunks, 1 ≤ c.length ∧ c.length ≤ sizeofEventInfo)
    (huncut : TcpChannel.HeadersUncut chunks) (hfit : TcpChannel.SizesFit chunks) (cb : Callback)
    (beyond : ℕ → ℕ → UInt8) :
    ∃ ch, TcpChannel.threadProc (eventServer cb) beyond chunks = some ch ∧
      (ch.delivered = calls.map buffer ↔ ∀ call ∈ calls, call.Complete) := by
  obtain ⟨ch, hrun, hsync⟩ :=
    TcpChannel.inSync_of_uncut hchunks huncut hfit cb beyond (Nat.le_refl chunks.length)
  rw [List.take_length] at hrun hsync
  refine ⟨ch, hrun, ?_⟩
  rw [hsync.packets, hwire]
  constructor
  · intro hpackets
    have hle := Framer.length_packets_le (F := reference) (wire calls)
    rw [hpackets] at hle
    exact (length_wire_iff calls).mp hle
  · intro hcomplete
    rw [wire_of_complete hcomplete, frames_events hcalls]

/-- Two calls, each with all of its bytes taken. -/
def twoEvents : List SendCall :=
  [⟨[1, 2, 3, 4, 8, 0, 0, 0], 8, by decide⟩, ⟨[5, 6, 7, 8, 9, 0, 0, 0, 7], 9, by decide⟩]

/-- They arrive, each in a chunk of its own. -/
theorem exchange_complete_two :
    ∃ ch, TcpChannel.threadProc (eventServer .readOnly) (fun _ _ => 0) (twoEvents.map buffer) =
        some ch ∧
      ch.delivered = [[1, 2, 3, 4, 8, 0, 0, 0], [5, 6, 7, 8, 9, 0, 0, 0, 7]] := by
  have hevents : ∀ call ∈ twoEvents, call.IsEvent := by decide
  have hcomplete : ∀ call ∈ twoEvents, call.Complete := by decide
  obtain ⟨huncut, hfit⟩ := uncut_of_events hevents
  obtain ⟨ch, hrun, hiff⟩ := exchange_complete_iff hevents (wire_of_complete hcomplete).symm
    (by decide) huncut hfit .readOnly fun _ _ => 0
  exact ⟨ch, hrun, hiff.mpr hcomplete⟩

end SendCall

end Pdk.Net
