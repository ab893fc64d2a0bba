import Pdk.Foundation.Transition
import Pdk.Net.TcpChannel
import Pdk.Sync.QThread

/-!
# UDP receivers

Model of `UUdpReceiver` and `IUdpReceiver` in `src/udpserver.cpp`. Both receive datagrams into one
`EVENTINFO` on the stack of `thread_proc`, so that the bytes behind a short datagram are those of the
datagrams before it. They set `h.nMsgLen` to the number of bytes received if it says something
else, and hand the structure to `OnAfterReceive`.

They differ in `recv_from`: that of `UnixUdp` calls `recvfrom` again when it fails, up to
`RETRY_COUNT` times.
-/

namespace Pdk.Net

open Foundation
open Pdk.Sync

/-- `RETRY_COUNT` of `src/sock.cpp`. -/
def retryCount : ℕ := 1

/-- A receiver with its thread. -/
structure UdpReceiver where
  -- `Packet`
  packet : List UInt8
  -- how often `recvfrom` has failed in this call of `recv_from`
  retry : ℕ
  running : Bool
  -- the packets handed to `OnAfterReceive`, as they stood before the call
  delivered : List (List UInt8)
  deriving DecidableEq, Repr

inductive UdpAct where
  -- the loop ends: `do_exit()`, or the socket was closed
  | leave
  -- `recvfrom` fails, or returns the bytes of a datagram
  | fail
  | recv (datagram : List UInt8)
  deriving DecidableEq, Repr

namespace UdpReceiver

/-- The receiver when its thread starts. -/
def start : UdpReceiver :=
  ⟨List.replicate sizeofEventInfo 0, 0, true, []⟩

/-- `recvfrom` has returned less than 1; after `retries` of these, `recv_from` does. -/
def failed (retries : ℕ) (r : UdpReceiver) : UdpReceiver :=
  if r.retry + 1 ≥ retries then { r with running := false } else { r with retry := r.retry + 1 }

/-- `add_event(pBuffer)`. -/
def addEvent (onAfterReceive : Option Callback) (r : UdpReceiver) (packet : List UInt8) :
    UdpReceiver :=
  match onAfterReceive with
  | none => { r with packet := packet }
  | some cb => { r with
      packet := cb.run r.delivered.length packet
      delivered := r.delivered ++ [packet] }

/-- The body of the loop for a datagram, of which `recvfrom` keeps what fits into `Packet`. -/
def receive (retries : ℕ) (onAfterReceive : Option Callback) (r : UdpReceiver)
    (datagram : List UInt8) : UdpReceiver :=
  let nLen := min datagram.length sizeofEventInfo
  if nLen < 1 then r.failed retries
  else
    let packet := Bytes.overwrite r.packet 0 datagram
    let packet :=
      if (nLen : ℤ) ≠ (nMsgLen (fun _ => 0) packet).val then setMsgLen packet nLen else packet
    { r with retry := 0 }.addEvent onAfterReceive packet

def step (retries : ℕ) (onAfterReceive : Option Callback) (r : UdpReceiver) (act : UdpAct) :
    Option UdpReceiver :=
  if r.running then
    match act with
    | .leave => some { r with running := false }
    | .fail => some (r.failed retries)
    | .recv datagram => some (r.receive retries onAfterReceive datagram)
  else none

/-- `thread_proc`, with a `recv_from` that tries `retries` times. -/
def machine (retries : ℕ) (onAfterReceive : Option Callback) : Machine UdpReceiver UdpAct :=
  ⟨start, step retries onAfterReceive⟩

end UdpReceiver

/-- `UUdpReceiver::thread_proc`. -/
def UUdpReceiver.machine (onAfterReceive : Option Callback) : Machine UdpReceiver UdpAct :=
  UdpReceiver.machine retryCount onAfterReceive

/-- `IUdpReceiver::thread_proc`. -/
def IUdpReceiver.machine (onAfterReceive : Option Callback) : Machine UdpReceiver UdpAct :=
  UdpReceiver.machine 1 onAfterReceive

/-- `UUdpReceiver::add_event(pBuffer, nLen)`: the event it hands to `OnAfterReceive`. -/
def UUdpReceiver.addEvent (pBuffer : Option (ℕ → UInt8)) (nLen : CInt) : Option EventInfo :=
  EventInfo.fill 1 2 pBuffer nLen

/-! ## What is delivered -/

namespace UdpReceiver

/-- The datagrams of a run that are not empty. -/
def datagrams (acts : List UdpAct) : List (List UInt8) :=
  acts.filterMap fun
    | .recv datagram => if datagram = [] then none else some datagram
    | _ => none

theorem mem_datagrams {acts : List UdpAct} {datagram : List UInt8} :
    datagram ∈ datagrams acts ↔ .recv datagram ∈ acts ∧ datagram ≠ [] := by
  simp only [datagrams, List.mem_filterMap]
  constructor
  · rintro ⟨act, hact, heq⟩
    cases act with
    | leave => cases heq
    | fail => cases heq
    | recv d =>
      simp only at heq
      split at heq
      · cases heq
      · rename_i hne
        cases heq
        exact ⟨hact, hne⟩
  · intro ⟨hact, hne⟩
    refine ⟨.recv datagram, hact, ?_⟩
    simp only
    rw [if_neg hne]

/-- The length of a delivered packet. -/
def deliveredLength (packet : List UInt8) : ℤ := (nMsgLen (fun _ => 0) packet).val

/-- What was received is delivered, with its own length. -/
structure Delivers (acts : List UdpAct) (r : UdpReceiver) : Prop where
  packet : r.packet.length = sizeofEventInfo
  lengths : r.delivered.map deliveredLength =
    (datagrams acts).map fun datagram => ((min datagram.length sizeofEventInfo : ℕ) : ℤ)

variable {retries : ℕ} {cb : Callback} {acts : List UdpAct} {r r' : UdpReceiver}

theorem datagrams_append (acts acts' : List UdpAct) :
    datagrams (acts ++ acts') = datagrams acts ++ datagrams acts' :=
  List.filterMap_append

theorem failed_eq (retries : ℕ) (r : UdpReceiver) :
    (r.failed retries).packet = r.packet ∧ (r.failed retries).delivered = r.delivered := by
  unfold failed
  split
  · exact ⟨rfl, rfl⟩
  · exact ⟨rfl, rfl⟩

/-- The packet that is handed over carries the number of bytes received. -/
theorem deliveredLength_set {packet : List UInt8} {nLen : ℕ} (hlen : packet.length = sizeofEventInfo)
    (hn : nLen ≤ sizeofEventInfo) :
    deliveredLength (if (nLen : ℤ) ≠ (nMsgLen (fun _ => 0) packet).val then setMsgLen packet nLen
      else packet) = nLen := by
  split
  · refine nMsgLen_setMsgLen _ (by rw [hlen]; decide) ?_
    have hsize : (sizeofEventInfo : ℤ) ≤ int32Max := by decide
    omega
  · rename_i heq
    exact (not_not.mp heq).symm

/-- A datagram that is not empty is delivered. -/
theorem Delivers.receive (h : Delivers acts r) {datagram : List UInt8} (hne : datagram ≠ []) :
    Delivers (acts ++ [.recv datagram]) (r.receive retries (some cb) datagram) := by
  have hpos : 1 ≤ datagram.length := List.length_pos_iff.mpr hne
  have hlen : ¬min datagram.length sizeofEventInfo < 1 := by
    have hsize : 1 ≤ sizeofEventInfo := by decide
    omega
  have hpacket : (Bytes.overwrite r.packet 0 datagram).length = sizeofEventInfo := by
    rw [Bytes.length_overwrite]
    exact h.packet
  simp only [UdpReceiver.receive, if_neg hlen, UdpReceiver.addEvent]
  refine ⟨?_, ?_⟩
  · show (cb.run _ _).length = sizeofEventInfo
    rw [cb.length_run]
    split
    · rw [length_setMsgLen]
      exact hpacket
    · exact hpacket
  · have hdatagrams : datagrams [.recv datagram] = [datagram] := by simp [datagrams, hne]
    rw [datagrams_append, hdatagrams, List.map_append, List.map_append, h.lengths,
      List.map_singleton, List.map_singleton, deliveredLength_set hpacket (Nat.min_le_right _ _)]

/-- **Step lemma.** -/
theorem Delivers.step (h : Delivers acts r) {act : UdpAct}
    (hstep : (machine retries (some cb)).step r act = some r') : Delivers (acts ++ [act]) r' := by
  -- what leaves the packet and the deliveries alone
  have hquiet : datagrams [act] = [] → r'.packet = r.packet → r'.delivered = r.delivered →
      Delivers (acts ++ [act]) r' := by
    intro hnone hpacket hdelivered
    refine ⟨by rw [hpacket]; exact h.packet, ?_⟩
    rw [datagrams_append, hnone, List.append_nil, hdelivered]
    exact h.lengths
  simp only [machine, UdpReceiver.step] at hstep
  split at hstep
  · cases act with
    | leave =>
      cases hstep
      exact hquiet rfl rfl rfl
    | fail =>
      cases hstep
      exact hquiet rfl (failed_eq retries r).1 (failed_eq retries r).2
    | recv datagram =>
      cases hstep
      by_cases hnil : datagram = []
      · subst hnil
        exact hquiet rfl (failed_eq retries r).1 (failed_eq retries r).2
      · exact h.receive hnil
  · cases hstep

/-- **Run lemma.** -/
theorem delivers_of_run (hrun : (machine retries (some cb)).run start acts = some r) :
    Delivers acts r := by
  refine Machine.run_history (M := machine retries (some cb)) (P := Delivers) ?_ ?_ hrun
  · exact ⟨List.length_replicate, rfl⟩
  · intro acts r act r' h hstep
    exact h.step hstep

/-- A receiver delivers only lengths of events exactly when no datagram is shorter than a header.
    Longer ones are cut to the size of an event. -/
theorem delivered_lengthOk_iff (hrun : (machine retries (some cb)).run start acts = some r) :
    (∀ packet ∈ r.delivered, LengthOk (nMsgLen (fun _ => 0) packet).val) ↔
      ∀ datagram, .recv datagram ∈ acts → datagram = [] ∨ eventInfoHeaderLength ≤ datagram.length := by
  have hlengths := (delivers_of_run hrun).lengths
  have hsizes : sizeofEventInfo = maxEventInfoSize ∧ eventInfoHeaderLength ≤ maxEventInfoSize := by
    decide
  calc (∀ packet ∈ r.delivered, LengthOk (nMsgLen (fun _ => 0) packet).val)
      ↔ ∀ n ∈ r.delivered.map deliveredLength, LengthOk n := by simp [deliveredLength]
    _ ↔ ∀ datagram ∈ datagrams acts,
          LengthOk ((min datagram.length sizeofEventInfo : ℕ) : ℤ) := by
        rw [hlengths]
        simp
    _ ↔ ∀ datagram ∈ datagrams acts, eventInfoHeaderLength ≤ datagram.length := by
        refine forall_congr' fun datagram => imp_congr_right fun _ => ?_
        simp only [LengthOk, hsizes.1]
        omega
    _ ↔ _ := by
        simp only [mem_datagrams]
        refine forall_congr' fun datagram => ?_
        rw [and_imp, or_iff_not_imp_left]

end UdpReceiver

end Pdk.Net
