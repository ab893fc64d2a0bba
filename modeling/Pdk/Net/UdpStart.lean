import Pdk.Net.SocketCustody

/-!
# Starting a UDP server again

Model of `start` of `UUdpServer` and `IUdpServer` in `src/udpserver.cpp`, on the sockets of
`Net.SocketCustody`. Each opens a socket to send from and one to receive on, and creates the thread.
Nothing but the destructor closes them. `IUdpServer` gives up if the first one cannot be opened;
`UUdpServer` only logs it. The thread can be created: that `create()` throws, and `start` with it, is
left out.

So a start of the one that has failed can be tried again, and a start of the other only if it has
failed at the first socket (`udp_start_iff`).
-/

namespace Pdk.Net

open Foundation
open Pdk.Config

/-! ## Setting up one socket of several -/

namespace SocketProcess

variable {ι : Type*} [DecidableEq ι]

def setUp (net : Resolver) (s : SocketProcess ι) (i : ι) (call : SetupCall) (c : Calls) :
    Bool × SocketProcess ι :=
  ((call.run net c (s.view i)).1, s.put i (call.run net c (s.view i)).2)

/-- A call that is not untruthful succeeds exactly if the socket is invalid and the system calls
    succeed. It leaves the socket invalid if they do not, and the others as they are. -/
theorem setUp_spec (net : Resolver) (s : SocketProcess ι) (i : ι) (call : SetupCall) (c : Calls)
    (hu : ¬call.Untruthful net c) :
    ((s.setUp net i call c).1 = true ↔ s.hold i = none ∧ call.Completes net c) ∧
    ((s.setUp net i call c).2.hold i = none ↔ s.hold i = none ∧ ¬call.Completes net c) ∧
    ∀ j, j ≠ i → (s.setUp net i call c).2.hold j = s.hold j := by
  have hself : (s.setUp net i call c).2.hold i = (call.run net c (s.view i)).2.socketFd := by
    rw [setUp, hold_put, Function.update_self]
  have hother : ∀ j, j ≠ i → (s.setUp net i call c).2.hold j = s.hold j := by
    intro j hj
    rw [setUp, hold_put, Function.update_of_ne hj]
  rw [hself, setUp]
  refine ⟨?_, ?_, hother⟩
  all_goals
    cases hfd : s.hold i with
    | none =>
      by_cases hc : call.Completes net c
      · obtain ⟨o, ⟨x, hrun, fd, hx, -⟩, -⟩ := SetupCall.run_completes net (s := s.view i) hfd hc
        simp [hrun, hx, hc]
      · obtain ⟨x, hrun, hclean⟩ := SetupCall.run_failed net (s := s.view i) hfd hc hu
        simp [hrun, hclean.invalid, hc]
    | some fd =>
      have hvalid : (s.view i).socketFd ≠ none := by
        show s.hold i ≠ none
        rw [hfd]
        exact Option.some_ne_none fd
      obtain ⟨hfalse, hsame, -⟩ := SetupCall.run_of_valid net hvalid call c
      simp [hfalse, hsame, hvalid]

end SocketProcess

/-! ## The servers -/

/-- `udp_send_sock_` and `udp_recv_sock_`. -/
inductive UdpEnd where
  | sender | receiver
  deriving DecidableEq, Repr

/-- The address of a call of `start`, and the results of the system calls for either socket. -/
structure UdpStart (α : Type*) where
  address : α
  send : Calls
  recv : Calls

namespace IUdpServer

/-- `start(pOwner, pszAddr, nPort)`; `false` stands for the exceptions. -/
def start (net : Resolver) (s : SocketProcess UdpEnd) (a : UdpStart (Option Str × ℕ)) :
    Bool × SocketProcess UdpEnd :=
  let sent := s.setUp net .sender (.udpOpen 0 none) a.send
  if sent.1 then sent.2.setUp net .receiver (.udpOpen a.address.2 a.address.1) a.recv
  else (false, sent.2)

def machine (net : Resolver) : Machine (SocketProcess UdpEnd) (UdpStart (Option Str × ℕ)) :=
  ⟨(SocketProcess.machine UdpEnd net).init, fun s a => some (start net s a).2⟩

/-- The system calls for the first socket succeed. -/
def OpensSender (net : Resolver) (a : UdpStart (Option Str × ℕ)) : Prop :=
  (SetupCall.udpOpen 0 none).Completes net a.send

variable {net : Resolver} {s : SocketProcess UdpEnd}

/-- What `start` makes of the sockets. -/
theorem start_spec (net : Resolver) (s : SocketProcess UdpEnd) (a : UdpStart (Option Str × ℕ)) :
    ((start net s a).1 = true ↔ s.hold .sender = none ∧ OpensSender net a ∧
      s.hold .receiver = none ∧ (SetupCall.udpOpen a.address.2 a.address.1).Completes net a.recv) ∧
    ((start net s a).2.hold .sender = none ↔ s.hold .sender = none ∧ ¬OpensSender net a) ∧
    ((start net s a).2.hold .sender = none → (start net s a).2.hold .receiver = s.hold .receiver) := by
  obtain ⟨hsent, hsender, hother⟩ := s.setUp_spec net .sender (.udpOpen 0 none) a.send not_false
  have hreceiver := hother .receiver UdpEnd.noConfusion
  by_cases htrue : (s.setUp net .sender (.udpOpen 0 none) a.send).1 = true
  · have hstart : start net s a = (s.setUp net .sender (.udpOpen 0 none) a.send).2.setUp net .receiver
        (.udpOpen a.address.2 a.address.1) a.recv := if_pos htrue
    obtain ⟨hnone, hopens⟩ := hsent.mp htrue
    obtain ⟨hrecv, -, hkept⟩ := (s.setUp net .sender (.udpOpen 0 none) a.send).2.setUp_spec net
      .receiver (.udpOpen a.address.2 a.address.1) a.recv not_false
    have hopened : ¬(s.setUp net .sender (.udpOpen 0 none) a.send).2.hold .sender = none :=
      fun h => (hsender.mp h).2 hopens
    rw [hstart, hrecv, hkept .sender UdpEnd.noConfusion, hreceiver]
    refine ⟨?_, ?_, fun h => absurd h hopened⟩
    · exact ⟨fun h => ⟨hnone, hopens, h⟩, fun h => h.2.2⟩
    · exact ⟨fun h => absurd h hopened, fun h => absurd hopens h.2⟩
  · have hstart : start net s a = (false, (s.setUp net .sender (.udpOpen 0 none) a.send).2) :=
      if_neg htrue
    rw [hstart]
    refine ⟨⟨fun h => (by cases h), fun h => absurd (hsent.mpr ⟨h.1, h.2.1⟩) htrue⟩, hsender,
      fun _ => hreceiver⟩

/-- The first socket is open as soon as a start has opened it, and the second one only then. -/
theorem sender_of_run {earlier : List (UdpStart (Option Str × ℕ))}
    (hrun : (machine net).run (machine net).init earlier = some s) :
    (s.hold .sender = none ↔ ∀ b ∈ earlier, ¬OpensSender net b) ∧
      (s.hold .sender = none → s.hold .receiver = none) := by
  refine Machine.run_history
    (P := fun earlier s => (s.hold .sender = none ↔ ∀ b ∈ earlier, ¬OpensSender net b) ∧
      (s.hold .sender = none → s.hold .receiver = none))
    ⟨⟨fun _ b hb => (by cases hb), fun _ => rfl⟩, fun _ => rfl⟩ ?_ hrun
  intro earlier s a s' ⟨hsender, hreceiver⟩ hstep
  cases hstep
  obtain ⟨-, hnext, hkept⟩ := start_spec net s a
  refine ⟨?_, fun h => ?_⟩
  · rw [hnext, hsender]
    simp only [List.forall_mem_append, List.forall_mem_singleton]
  · rw [hkept h]
    exact hreceiver (hnext.mp h).1

end IUdpServer

namespace UUdpServer

/-- `start(pOwner, pszPath)`; `false` stands for the exception. -/
def start (net : Resolver) (s : SocketProcess UdpEnd) (a : UdpStart Str) :
    Bool × SocketProcess UdpEnd :=
  -- whether `udp_send_sock_` could be opened is only logged
  let sent := s.put .sender ((s.view .sender).createSocket a.send .unix .dgram).2
  sent.setUp net .receiver (.openPath a.address) a.recv

def machine (net : Resolver) : Machine (SocketProcess UdpEnd) (UdpStart Str) :=
  ⟨(SocketProcess.machine UdpEnd net).init, fun s a => some (start net s a).2⟩

/-- The system calls for the second socket succeed. -/
def OpensReceiver (net : Resolver) (a : UdpStart Str) : Prop :=
  (SetupCall.openPath a.address).Completes net a.recv

variable {net : Resolver} {s : SocketProcess UdpEnd}

/-- What `start` makes of the second socket. -/
theorem start_spec (net : Resolver) (s : SocketProcess UdpEnd) (a : UdpStart Str) :
    ((start net s a).1 = true ↔ s.hold .receiver = none ∧ OpensReceiver net a) ∧
    ((start net s a).2.hold .receiver = none ↔ s.hold .receiver = none ∧ ¬OpensReceiver net a) := by
  have hsame : (s.put .sender ((s.view .sender).createSocket a.send .unix .dgram).2).hold .receiver =
      s.hold .receiver := by
    rw [SocketProcess.hold_put, Function.update_of_ne UdpEnd.noConfusion]
  obtain ⟨hrecv, hreceiver, -⟩ :=
    (s.put .sender ((s.view .sender).createSocket a.send .unix .dgram).2).setUp_spec net .receiver
      (.openPath a.address) a.recv not_false
  rw [hsame] at hrecv hreceiver
  exact ⟨hrecv, hreceiver⟩

/-- The second socket is open as soon as a start has opened it. -/
theorem receiver_of_run {earlier : List (UdpStart Str)}
    (hrun : (machine net).run (machine net).init earlier = some s) :
    s.hold .receiver = none ↔ ∀ b ∈ earlier, ¬OpensReceiver net b := by
  refine Machine.run_history
    (P := fun earlier s => s.hold .receiver = none ↔ ∀ b ∈ earlier, ¬OpensReceiver net b)
    ⟨fun _ b hb => (by cases hb), fun _ => rfl⟩ ?_ hrun
  intro earlier s a s' h hstep
  cases hstep
  rw [(start_spec net s a).2, h]
  simp only [List.forall_mem_append, List.forall_mem_singleton]

end UUdpServer

/-- Behind any earlier starts, a start of an `IUdpServer` succeeds if and only if none of them has
    opened the socket to send from, and both sockets can be opened now; a start of a `UUdpServer` if
    and only if none of them has opened the socket to receive on, and it can be opened now. -/
theorem udp_start_iff (net : Resolver) :
    (∀ (earlier : List (UdpStart (Option Str × ℕ))) s (a : UdpStart (Option Str × ℕ)),
      (IUdpServer.machine net).run (IUdpServer.machine net).init earlier = some s →
      ((IUdpServer.start net s a).1 = true ↔ (∀ b ∈ earlier, ¬IUdpServer.OpensSender net b) ∧
        IUdpServer.OpensSender net a ∧
        (SetupCall.udpOpen a.address.2 a.address.1).Completes net a.recv)) ∧
    ∀ (earlier : List (UdpStart Str)) s (a : UdpStart Str),
      (UUdpServer.machine net).run (UUdpServer.machine net).init earlier = some s →
      ((UUdpServer.start net s a).1 = true ↔ (∀ b ∈ earlier, ¬UUdpServer.OpensReceiver net b) ∧
        UUdpServer.OpensReceiver net a) := by
  constructor
  · intro earlier s a hrun
    obtain ⟨hsender, hreceiver⟩ := IUdpServer.sender_of_run hrun
    rw [(IUdpServer.start_spec net s a).1, ← hsender]
    exact ⟨fun ⟨hnone, hopens, _, hrecv⟩ => ⟨hnone, hopens, hrecv⟩,
      fun ⟨hnone, hopens, hrecv⟩ => ⟨hnone, hopens, hreceiver hnone, hrecv⟩⟩
  · intro earlier s a hrun
    rw [(UUdpServer.start_spec net s a).1, UUdpServer.receiver_of_run hrun]

end Pdk.Net
