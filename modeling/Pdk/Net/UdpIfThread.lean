import Pdk.Foundation.Transition
import Pdk.Net.EventDefs
import Pdk.Sync.QThread

/-!
# `UUdpIfThread`

Model of `UUdpIfThread` in `src/udpserver.cpp`, with the `UUdpReceiver` inside it, over its whole life:
`start`, the two threads, and the destructor. The receiving thread blocks in `recvfrom` and calls
`after_receive`, which uses the object; the worker blocks in `remove` and hands events to `recv_handle`.
The destructor first ends the receiving thread (a stop request, then the close of the socket, which
makes `recvfrom` return, then the join) and then the worker (a stop request, a quit event, the join).

A step is a critical section, a system call or a call of a handler. What a datagram holds does not
matter here, except that an empty one makes the receiving thread leave.
-/

namespace Pdk.Net

open Foundation
open Pdk.Sync

/-! ## Program points -/

/-- Where `UUdpReceiver::thread_proc` stands. -/
inductive ReceiverPc where
  -- there is no thread
  | absent
  | checks
  -- inside `recvfrom`
  | receives
  -- inside `OnAfterReceive`
  | calls
  -- it has left `thread_proc`
  | left
  deriving DecidableEq, Repr

/-- Where `UUdpIfThread::thread_proc` stands. -/
inductive IfWorkerPc where
  | absent
  | checks
  -- inside `remove()`
  | removes
  -- inside `recv_handle`, for what `remove()` has returned
  | handles (pPacket : Option EventInfo)
  | left
  deriving DecidableEq, Repr

/-- Where the thread that owns the object stands. -/
inductive OwnerPc where
  | idle
  -- inside `start`: in front of the `create` of the channel, and of that of the object
  | opened
  | listens
  -- inside the destructor of the channel: in front of `close_pre`, of the `close` of the socket and
  -- of `close_post`
  | stopsChannel
  | closesSocket
  | joinsChannel
  -- inside `close()`: in front of `close_pre`, `add_quit_event` and `close_post`
  | stops
  | quits
  | joins
  | destroyed
  deriving DecidableEq, Repr

/-! ## The system -/

structure IfSystem where
  -- `udp_recv_sock_` is open
  sock : Bool
  -- what the kernel holds for the socket
  datagrams : List (List UInt8)
  receiver : ReceiverPc
  -- the `do_exit()` of the channel
  channelStop : Bool
  queue : Queue EventInfo
  worker : IfWorkerPc
  -- the `do_exit()` of the object
  stop : Bool
  owner : OwnerPc
  deriving DecidableEq, Repr

inductive IfAct where
  -- `start`: the socket can be opened or not, and the threads can be created or not
  | start (opens : Bool)
  | createChannel (spawns : Bool)
  | create (spawns : Bool)
  -- the destructor is called, and its next step
  | destroy
  | next
  -- a datagram arrives; an event is added
  | arrive (datagram : List UInt8)
  | add (event : EventInfo)
  -- the next step of the receiving thread; `recvfrom` fails for a reason of its own
  | receive
  | recvFails
  -- the next step of the worker
  | work
  deriving DecidableEq, Repr

namespace IfSystem

/-- `UUdpIfThread(n)`. -/
def new (n : ℤ) : IfSystem :=
  ⟨false, [], .absent, false, .new n, .absent, false, .idle⟩

/-- The steps of the destructor. A join waits until the thread has left. -/
def next (s : IfSystem) : Option IfSystem :=
  match s.owner with
  | .stopsChannel => some { s with channelStop := true, owner := .closesSocket }
  | .closesSocket => some { s with sock := false, owner := .joinsChannel }
  | .joinsChannel =>
    match s.receiver with
    | .absent => some { s with owner := .stops }
    | .left => some { s with receiver := .absent, owner := .stops }
    | _ => none
  | .stops => some { s with stop := true, owner := .quits }
  | .quits => some { s with queue := (s.queue.put .quit).2, owner := .joins }
  | .joins =>
    match s.worker with
    | .absent => some { s with owner := .destroyed }
    | .left => some { s with worker := .absent, owner := .destroyed }
    | _ => none
  | _ => none

/-- The steps of `UUdpReceiver::thread_proc`. -/
def receive (s : IfSystem) : Option IfSystem :=
  match s.receiver with
  | .checks => some { s with receiver := if s.channelStop then .left else .receives }
  | .receives =>
    match s.datagrams with
    | datagram :: datagrams => some { s with
        datagrams := datagrams
        receiver := if datagram = [] then .left else .calls }
    -- `recvfrom` returns 0 once the socket was shut down, and fails on an invalid descriptor
    | [] => if s.sock then none else some { s with receiver := .left }
  | .calls => some { s with receiver := .checks }
  | _ => none

/-- The steps of `UUdpIfThread::thread_proc`. -/
def work (s : IfSystem) : Option IfSystem :=
  match s.worker with
  | .checks => some { s with worker := if s.stop then .left else .removes }
  | .removes => s.queue.get.map fun r => { s with queue := r.2, worker := .handles r.1 }
  | .handles _ => some { s with worker := .checks }
  | _ => none

def step (s : IfSystem) : IfAct → Option IfSystem
  | .start opens =>
    if s.owner = .idle then
      -- an open socket is not opened again; `start` throws
      if opens && !s.sock then some { s with sock := true, owner := .opened } else some s
    else none
  | .createChannel spawns =>
    if s.owner = .opened then
      if spawns then some { s with
        receiver := if s.receiver = .absent then .checks else s.receiver
        owner := .listens }
      else some { s with owner := .idle }
    else none
  | .create spawns =>
    if s.owner = .listens then
      some { s with
        worker := if s.worker = .absent ∧ spawns then .checks else s.worker
        owner := .idle }
    else none
  | .destroy => if s.owner = .idle then some { s with owner := .stopsChannel } else none
  | .next => s.next
  | .arrive datagram =>
    if s.sock then some { s with datagrams := s.datagrams ++ [datagram] } else none
  | .add event =>
    if s.owner = .destroyed then none else some { s with queue := (s.queue.put event).2 }
  | .receive => s.receive
  | .recvFails => if s.receiver = .receives then some { s with receiver := .left } else none
  | .work => s.work

def machine (n : ℤ) : Machine IfSystem IfAct :=
  ⟨new n, step⟩

/-! ## What a step can do -/

inductive Stepped (s : IfSystem) : IfAct → IfSystem → Prop where
  | throws (opens : Bool) (howner : s.owner = .idle) : Stepped s (.start opens) s
  | opens (howner : s.owner = .idle) : Stepped s (.start true) { s with sock := true, owner := .opened }
  | channelThrows (howner : s.owner = .opened) :
      Stepped s (.createChannel false) { s with owner := .idle }
  | spawnsChannel (howner : s.owner = .opened) :
      Stepped s (.createChannel true) { s with
        receiver := if s.receiver = .absent then .checks else s.receiver
        owner := .listens }
  | spawns (spawns : Bool) (howner : s.owner = .listens) :
      Stepped s (.create spawns) { s with
        worker := if s.worker = .absent ∧ spawns then .checks else s.worker
        owner := .idle }
  | destroys (howner : s.owner = .idle) : Stepped s .destroy { s with owner := .stopsChannel }
  | stopsChannel (howner : s.owner = .stopsChannel) :
      Stepped s .next { s with channelStop := true, owner := .closesSocket }
  | closesSocket (howner : s.owner = .closesSocket) :
      Stepped s .next { s with sock := false, owner := .joinsChannel }
  | joinsChannel (howner : s.owner = .joinsChannel)
      (hgone : s.receiver = .absent ∨ s.receiver = .left) :
      Stepped s .next { s with receiver := .absent, owner := .stops }
  | stops (howner : s.owner = .stops) : Stepped s .next { s with stop := true, owner := .quits }
  | quits (howner : s.owner = .quits) :
      Stepped s .next { s with queue := (s.queue.put .quit).2, owner := .joins }
  | joins (howner : s.owner = .joins) (hgone : s.worker = .absent ∨ s.worker = .left) :
      Stepped s .next { s with worker := .absent, owner := .destroyed }
  | arrives (datagram : List UInt8) :
      Stepped s (.arrive datagram) { s with datagrams := s.datagrams ++ [datagram] }
  | adds (event : EventInfo) : Stepped s (.add event) { s with queue := (s.queue.put event).2 }
  -- the receiving thread
  | receiverChecks (hpc : s.receiver = .checks) :
      Stepped s .receive { s with receiver := if s.channelStop then .left else .receives }
  | receives (datagram : List UInt8) (datagrams : List (List UInt8)) (hpc : s.receiver = .receives)
      (hdata : s.datagrams = datagram :: datagrams) :
      Stepped s .receive { s with
        datagrams := datagrams
        receiver := if datagram = [] then .left else .calls }
  | receivesNothing (hpc : s.receiver = .receives) (hsock : s.sock = false) :
      Stepped s .receive { s with receiver := .left }
  | called (hpc : s.receiver = .calls) : Stepped s .receive { s with receiver := .checks }
  | recvFails (hpc : s.receiver = .receives) : Stepped s .recvFails { s with receiver := .left }
  -- the worker
  | workerChecks (hpc : s.worker = .checks) :
      Stepped s .work { s with worker := if s.stop then .left else .removes }
  | removes (pPacket : Option EventInfo) (queue : Queue EventInfo) (hpc : s.worker = .removes)
      (hget : s.queue.get = some (pPacket, queue)) :
      Stepped s .work { s with queue := queue, worker := .handles pPacket }
  | handled (pPacket : Option EventInfo) (hpc : s.worker = .handles pPacket) :
      Stepped s .work { s with worker := .checks }

/-- **Case analysis of a step.** -/
theorem stepped_of_step {s s' : IfSystem} {a : IfAct} (h : step s a = some s') : Stepped s a s' := by
  cases a with
  | start opens =>
    simp only [step] at h
    split at h
    · rename_i howner
      split at h
      · rename_i hopens
        obtain ⟨rfl, -⟩ := Bool.and_eq_true_iff.mp hopens
        cases h
        exact .opens howner
      · cases h
        exact .throws opens howner
    · cases h
  | createChannel spawns =>
    simp only [step] at h
    split at h
    · rename_i howner
      cases spawns with
      | false =>
        cases h
        exact .channelThrows howner
      | true =>
        cases h
        exact .spawnsChannel howner
    · cases h
  | create spawns =>
    simp only [step] at h
    split at h
    · rename_i howner
      cases h
      exact .spawns spawns howner
    · cases h
  | destroy =>
    simp only [step] at h
    split at h
    · rename_i howner
      cases h
      exact .destroys howner
    · cases h
  | next =>
    simp only [step, next] at h
    split at h
    · rename_i howner
      cases h
      exact .stopsChannel howner
    · rename_i howner
      cases h
      exact .closesSocket howner
    · rename_i howner
      split at h
      · rename_i habsent
        cases h
        have hstep := Stepped.joinsChannel howner (.inl habsent)
        rw [← habsent] at hstep
        exact hstep
      · rename_i hleft
        cases h
        exact .joinsChannel howner (.inr hleft)
      · cases h
    · rename_i howner
      cases h
      exact .stops howner
    · rename_i howner
      cases h
      exact .quits howner
    · rename_i howner
      split at h
      · rename_i habsent
        cases h
        have hstep := Stepped.joins howner (.inl habsent)
        rw [← habsent] at hstep
        exact hstep
      · rename_i hleft
        cases h
        exact .joins howner (.inr hleft)
      · cases h
    · cases h
  | arrive datagram =>
    simp only [step] at h
    split at h
    · cases h
      exact .arrives datagram
    · cases h
  | add event =>
    simp only [step] at h
    split at h
    · cases h
    · cases h
      exact .adds event
  | receive =>
    simp only [step, receive] at h
    split at h
    · rename_i hpc
      cases h
      exact .receiverChecks hpc
    · rename_i hpc
      split at h
      · rename_i datagram datagrams hdata
        cases h
        exact .receives datagram datagrams hpc hdata
      · split at h
        · cases h
        · rename_i hsock
          cases h
          exact .receivesNothing hpc (by simpa using hsock)
    · rename_i hpc
      cases h
      exact .called hpc
    · cases h
  | recvFails =>
    simp only [step] at h
    split at h
    · rename_i hpc
      cases h
      exact .recvFails hpc
    · cases h
  | work =>
    simp only [step, work] at h
    split at h
    · rename_i hpc
      cases h
      exact .workerChecks hpc
    · rename_i hpc
      obtain ⟨⟨pPacket, queue⟩, hget, rfl⟩ := Option.map_eq_some_iff.mp h
      exact .removes pPacket queue hpc hget
    · rename_i pPacket hpc
      cases h
      exact .handled pPacket hpc
    · cases h

end IfSystem

end Pdk.Net
