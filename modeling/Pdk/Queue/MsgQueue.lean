import Pdk.Foundation.TaggedQueue
import Pdk.Foundation.Transition
import Pdk.Sync.QThread

/-!
# `MsgQueue` and `CMsgQueueThread`

Model of `include/msgqueue.hpp` and `include/mtq.hpp`: parties that share one System V message queue.
Each party has a `MsgQueue`, whose thread receives the messages of one type and hands them to a
callback, and a `CMsgQueueThread`, whose event queue the callback fills.

A call of `send` first fills `send_elem_`, which all callers of one object share, and then calls
`msgsnd`; the receiving thread stands at `do_exit()`, inside `msgrcv`, or in front of the callback.
`CMsgQueueThread::start` starts the receiving thread before it calls `set_owner`. The kernel appends a
message at the end of its queue, and `msgrcv` takes the first one of the type it asks for; both calls
may fail. A message body is the bytes of a `T`, `nLen` is `sizeof(T)`.

The calls of a party are `start`, `set_send_id`, `set_recv_id`, `PutQueue`, `GetQueue`, and the stop
and the join of its receiving thread. Left out are `MsgQueue::remove()`, which takes the queue away
from the kernel, and what a `CMsgQueueThread` has as a thread with an event queue of its own: `close()`,
whose quit event `GetQueue` would return like a message, and `add_event()`.
-/

namespace Pdk.Queue

open Foundation
open Pdk.Net
open Pdk.Sync

/-! ## The objects -/

/-- `MSG_QUEUE_TYPE`. -/
inductive MsgQueueType where
  | msgSendType
  | msgRecvType
  | msgNoneType
  deriving DecidableEq, Repr

def MsgQueueType.value : MsgQueueType → ℤ
  | .msgSendType => 1
  | .msgRecvType => 2
  | .msgNoneType => 0xfffe

/-- `MSGELEM`: the type and the body. -/
abbrev MsgElem : Type := ℤ × List UInt8

/-- Where `thread_proc` stands. -/
inductive RecvPc where
  -- there is no thread
  | idle
  -- the thread has left `thread_proc`, and was not joined
  | left
  -- about to evaluate `do_exit()`
  | checks
  -- inside `msgrcv`, which was called for this type
  | waits (mtype : ℤ)
  -- `msgrcv` has filled `recv_elem_`
  | returned (mbody : List UInt8)
  deriving DecidableEq, Repr

structure MsgQueue where
  sendElem : MsgElem
  sendId : MsgQueueType
  recvId : MsgQueueType
  -- `owner_` is not null
  owner : Bool
  -- `do_exit()`
  stop : Bool
  pc : RecvPc
  deriving DecidableEq, Repr

namespace MsgQueue

def new : MsgQueue :=
  ⟨(0, []), .msgSendType, .msgRecvType, false, false, .idle⟩

/-- `send(elem, type)` up to `msgsnd`. -/
def fill (q : MsgQueue) (elem : List UInt8) (type : ℤ) : MsgQueue :=
  { q with sendElem := (if type = -1 then q.sendId.value else type, elem) }

/-- `thread_proc` from `do_exit()` up to `msgrcv`. -/
def check (q : MsgQueue) : MsgQueue :=
  { q with pc := if q.stop then .left else .waits q.recvId.value }

/-- The message that `msgrcv` has returned and the callback has not been given. -/
def held (q : MsgQueue) : List (List UInt8) :=
  match q.pc with
  | .returned mbody => [mbody]
  | _ => []

end MsgQueue

structure MsgQueueThread where
  -- `m_pMsgQueue`
  msgQueue : MsgQueue
  thread : QThread
  -- inside `start`, in front of `set_owner`
  starting : Bool
  -- the calls of `send` in front of `msgsnd`, with the messages they are to send
  calls : List MsgElem
  -- the events that `GetQueue` has taken
  got : List EventInfo
  deriving DecidableEq, Repr

namespace MsgQueueThread

/-- `CMsgQueueThread(nBufferLen)`. -/
def new (nBufferLen : ℤ) : MsgQueueThread :=
  ⟨.new, .new nBufferLen, false, [], []⟩

/-- `start(path, id, type)` up to `set_owner`. `Thread::create` launches a thread if there is none;
    `spawns` says whether it can. -/
def start (p : MsgQueueThread) (type : MsgQueueType) (spawns : Bool) : MsgQueueThread :=
  let q := { p.msgQueue with sendId := .msgRecvType, recvId := type }
  { p with
    msgQueue := if q.pc = .idle then { q with stop := false, pc := if spawns then .checks else .idle }
      else q
    starting := true }

/-- `MsgQueueRecv(owner_, pBuffer, nLen)`. There is no result if the event has no room for the
    message. -/
def msgQueueRecv (nLen : CInt) (p : MsgQueueThread) (pBuffer : List UInt8) :
    Option (Bool × MsgQueueThread) :=
  if p.msgQueue.owner = false then some (false, p)
  else (p.thread.addEvent 0 0 (some (byteAt (fun _ => 0) pBuffer)) nLen).map fun r =>
    (r.1, { p with thread := r.2 })

/-- `GetQueue()`: the `Value` of the event is the message. -/
def getQueue (p : MsgQueueThread) : Option (List UInt8) × MsgQueueThread :=
  let (event, thread) := p.thread.tryRemove
  (event.map (·.value), { p with thread := thread, got := p.got ++ event.toList })

/-- The messages that have reached the owner, up to the one in front of the callback. -/
def arrived (p : MsgQueueThread) : List (List UInt8) :=
  (p.got ++ p.thread.queue.q).map (·.value) ++ p.msgQueue.held

end MsgQueueThread

/-! ## The system -/

structure MsgSystem (ι : Type*) where
  party : ι → MsgQueueThread
  -- the queue of the kernel
  kernel : TaggedQueue ℤ (List UInt8)
  -- the messages for which `msgsnd` has succeeded: as the callers wanted them, and as they were
  asked : TaggedQueue ℤ (List UInt8)
  queued : TaggedQueue ℤ (List UInt8)
  -- the messages that `msgrcv` has returned, and to whom
  received : TaggedQueue ι MsgElem

inductive MsgAct (ι : Type*) where
  -- `start`, and `set_owner` inside it
  | start (i : ι) (type : MsgQueueType) (spawns : Bool)
  | setOwner (i : ι)
  | setSendId (i : ι) (type : MsgQueueType)
  | setRecvId (i : ι) (type : MsgQueueType)
  -- `PutQueue` is called, and one of these calls gets to `msgsnd`
  | putQueue (i : ι) (pMsg : List UInt8)
  | msgsnd (i : ι) (k : ℕ) (ok : Bool)
  -- `close()`: a stop is requested of the receiving thread, and the thread is joined
  | stop (i : ι)
  | join (i : ι)
  -- the steps of the receiving thread
  | check (i : ι)
  | msgrcv (i : ι)
  | msgrcvFails (i : ι)
  | callback (i : ι)
  | getQueue (i : ι)
  deriving DecidableEq

namespace MsgSystem

variable {ι : Type*} [DecidableEq ι]

def set (s : MsgSystem ι) (i : ι) (p : MsgQueueThread) : MsgSystem ι :=
  { s with party := Function.update s.party i p }

@[simp]
theorem party_set_self (s : MsgSystem ι) (i : ι) (p : MsgQueueThread) : (s.set i p).party i = p :=
  Function.update_self ..

theorem party_set_of_ne (s : MsgSystem ι) {i j : ι} (h : j ≠ i) (p : MsgQueueThread) :
    (s.set i p).party j = s.party j :=
  Function.update_of_ne h ..

/-- A step of the `MsgQueue` of a party. -/
def onQueue (s : MsgSystem ι) (i : ι) (f : MsgQueue → MsgQueue) : MsgSystem ι :=
  s.set i { s.party i with msgQueue := f (s.party i).msgQueue }

/-- `msgsnd`, by the call at `k`. -/
def msgsnd (s : MsgSystem ι) (i : ι) (k : ℕ) (ok : Bool) : Option (MsgSystem ι) :=
  (s.party i).calls[k]?.map fun wanted =>
    let s' := s.set i { s.party i with calls := (s.party i).calls.eraseIdx k }
    if ok then { s' with
      kernel := s.kernel ++ [(s.party i).msgQueue.sendElem]
      asked := s.asked ++ [wanted]
      queued := s.queued ++ [(s.party i).msgQueue.sendElem] }
    else s'

/-- `msgrcv`. -/
def msgrcv (s : MsgSystem ι) (i : ι) : Option (MsgSystem ι) :=
  match (s.party i).msgQueue.pc with
  | .waits mtype => (TaggedQueue.receive mtype s.kernel).map fun r =>
      { s.onQueue i fun q => { q with pc := .returned r.1 } with
        kernel := r.2
        received := s.received ++ [(i, mtype, r.1)] }
  | _ => none

/-- The call of `recv_callback_`, behind which the loop starts again. -/
def callback (nLen : CInt) (s : MsgSystem ι) (i : ι) : Option (MsgSystem ι) :=
  match (s.party i).msgQueue.pc with
  | .returned mbody => ((s.party i).msgQueueRecv nLen mbody).map fun r =>
      s.set i { r.2 with msgQueue := { r.2.msgQueue with pc := .checks } }
  | _ => none

def step (nLen : CInt) (s : MsgSystem ι) : MsgAct ι → Option (MsgSystem ι)
  | .start i type spawns =>
    if (s.party i).starting then none else some (s.set i ((s.party i).start type spawns))
  | .setOwner i =>
    if (s.party i).starting then
      some ((s.set i { s.party i with starting := false }).onQueue i fun q => { q with owner := true })
    else none
  | .setSendId i type => some (s.onQueue i fun q => { q with sendId := type })
  | .setRecvId i type => some (s.onQueue i fun q => { q with recvId := type })
  | .putQueue i pMsg =>
    if pMsg.length = nLen.val.toNat then
      let q := (s.party i).msgQueue.fill pMsg (-1)
      some (s.set i { s.party i with msgQueue := q, calls := (s.party i).calls ++ [q.sendElem] })
    else none
  | .msgsnd i k ok => s.msgsnd i k ok
  | .stop i => some (s.onQueue i fun q => { q with stop := true })
  | .join i =>
    if (s.party i).msgQueue.pc = .left then some (s.onQueue i fun q => { q with pc := .idle }) else none
  | .check i =>
    if (s.party i).msgQueue.pc = .checks then some (s.onQueue i MsgQueue.check) else none
  | .msgrcv i => s.msgrcv i
  | .msgrcvFails i =>
    match (s.party i).msgQueue.pc with
    | .waits _ => some (s.onQueue i fun q => { q with pc := .checks })
    | _ => none
  | .callback i => s.callback nLen i
  | .getQueue i => some (s.set i (s.party i).getQueue.2)

/-- Parties with event queues of these lengths, over an empty message queue. -/
def machine (nLen : CInt) (nBufferLen : ι → ℤ) : Machine (MsgSystem ι) (MsgAct ι) :=
  ⟨⟨fun i => .new (nBufferLen i), [], [], [], []⟩, step nLen⟩

end MsgSystem

end Pdk.Queue
