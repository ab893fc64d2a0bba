import Pdk.Net.EventDefs
import Pdk.Sync.Queue
import Pdk.Sync.Thread

/-!
# `QThread`

Model of `include/qthread.hpp` and `src/qthread.cpp`: a `Thread` with an event queue. The worker
loops `while (!do_exit()) remove()` and is the only consumer of the queue; any number of producers
call `add` and `add_event` at any moment; one thread calls `create` and `close`, one call after the
other. A step is one critical section of `Thread::mutex_` or of the queue's `mutex_`.

The invocation of `thread_proc` that is executing carries its number, as in `Thread`.
-/

namespace Pdk.Sync

open Foundation
open Pdk.Net

/-! ## The object -/

/-- `CI_QUIT_THREAD`. -/
def ciQuitThread : ℕ := 0xf003

/-- The members of `EVENTINFO` that `QThread` sets. -/
structure EventInfo where
  type : ℕ
  subtype : ℕ
  -- `nMsgLen`
  length : ℤ
  value : List UInt8
  deriving DecidableEq, Repr

/-- The event that `add_event(type, stype, pValue, nLen)` builds. -/
def EventInfo.build (type subtype : ℕ) (value : List UInt8) : EventInfo :=
  ⟨type, subtype, (eventInfoHeaderLength : ℤ) + value.length, value⟩

/-- What `add_event` copies into `Value` from the address `pValue` on: nothing unless `nLen > 0`. -/
def EventInfo.copied (pValue : Option (ℕ → UInt8)) (nLen : CInt) : List UInt8 :=
  match pValue with
  | none => []
  | some bytes => (List.range nLen.val.toNat).map bytes

/-- How `add_event` fills an event. There is no result when the copy runs over the end of `Value`, or
    the length overflows. -/
def EventInfo.fill (type subtype : ℕ) (pValue : Option (ℕ → UInt8)) (nLen : CInt) :
    Option EventInfo :=
  if maxValueSize < (EventInfo.copied pValue nLen).length then none
  else (addInt32 eventInfoHeaderLength nLen.val).map fun length =>
    ⟨type, subtype, length.val, EventInfo.copied pValue nLen⟩

/-- The event of `add_quit_event`. -/
def EventInfo.quit : EventInfo :=
  .build ciQuitThread 0 []

structure QThread where
  thread : Thread
  queue : Queue EventInfo
  deriving DecidableEq, Repr

namespace QThread

/-- `QThread(nBufferLen)`. -/
def new (nBufferLen : ℤ) : QThread :=
  ⟨.new, .new nBufferLen⟩

/-- `add`: whether the event was accepted. A dropped event is only logged. -/
def add (t : QThread) (event : EventInfo) : Bool × QThread :=
  let (result, queue) := t.queue.put event
  (result = 0, { t with queue := queue })

/-- `add_event(type, stype, pValue, nLen)`. -/
def addEvent (t : QThread) (type subtype : ℕ) (pValue : Option (ℕ → UInt8)) (nLen : CInt) :
    Option (Bool × QThread) :=
  (EventInfo.fill type subtype pValue nLen).map t.add

/-- `add_event(type, stype, value)`. -/
def addEventValue (t : QThread) (type subtype : ℕ) (value : UInt32) : Bool × QThread :=
  t.add (.build type subtype (toLe 4 value.toNat))

/-- `try_remove()`. -/
def tryRemove (t : QThread) : Option EventInfo × QThread :=
  let (event, queue) := t.queue.tryGet
  (event, { t with queue := queue })

end QThread

/-! ## Worker and closer -/

/-- Where an invocation of `thread_proc` stands. -/
inductive WorkerPc where
  -- about to evaluate `do_exit()`
  | checks
  -- `do_exit()` was false: about to enter `remove()`
  | enters
  -- waiting on `cv_get_`
  | parked
  -- awakened, and about to evaluate the predicate of the wait again
  | awake
  -- `remove()` has returned
  | processes
  deriving DecidableEq, Repr

/-- Where the thread that calls `create` and `close` stands. -/
inductive CloserPc where
  | idle
  -- inside `close()`, before `close_pre`
  | closes
  -- between `close_pre` and `add_quit_event`
  | quits
  -- between `add_quit_event` and `close_post`
  | posted
  -- inside `close_post`, in the join
  | joins (worker : Option ℕ)
  -- inside `close_post`, after the join
  | resets
  deriving DecidableEq, Repr

structure QThreadSystem where
  obj : QThread
  -- the number of invocations of `thread_proc` so far, and the one that has not returned
  launched : ℕ
  worker : Option (ℕ × WorkerPc)
  closer : CloserPc
  -- since the last launch, `add_quit_event` has been called by `close`
  quitPosted : Bool
  -- the events that the worker has taken since then
  taken : ℕ
  deriving DecidableEq, Repr

inductive QThreadAct where
  -- `create`; `spawns` says whether the `jthread` can be constructed
  | create (spawns : Bool)
  -- `close()` is called
  | close
  -- the next critical section, or the end of the join, of the `close()` under way
  | next
  -- `add`, by any producer
  | add (event : EventInfo)
  -- the next step of the worker
  | work
  -- a spurious wakeup of the worker
  | wake
  deriving DecidableEq, Repr

namespace QThreadSystem

/-- `cv_get_.notify_one()`: the worker is the only one that waits. -/
def notifyOne : Option (ℕ × WorkerPc) → Option (ℕ × WorkerPc)
  | some (w, .parked) => some (w, .awake)
  | worker => worker

/-- `add` as a step: a `put` that succeeds notifies the worker. -/
def add (s : QThreadSystem) (event : EventInfo) : QThreadSystem :=
  let (accepted, obj) := s.obj.add event
  { s with obj := obj, worker := if accepted then notifyOne s.worker else s.worker }

/-- `add_quit_event`. -/
def addQuitEvent (s : QThreadSystem) : QThreadSystem :=
  s.add .quit

/-- `Thread::create`, once `closing_` is false. -/
def create (s : QThreadSystem) (spawns : Bool) : Option QThreadSystem :=
  let t := s.obj.thread
  if t.closing then none
  else if t.joinable then some s
  else if spawns then
    some { s with
      obj := { s.obj with thread := { t.refresh with thread := some (some s.launched) } }
      launched := s.launched + 1
      worker := some (s.launched, .checks)
      quitPosted := false
      taken := 0 }
  else some { s with obj := { s.obj with thread := { t.refresh with thread := none } } }

/-- The first critical section of `close_post`. -/
def closePost (s : QThreadSystem) : QThreadSystem :=
  let t := s.obj.thread
  if t.closing then { s with closer := .idle }
  else
    match t.thread with
    | none => { s with closer := .idle }
    | some worker =>
      { s with obj := { s.obj with thread := t.moveOut }, closer := .joins worker }

/-- The invocation `w` has not returned. -/
def executing (s : QThreadSystem) (w : ℕ) : Bool :=
  match s.worker with
  | some (v, _) => v = w
  | none => false

/-- The steps of `close()`. -/
def next (s : QThreadSystem) : Option QThreadSystem :=
  match s.closer with
  | .idle => none
  | .closes => some { s with obj := { s.obj with thread := s.obj.thread.closePre }, closer := .quits }
  | .quits =>
    some { s.addQuitEvent with closer := .posted, quitPosted := true, taken := 0 }
  | .posted => some s.closePost
  | .joins none => some { s with closer := .resets }
  | .joins (some w) => if s.executing w then none else some { s with closer := .resets }
  | .resets => some { s with obj := { s.obj with thread := s.obj.thread.reset }, closer := .idle }

/-- `remove()` from the moment at which the worker holds the queue's mutex. -/
def remove (s : QThreadSystem) (w : ℕ) : QThreadSystem :=
  match s.obj.queue.get with
  | some (some _, queue) =>
    { s with obj := { s.obj with queue := queue }, worker := some (w, .processes), taken := s.taken + 1 }
  | some (none, queue) => { s with obj := { s.obj with queue := queue }, worker := some (w, .processes) }
  | none => { s with worker := some (w, .parked) }

/-- The steps of the worker's loop `while (!do_exit()) remove()`. -/
def work (s : QThreadSystem) : Option QThreadSystem :=
  match s.worker with
  | none => none
  | some (w, .checks) =>
    if s.obj.thread.doExit then some { s with worker := none }
    else some { s with worker := some (w, .enters) }
  | some (w, .enters) => some (s.remove w)
  | some (_, .parked) => none
  | some (w, .awake) => some (s.remove w)
  | some (w, .processes) => some { s with worker := some (w, .checks) }

def step (s : QThreadSystem) : QThreadAct → Option QThreadSystem
  | .create spawns => if s.closer = .idle then s.create spawns else none
  | .close => if s.closer = .idle then some { s with closer := .closes } else none
  | .next => s.next
  | .add event => some (s.add event)
  | .work => s.work
  | .wake =>
    match s.worker with
    | some (w, .parked) => some { s with worker := some (w, .awake) }
    | _ => none

/-- A new `QThread` object. -/
def machine (nBufferLen : ℤ) : Machine QThreadSystem QThreadAct :=
  ⟨⟨.new nBufferLen, 0, none, .idle, false, 0⟩, step⟩

/-! ## What a step can do -/

/-- What the steps of the system can be. -/
inductive Stepped (s : QThreadSystem) : QThreadAct → QThreadSystem → Prop where
  -- `create` finds the thread running
  | already (spawns : Bool) (hidle : s.closer = .idle) : Stepped s (.create spawns) s
  | launches (hidle : s.closer = .idle) (hfree : s.obj.thread.joinable = false) :
      Stepped s (.create true) { s with
        obj := { s.obj with thread := { s.obj.thread.refresh with thread := some (some s.launched) } }
        launched := s.launched + 1
        worker := some (s.launched, .checks)
        quitPosted := false
        taken := 0 }
  -- the constructor of the `jthread` throws
  | throws (hidle : s.closer = .idle) (hfree : s.obj.thread.joinable = false) :
      Stepped s (.create false) { s with
        obj := { s.obj with thread := { s.obj.thread.refresh with thread := none } } }
  | calls (hidle : s.closer = .idle) : Stepped s .close { s with closer := .closes }
  -- `close_pre`
  | requests (hpc : s.closer = .closes) :
      Stepped s .next { s with
        obj := { s.obj with thread := s.obj.thread.closePre }
        closer := .quits }
  | posts (hpc : s.closer = .quits) :
      Stepped s .next { s.addQuitEvent with closer := .posted, quitPosted := true, taken := 0 }
  -- `close_post` finds a shutdown under way, or nothing to shut down
  | turnsBack (hpc : s.closer = .posted)
      (hwhy : s.obj.thread.closing = true ∨ s.obj.thread.thread = none) :
      Stepped s .next { s with closer := .idle }
  | movesOut (worker : Option ℕ) (hpc : s.closer = .posted)
      (hthread : s.obj.thread.thread = some worker) :
      Stepped s .next { s with
        obj := { s.obj with thread := s.obj.thread.moveOut }
        closer := .joins worker }
  | joined (worker : Option ℕ) (hpc : s.closer = .joins worker)
      (hdone : ∀ w, worker = some w → s.executing w = false) :
      Stepped s .next { s with closer := .resets }
  | resets (hpc : s.closer = .resets) :
      Stepped s .next { s with
        obj := { s.obj with thread := s.obj.thread.reset }
        closer := .idle }
  | adds (event : EventInfo) : Stepped s (.add event) (s.add event)
  -- the worker's loop
  | exits (w : ℕ) (hpc : s.worker = some (w, .checks)) (hexit : s.obj.thread.doExit = true) :
      Stepped s .work { s with worker := none }
  | stays (w : ℕ) (hpc : s.worker = some (w, .checks)) (hexit : s.obj.thread.doExit = false) :
      Stepped s .work { s with worker := some (w, .enters) }
  | removes (w : ℕ) (hpc : s.worker = some (w, .enters) ∨ s.worker = some (w, .awake)) :
      Stepped s .work (s.remove w)
  | loops (w : ℕ) (hpc : s.worker = some (w, .processes)) :
      Stepped s .work { s with worker := some (w, .checks) }
  | wakes (w : ℕ) (hpc : s.worker = some (w, .parked)) :
      Stepped s .wake { s with worker := some (w, .awake) }

theorem stepped_of_create {s s' : QThreadSystem} {spawns : Bool} (hidle : s.closer = .idle)
    (h : s.create spawns = some s') : Stepped s (.create spawns) s' := by
  unfold create at h
  simp only at h
  split at h
  · cases h
  · split at h
    · cases h
      exact .already spawns hidle
    · rename_i hfree
      cases spawns with
      | true =>
        cases h
        exact .launches hidle (by simpa using hfree)
      | false =>
        cases h
        exact .throws hidle (by simpa using hfree)

theorem stepped_of_closePost {s : QThreadSystem} (hpc : s.closer = .posted) :
    Stepped s .next s.closePost := by
  unfold closePost
  simp only
  split
  · rename_i hclosing
    exact .turnsBack hpc (.inl hclosing)
  · split
    · rename_i hnone
      exact .turnsBack hpc (.inr hnone)
    · rename_i worker hsome
      exact .movesOut worker hpc hsome

theorem stepped_of_next {s s' : QThreadSystem} (h : s.next = some s') : Stepped s .next s' := by
  unfold next at h
  split at h
  · cases h
  · rename_i hpc
    cases h
    exact .requests hpc
  · rename_i hpc
    cases h
    exact .posts hpc
  · rename_i hpc
    cases h
    exact stepped_of_closePost hpc
  · rename_i hpc
    cases h
    exact .joined none hpc nofun
  · rename_i w hpc
    split at h
    · cases h
    · rename_i hdone
      cases h
      refine .joined (some w) hpc ?_
      rintro _ ⟨⟩
      simpa using hdone
  · rename_i hpc
    cases h
    exact .resets hpc

theorem stepped_of_work {s s' : QThreadSystem} (h : s.work = some s') : Stepped s .work s' := by
  unfold work at h
  split at h
  · cases h
  · rename_i w hpc
    split at h
    · rename_i hexit
      cases h
      exact .exits w hpc hexit
    · rename_i hexit
      cases h
      exact .stays w hpc (by simpa using hexit)
  · rename_i w hpc
    cases h
    exact .removes w (.inl hpc)
  · cases h
  · rename_i w hpc
    cases h
    exact .removes w (.inr hpc)
  · rename_i w hpc
    cases h
    exact .loops w hpc

/-- **Case analysis of a step.** -/
theorem stepped_of_step {nBufferLen : ℤ} {s s' : QThreadSystem} {a : QThreadAct}
    (h : (machine nBufferLen).step s a = some s') : Stepped s a s' := by
  simp only [machine] at h
  cases a with
  | create spawns =>
    simp only [step] at h
    split at h
    · rename_i hidle
      exact stepped_of_create hidle h
    · cases h
  | close =>
    simp only [step] at h
    split at h
    · rename_i hidle
      cases h
      exact .calls hidle
    · cases h
  | next => exact stepped_of_next h
  | add event =>
    cases h
    exact .adds event
  | work => exact stepped_of_work h
  | wake =>
    simp only [step] at h
    split at h
    · rename_i w hpc
      cases h
      exact .wakes w hpc
    · cases h

end QThreadSystem

end Pdk.Sync
