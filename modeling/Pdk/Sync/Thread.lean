import Mathlib.Logic.Function.Basic
import Pdk.Foundation.Transition

/-!
# `Thread`

Model of the lifecycle of `Thread` in `include/jthread.hpp` and `src/jthread.cpp`. The members
`thread_`, `stop_source_` and `closing_` are used under `mutex_` only, so that a step is one
critical section; `close_post` has two of them, with the join in between. The join waits for the
worker that was moved out. Any number of threads other than the worker call `create`, `close`,
`close_pre` and `close_post`, and `thread_proc` may return at any moment.

Invocations of `thread_proc` are numbered in the order in which they are launched.
-/

namespace Pdk.Sync

open Foundation

/-! ## The object -/

/-- `std::stop_source`: which one it is, and whether stop was requested on it. -/
structure StopSource where
  id : ℕ
  requested : Bool
  deriving DecidableEq, Repr

/-- The lifecycle members of `Thread`. A `jthread` is the worker it can join, or none after it was
    moved from. -/
structure Thread where
  -- `std::optional<std::jthread>`
  thread : Option (Option ℕ)
  stopSource : StopSource
  closing : Bool
  deriving DecidableEq, Repr

namespace Thread

/-- `Thread()`. -/
def new : Thread :=
  ⟨none, ⟨0, false⟩, false⟩

/-- `thread_ && thread_->joinable()`. -/
def joinable (t : Thread) : Bool :=
  match t.thread with
  | some (some _) => true
  | _ => false

/-- `do_exit()`. -/
def doExit (t : Thread) : Bool :=
  t.stopSource.requested

/-- `close_pre()`. -/
def closePre (t : Thread) : Thread :=
  { t with stopSource := { t.stopSource with requested := true } }

/-- `create` replaces a stop source on which stop was requested. -/
def refresh (t : Thread) : Thread :=
  if t.stopSource.requested then { t with stopSource := ⟨t.stopSource.id + 1, false⟩ } else t

/-- The first critical section of `close_post` when it does not return: the `jthread` is moved
    out. -/
def moveOut (t : Thread) : Thread :=
  { t with closing := true, thread := some none }

/-- The second critical section of `close_post`. -/
def reset (t : Thread) : Thread :=
  { t with thread := none, closing := false }

end Thread

/-! ## Callers and workers -/

/-- Where a caller stands. A `close()` call remembers the invocations of `thread_proc` that were
    executing when it began; `close_post` called by itself does not. -/
inductive ThreadPc where
  | idle
  -- inside `close()`, before `close_pre`
  | closes (atCall : List ℕ)
  -- inside `close()`, between `close_pre` and `close_post`
  | between (atCall : List ℕ)
  -- inside `close_post`, in the join
  | joins (caller : Option (List ℕ)) (worker : Option ℕ)
  -- inside `close_post`, after the join
  | resets (caller : Option (List ℕ))
  deriving DecidableEq, Repr

/-- A `close()` call that has returned: the invocations that were executing when it began and when
    it returned. -/
structure CloseEvent where
  atCall : List ℕ
  atReturn : List ℕ
  deriving DecidableEq, Repr

/-- A `jthread` that `close_post` has moved out, and whether stop was requested at that moment. -/
structure MoveEvent where
  worker : Option ℕ
  requested : Bool
  deriving DecidableEq, Repr

structure ThreadSystem (ι : Type*) where
  obj : Thread
  -- the number of invocations so far, and those that have not returned
  launched : ℕ
  executing : List ℕ
  pc : ι → ThreadPc
  closed : List CloseEvent
  moved : List MoveEvent

inductive ThreadAct (ι : Type*) where
  -- `create`, which `start` calls; `spawns` says whether the `jthread` can be constructed
  | create (i : ι) (spawns : Bool)
  | close (i : ι)
  | closePre (i : ι)
  | closePost (i : ι)
  -- the next critical section, or the end of the join, of the call that `i` is in
  | next (i : ι)
  -- `thread_proc` returns
  | workerReturns (w : ℕ)

namespace ThreadSystem

variable {ι : Type*} [DecidableEq ι]

def goTo (s : ThreadSystem ι) (i : ι) (pc : ThreadPc) : ThreadSystem ι :=
  { s with pc := Function.update s.pc i pc }

/-- `Thread::create`, once `closing_` is false. -/
def create (s : ThreadSystem ι) (spawns : Bool) : Option (ThreadSystem ι) :=
  if s.obj.closing then none
  else if s.obj.joinable then some s
  else if spawns then
    some { s with
      obj := { s.obj.refresh with thread := some (some s.launched) }
      launched := s.launched + 1
      executing := s.executing ++ [s.launched] }
  else some { s with obj := { s.obj.refresh with thread := none } }

/-- `close_post` returns, and with it the `close()` that called it. -/
def finish (s : ThreadSystem ι) (i : ι) (caller : Option (List ℕ)) : ThreadSystem ι :=
  match caller with
  | some atCall => { s with closed := s.closed ++ [CloseEvent.mk atCall s.executing] }.goTo i .idle
  | none => s.goTo i .idle

/-- The first critical section of `close_post`. -/
def closePost (s : ThreadSystem ι) (i : ι) (caller : Option (List ℕ)) : ThreadSystem ι :=
  if s.obj.closing then s.finish i caller
  else
    match s.obj.thread with
    | none => s.finish i caller
    | some worker =>
      { s with
        obj := s.obj.moveOut
        moved := s.moved ++ [MoveEvent.mk worker s.obj.doExit] }.goTo i (.joins caller worker)

/-- The steps of a call after the first one. -/
def proceed (s : ThreadSystem ι) (i : ι) : Option (ThreadSystem ι) :=
  match s.pc i with
  | .idle => none
  | .closes atCall => some ({ s with obj := s.obj.closePre }.goTo i (.between atCall))
  | .between atCall => some (s.closePost i (some atCall))
  | .joins caller none => some (s.goTo i (.resets caller))
  | .joins caller (some w) =>
    if w ∈ s.executing then none else some (s.goTo i (.resets caller))
  | .resets caller => some ({ s with obj := s.obj.reset }.finish i caller)

def step (s : ThreadSystem ι) : ThreadAct ι → Option (ThreadSystem ι)
  | .create i spawns => if s.pc i = .idle then s.create spawns else none
  | .close i => if s.pc i = .idle then some (s.goTo i (.closes s.executing)) else none
  | .closePre i => if s.pc i = .idle then some { s with obj := s.obj.closePre } else none
  | .closePost i => if s.pc i = .idle then some (s.closePost i none) else none
  | .next i => s.proceed i
  | .workerReturns w =>
    if w ∈ s.executing then some { s with executing := s.executing.erase w } else none

/-- A new `Thread` object. -/
def machine (ι : Type*) [DecidableEq ι] : Machine (ThreadSystem ι) (ThreadAct ι) :=
  ⟨⟨.new, 0, [], fun _ => .idle, [], []⟩, step⟩

/-! ## What a step can do -/

/-- The step `a` is the first critical section of `close_post`, called by itself or by `close`. -/
inductive Enters (s : ThreadSystem ι) : ThreadAct ι → ι → Option (List ℕ) → Prop where
  | alone (i : ι) (hpc : s.pc i = .idle) : Enters s (.closePost i) i none
  | inClose (i : ι) (atCall : List ℕ) (hpc : s.pc i = .between atCall) :
      Enters s (.next i) i (some atCall)

/-- What the steps of the system can be. -/
inductive Stepped (s : ThreadSystem ι) : ThreadAct ι → ThreadSystem ι → Prop where
  -- `create` finds the thread running
  | already (i : ι) (spawns : Bool) (hopen : s.obj.closing = false)
      (hjoinable : s.obj.joinable = true) : Stepped s (.create i spawns) s
  | launches (i : ι) (hopen : s.obj.closing = false) (hfree : s.obj.joinable = false) :
      Stepped s (.create i true) { s with
        obj := { s.obj.refresh with thread := some (some s.launched) }
        launched := s.launched + 1
        executing := s.executing ++ [s.launched] }
  -- the constructor of the `jthread` throws
  | throws (i : ι) (hopen : s.obj.closing = false) (hfree : s.obj.joinable = false) :
      Stepped s (.create i false) { s with obj := { s.obj.refresh with thread := none } }
  | calls (i : ι) (hpc : s.pc i = .idle) :
      Stepped s (.close i) (s.goTo i (.closes s.executing))
  -- `close_pre`, by itself or inside `close`
  | requests (i : ι) (hpc : s.pc i = .idle) :
      Stepped s (.closePre i) { s with obj := s.obj.closePre }
  | requestsFor (i : ι) (atCall : List ℕ) (hpc : s.pc i = .closes atCall) :
      Stepped s (.next i) ({ s with obj := s.obj.closePre }.goTo i (.between atCall))
  -- `close_post` finds a shutdown under way, or nothing to shut down
  | turnsBack (a : ThreadAct ι) (i : ι) (caller : Option (List ℕ)) (ha : Enters s a i caller)
      (hwhy : s.obj.closing = true ∨ s.obj.thread = none) : Stepped s a (s.finish i caller)
  | movesOut (a : ThreadAct ι) (i : ι) (caller : Option (List ℕ)) (worker : Option ℕ)
      (ha : Enters s a i caller) (hopen : s.obj.closing = false) (hthread : s.obj.thread = some worker) :
      Stepped s a ({ s with
        obj := s.obj.moveOut
        moved := s.moved ++ [MoveEvent.mk worker s.obj.doExit] }.goTo i (.joins caller worker))
  | joined (i : ι) (caller : Option (List ℕ)) (worker : Option ℕ)
      (hpc : s.pc i = .joins caller worker) (hdone : ∀ w, worker = some w → w ∉ s.executing) :
      Stepped s (.next i) (s.goTo i (.resets caller))
  | resets (i : ι) (caller : Option (List ℕ)) (hpc : s.pc i = .resets caller) :
      Stepped s (.next i) ({ s with obj := s.obj.reset }.finish i caller)
  | workerReturns (w : ℕ) (hw : w ∈ s.executing) :
      Stepped s (.workerReturns w) { s with executing := s.executing.erase w }

theorem stepped_of_create {s s' : ThreadSystem ι} {i : ι} {spawns : Bool}
    (h : s.create spawns = some s') : Stepped s (.create i spawns) s' := by
  unfold create at h
  split at h
  · cases h
  · rename_i hopen
    split at h
    · rename_i hjoinable
      cases h
      exact .already i spawns (by simpa using hopen) hjoinable
    · rename_i hfree
      split at h
      · rename_i hspawns
        subst hspawns
        cases h
        exact .launches i (by simpa using hopen) (by simpa using hfree)
      · rename_i hspawns
        obtain rfl : spawns = false := by simpa using hspawns
        cases h
        exact .throws i (by simpa using hopen) (by simpa using hfree)

theorem stepped_of_closePost {s : ThreadSystem ι} {a : ThreadAct ι} {i : ι}
    {caller : Option (List ℕ)} (ha : Enters s a i caller) : Stepped s a (s.closePost i caller) := by
  unfold closePost
  split
  · rename_i hclosing
    exact .turnsBack a i caller ha (.inl hclosing)
  · rename_i hopen
    split
    · rename_i hnone
      exact .turnsBack a i caller ha (.inr hnone)
    · rename_i worker hsome
      exact .movesOut a i caller worker ha (by simpa using hopen) hsome

theorem stepped_of_proceed {s s' : ThreadSystem ι} {i : ι} (h : s.proceed i = some s') :
    Stepped s (.next i) s' := by
  unfold proceed at h
  split at h
  · cases h
  · rename_i atCall hpc
    cases h
    exact .requestsFor i atCall hpc
  · rename_i atCall hpc
    cases h
    exact stepped_of_closePost (.inClose i atCall hpc)
  · rename_i caller hpc
    cases h
    exact .joined i caller none hpc nofun
  · rename_i caller w hpc
    split at h
    · cases h
    · rename_i hdone
      cases h
      refine .joined i caller (some w) hpc ?_
      rintro _ ⟨⟩
      exact hdone
  · rename_i caller hpc
    cases h
    exact .resets i caller hpc

/-- **Case analysis of a step.** -/
theorem stepped_of_step {s s' : ThreadSystem ι} {a : ThreadAct ι}
    (h : (machine ι).step s a = some s') : Stepped s a s' := by
  simp only [machine] at h
  cases a with
  | create i spawns =>
    simp only [step] at h
    split at h
    · exact stepped_of_create h
    · cases h
  | close i =>
    simp only [step] at h
    split at h
    · rename_i hpc
      cases h
      exact .calls i hpc
    · cases h
  | closePre i =>
    simp only [step] at h
    split at h
    · rename_i hpc
      cases h
      exact .requests i hpc
    · cases h
  | closePost i =>
    simp only [step] at h
    split at h
    · rename_i hpc
      cases h
      exact stepped_of_closePost (.alone i hpc)
    · cases h
  | next i => exact stepped_of_proceed h
  | workerReturns w =>
    simp only [step] at h
    split at h
    · rename_i hw
      cases h
      exact .workerReturns w hw
    · cases h

end ThreadSystem

end Pdk.Sync
