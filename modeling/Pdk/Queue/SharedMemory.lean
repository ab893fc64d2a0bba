import Mathlib.Logic.Function.Basic
import Pdk.Foundation.Transition

/-!
# `SharedMemory<T>`

Model of `SharedMemory` in `include/sharedmemory.hpp`, for the processes that use one key. The
constructor calls `shmget` twice; `attach`, which `data()` calls once, maps the segment and
initialises the mutex at its begin if `origin_` is set; the destructor calls `unlock()` before it
unmaps the segment.

`origin_` is set in the objects that find the segment, and not in the one that creates it. So the
creator leaves the mutex as it is, and every later process initialises it again when it attaches,
whoever holds it. The bytes of a new segment are zero, which is an unlocked mutex; initialising a
mutex resets it to unlocked, and unlocking it releases it, whoever calls.
-/

namespace Pdk.Queue

open Foundation

/-! ## Objects and the segment -/

/-- `mutex_ptr_`. -/
inductive MutexPtr where
  | null
  | mapped
  -- `shmat` has failed and returned `(void*)-1`
  | bad
  deriving DecidableEq, Repr

structure SharedMemory where
  -- `shm_id_ >= 0`
  shmId : Bool
  origin : Bool
  mutexPtr : MutexPtr
  deriving DecidableEq, Repr

/-- The object of a process. -/
inductive ShmProc where
  -- there is none
  | gone
  -- in the constructor: the first `shmget` has not found, or has found, the segment
  | absent
  | present
  -- constructed; `inside` says whether the process is between `lock()` and `unlock()`
  | made (m : SharedMemory) (inside : Bool)
  deriving DecidableEq, Repr

namespace ShmProc

def inside : ShmProc → Bool
  | .made _ inside => inside
  | _ => false

def isMapped : ShmProc → Bool
  | .made m _ => decide (m.mutexPtr = .mapped)
  | _ => false

/-- `data()` will initialise the mutex. -/
def initialises : ShmProc → Bool
  | .made m _ => decide (m.mutexPtr = .null) && m.shmId && m.origin
  | _ => false

/-- The object whose constructor has created the segment. -/
def isCreator : ShmProc → Bool
  | .made m _ => m.shmId && !m.origin
  | _ => false

/-- The object has found the segment and is attached. -/
def isJoined : ShmProc → Bool
  | .made m _ => decide (m.mutexPtr = .mapped) && m.origin
  | _ => false

end ShmProc

/-- The segment: who has created it, who has initialised its mutex, in the order of the calls, and
    who holds the mutex. -/
structure ShmSegment (ι : Type*) where
  creator : ι
  inits : List ι
  holder : Option ι
  deriving DecidableEq, Repr

/-- A call on the mutex of the segment, with the state it was made in. -/
inductive MutexEvent (ι : Type*) where
  | init (i : ι) (inits : List ι) (holder : Option ι)
  | lock (i : ι) (creator : ι) (inits : List ι)
  | unlock (i : ι) (holder : Option ι)
  deriving DecidableEq, Repr

structure SharedSystem (ι : Type*) where
  segment : Option (ShmSegment ι)
  proc : ι → ShmProc
  calls : List (MutexEvent ι)

inductive SharedAct (ι : Type*) where
  -- the first and the second `shmget` of the constructor
  | construct (i : ι)
  | constructNext (i : ι)
  | data (i : ι)
  | lock (i : ι)
  | unlock (i : ι)
  -- the destructor
  | destroy (i : ι)
  deriving DecidableEq, Repr

namespace SharedSystem

variable {ι : Type*} [DecidableEq ι]

def goTo (s : SharedSystem ι) (i : ι) (p : ShmProc) : SharedSystem ι :=
  { s with proc := Function.update s.proc i p }

/-- A call on the mutex. -/
def call (s : SharedSystem ι) (segment : ShmSegment ι) (event : MutexEvent ι) : SharedSystem ι :=
  { s with segment := some segment, calls := s.calls ++ [event] }

/-- `shmget` with `IPC_CREAT | IPC_EXCL`, which fails when the segment is there by now. -/
def create (s : SharedSystem ι) (i : ι) : SharedSystem ι :=
  match s.segment with
  | none => { s with segment := some ⟨i, [], none⟩ }.goTo i (.made ⟨true, false, .null⟩ false)
  | some _ => s.goTo i (.made ⟨false, false, .null⟩ false)

/-- `attach()`. -/
def attach (s : SharedSystem ι) (i : ι) (m : SharedMemory) (inside : Bool) :
    Option (SharedSystem ι) :=
  if m.shmId = false then
    -- `pthread_mutex_init` on a bad pointer
    if m.origin then none else some (s.goTo i (.made { m with mutexPtr := .bad } inside))
  else
    match s.segment with
    | none => none
    | some segment =>
      if m.origin then
        some ((s.call { segment with inits := segment.inits ++ [i], holder := none }
          (.init i segment.inits segment.holder)).goTo i
            (.made { m with mutexPtr := .mapped } inside))
      else some (s.goTo i (.made { m with mutexPtr := .mapped } inside))

/-- `lock()`; no result while the mutex is held, or through a bad pointer. -/
def lock (s : SharedSystem ι) (i : ι) (m : SharedMemory) : Option (SharedSystem ι) :=
  match m.mutexPtr, s.segment with
  | .null, _ => some (s.goTo i (.made m true))
  | .mapped, some segment =>
    if segment.holder = none then
      some ((s.call { segment with holder := some i }
        (.lock i segment.creator segment.inits)).goTo i (.made m true))
    else none
  | _, _ => none

/-- `unlock()`, behind which the process is at `p`. -/
def unlockThen (s : SharedSystem ι) (i : ι) (m : SharedMemory) (p : ShmProc) :
    Option (SharedSystem ι) :=
  match m.mutexPtr, s.segment with
  | .null, _ => some (s.goTo i p)
  | .mapped, some segment =>
    some ((s.call { segment with holder := none } (.unlock i segment.holder)).goTo i p)
  | _, _ => none

def step (s : SharedSystem ι) : SharedAct ι → Option (SharedSystem ι)
  | .construct i =>
    match s.proc i with
    | .gone => some (s.goTo i (if s.segment.isSome then .present else .absent))
    | _ => none
  | .constructNext i =>
    match s.proc i with
    | .absent => some (s.create i)
    | .present => some (s.goTo i (.made ⟨s.segment.isSome, true, .null⟩ false))
    | _ => none
  | .data i =>
    match s.proc i with
    | .made m inside => if m.mutexPtr = .null then s.attach i m inside else some s
    | _ => none
  | .lock i =>
    match s.proc i with
    | .made m false => s.lock i m
    | _ => none
  | .unlock i =>
    match s.proc i with
    | .made m true => s.unlockThen i m (.made m false)
    | _ => none
  -- by a process that is not inside
  | .destroy i =>
    match s.proc i with
    | .made m false => s.unlockThen i m .gone
    | _ => none

/-- No segment, no object. -/
def machine (ι : Type*) [DecidableEq ι] : Machine (SharedSystem ι) (SharedAct ι) :=
  ⟨⟨none, fun _ => .gone, []⟩, step⟩

/-! ## What a step can do -/

omit [DecidableEq ι] in
/-- The process that holds the mutex. -/
def holder (s : SharedSystem ι) : Option ι :=
  s.segment.bind ShmSegment.holder

omit [DecidableEq ι] in
/-- The process that has created the segment. -/
def creator (s : SharedSystem ι) : Option ι :=
  s.segment.map ShmSegment.creator

omit [DecidableEq ι] in
/-- The processes that have initialised the mutex. -/
def inits (s : SharedSystem ι) : List ι :=
  (s.segment.map ShmSegment.inits).getD []

omit [DecidableEq ι] in
/-- A call that neither enters nor touches the mutex. -/
def Quiet (s : SharedSystem ι) : SharedAct ι → Prop
  | .lock _ => False
  | .data i => (s.proc i).initialises = false
  | .destroy i => (s.proc i).isMapped = false
  | _ => True

/-- What the steps of the system can be. -/
inductive Stepped (s : SharedSystem ι) : SharedAct ι → SharedSystem ι → Prop where
  -- the object changes, but neither does it touch the segment nor is it inside
  | moves (a : SharedAct ι) (i : ι) (p : ShmProc) (hquiet : s.Quiet a)
      (hold : (s.proc i).isMapped = false) (hinside : p.inside = (s.proc i).inside)
      (hcreator : p.isCreator = true → (s.proc i).isCreator = true)
      (hmapped : p.isMapped = true → p.isCreator = true) : Stepped s a (s.goTo i p)
  | creates (i : ι) (hnone : s.segment = none) (hproc : s.proc i = .absent) :
      Stepped s (.constructNext i)
        ({ s with segment := some ⟨i, [], none⟩ }.goTo i (.made ⟨true, false, .null⟩ false))
  | initialises (i : ι) (m : SharedMemory) (inside : Bool) (segment : ShmSegment ι)
      (hproc : s.proc i = .made m inside) (hnull : m.mutexPtr = .null) (hid : m.shmId = true)
      (horigin : m.origin = true) (hsegment : s.segment = some segment) :
      Stepped s (.data i)
        ((s.call { segment with inits := segment.inits ++ [i], holder := none }
          (.init i segment.inits segment.holder)).goTo i
            (.made { m with mutexPtr := .mapped } inside))
  -- `data()` of an object that is attached
  | stays (i : ι) (hquiet : s.Quiet (.data i)) : Stepped s (.data i) s
  | locksNothing (i : ι) (m : SharedMemory) (hproc : s.proc i = .made m false)
      (hnull : m.mutexPtr = .null) : Stepped s (.lock i) (s.goTo i (.made m true))
  | locks (i : ι) (m : SharedMemory) (segment : ShmSegment ι) (hproc : s.proc i = .made m false)
      (hmapped : m.mutexPtr = .mapped) (hsegment : s.segment = some segment)
      (hfree : segment.holder = none) :
      Stepped s (.lock i)
        ((s.call { segment with holder := some i } (.lock i segment.creator segment.inits)).goTo i
          (.made m true))
  | unlocksNothing (i : ι) (m : SharedMemory) (hproc : s.proc i = .made m true)
      (hnull : m.mutexPtr = .null) : Stepped s (.unlock i) (s.goTo i (.made m false))
  | unlocks (i : ι) (m : SharedMemory) (segment : ShmSegment ι) (hproc : s.proc i = .made m true)
      (hmapped : m.mutexPtr = .mapped) (hsegment : s.segment = some segment) :
      Stepped s (.unlock i)
        ((s.call { segment with holder := none } (.unlock i segment.holder)).goTo i (.made m false))
  | destroys (i : ι) (m : SharedMemory) (segment : ShmSegment ι) (hproc : s.proc i = .made m false)
      (hmapped : m.mutexPtr = .mapped) (hsegment : s.segment = some segment) :
      Stepped s (.destroy i)
        ((s.call { segment with holder := none } (.unlock i segment.holder)).goTo i .gone)

theorem stepped_of_attach {s s' : SharedSystem ι} {i : ι} {m : SharedMemory} {inside : Bool}
    (hproc : s.proc i = .made m inside) (hnull : m.mutexPtr = .null)
    (h : s.attach i m inside = some s') : Stepped s (.data i) s' := by
  have hold : (s.proc i).isMapped = false := by simp [hproc, ShmProc.isMapped, hnull]
  have hinside : (s.proc i).inside = inside := by rw [hproc]; rfl
  unfold attach at h
  split at h
  · rename_i hid
    split at h
    · cases h
    · cases h
      refine .moves _ i _ (by simp [Quiet, hproc, ShmProc.initialises, hid]) hold hinside.symm ?_ ?_
      · simp [ShmProc.isCreator, hid]
      · simp [ShmProc.isMapped]
  · rename_i hid
    split at h
    · cases h
    · rename_i segment hsegment
      split at h
      · rename_i horigin
        cases h
        exact .initialises i m inside segment hproc hnull (by simpa using hid) horigin hsegment
      · rename_i horigin
        cases h
        refine .moves _ i _ (by simp [Quiet, hproc, ShmProc.initialises, horigin]) hold hinside.symm
          ?_ ?_
        · rw [hproc]
          exact id
        · intro _
          simp only [ShmProc.isCreator]
          simp [hid, horigin]

/-- **Case analysis of a step.** -/
theorem stepped_of_step {s s' : SharedSystem ι} {a : SharedAct ι}
    (h : (machine ι).step s a = some s') : Stepped s a s' := by
  simp only [machine] at h
  cases a with
  | construct i =>
    simp only [step] at h
    split at h
    · rename_i hproc
      cases h
      refine .moves _ i _ trivial (by rw [hproc]; rfl) ?_ ?_ ?_
      · rw [hproc]
        split <;> rfl
      all_goals
        intro h
        split at h <;> cases h
    · cases h
  | constructNext i =>
    simp only [step] at h
    split at h
    · rename_i hproc
      cases h
      unfold create
      split
      · rename_i hnone
        exact .creates i hnone hproc
      · exact .moves _ i _ trivial (by rw [hproc]; rfl) (by rw [hproc]; rfl) nofun nofun
    · rename_i hproc
      cases h
      refine .moves _ i _ trivial (by rw [hproc]; rfl) (by rw [hproc]; rfl) ?_ nofun
      simp [ShmProc.isCreator]
    · cases h
  | data i =>
    simp only [step] at h
    split at h
    · rename_i m inside hproc
      split at h
      · rename_i hnull
        exact stepped_of_attach hproc hnull h
      · rename_i hattached
        cases h
        exact .stays i (by simp [Quiet, hproc, ShmProc.initialises, hattached])
    · cases h
  | lock i =>
    simp only [step] at h
    split at h
    · rename_i m hproc
      unfold lock at h
      split at h
      · rename_i hnull
        cases h
        exact .locksNothing i m hproc hnull
      · rename_i segment hmapped hsegment
        split at h
        · rename_i hfree
          cases h
          exact .locks i m segment hproc hmapped hsegment hfree
        · cases h
      · cases h
    · cases h
  | unlock i =>
    simp only [step] at h
    split at h
    · rename_i m hproc
      unfold unlockThen at h
      split at h
      · rename_i hnull
        cases h
        exact .unlocksNothing i m hproc hnull
      · rename_i segment hmapped hsegment
        cases h
        exact .unlocks i m segment hproc hmapped hsegment
      · cases h
    · cases h
  | destroy i =>
    simp only [step] at h
    split at h
    · rename_i m hproc
      unfold unlockThen at h
      split at h
      · rename_i hnull
        cases h
        have hold : (s.proc i).isMapped = false := by simp [hproc, ShmProc.isMapped, hnull]
        exact .moves _ i _ hold hold (by rw [hproc]; rfl) nofun nofun
      · rename_i segment hmapped hsegment
        cases h
        exact .destroys i m segment hproc hmapped hsegment
      · cases h
    · cases h

end SharedSystem

end Pdk.Queue
