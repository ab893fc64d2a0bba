import Pdk.Foundation.Transition
import Pdk.Foundation.BoundedFifo
import Pdk.Foundation.Ring
import Pdk.Sync.Semaphore

/-!
# `CircularQueue<TYPE, MAX>`

Model of the ring queue of `include/util.hpp`: `MAX` nodes of which one is always free, two
counting semaphores that reserve slots, and a mutex that serialises the use of the indices.

A call of `put`, `try_put`, `get`, `try_get` or `get_timed` is a sequence of atomic steps: it
acquires a token, runs the critical section, and releases a token of the other semaphore; if the
critical section finds the ring full (or empty), the call gives its own token back while it still
owns the mutex. `unlock_queue` adds one token to each semaphore.
-/

namespace Pdk.Queue

open Foundation
open Pdk.Sync

structure QNode (T : Type*) where
  data : T
  inUse : Bool

/-- `CircularQueue<TYPE, MAX>`. The zero of `T` stands for the value of cleared memory. -/
structure CircularQueue (T : Type*) (MAX : ℕ) where
  nodes : Vector (QNode T) MAX
  front : ℕ
  rear : ℕ
  semPut : Semaphore
  semGet : Semaphore

/-- Return codes. -/
inductive QNodeCode where
  | success
  | bufferFull
  | bufferEmpty
  deriving DecidableEq, Repr

namespace CircularQueue

variable {T : Type*} [Zero T] {MAX : ℕ}

/-- `CircularQueue::initialize`. -/
def initializeQueue (q : CircularQueue T MAX) : CircularQueue T MAX :=
  ⟨Vector.replicate MAX ⟨0, false⟩, 0, 0, q.semPut.resetCount (MAX - 1), q.semGet.resetCount 0⟩

/-- The constructor: the initialisers of the members, then `initialize`. -/
def new (T : Type*) [Zero T] (MAX : ℕ) : CircularQueue T MAX :=
  initializeQueue ⟨Vector.replicate MAX ⟨0, false⟩, 0, 0, ⟨MAX - 1⟩, ⟨0⟩⟩

/-- The number of entries from `front_` to `rear_`. -/
def length (q : CircularQueue T MAX) : ℕ :=
  (q.rear + MAX - q.front) % MAX

/-- The value of a slot whose `in_use_` is set. -/
def slot (q : CircularQueue T MAX) (i : ℕ) : Option T :=
  match q.nodes[i]? with
  | some node => if node.inUse then some node.data else none
  | none => none

/-- The ring contents from `front_` to `rear_`. -/
def contents (q : CircularQueue T MAX) : List T :=
  Ring.contents q.slot MAX q.front q.length

/-- The test `next_rear == front_`. -/
def isFull (q : CircularQueue T MAX) : Prop :=
  (q.rear + 1) % MAX = q.front

/-- The test `front_ == rear_`. -/
def isEmpty (q : CircularQueue T MAX) : Prop :=
  q.front = q.rear

instance (q : CircularQueue T MAX) : Decidable q.isFull :=
  inferInstanceAs (Decidable (_ = _))

instance (q : CircularQueue T MAX) : Decidable q.isEmpty :=
  inferInstanceAs (Decidable (_ = _))

/-- The critical section of `put_impl` on a ring that is not full: copy, mark, publish. -/
def store (q : CircularQueue T MAX) (v : T) : CircularQueue T MAX :=
  { q with
    nodes := q.nodes.setIfInBounds q.rear ⟨v, true⟩
    rear := (q.rear + 1) % MAX }

/-- What the critical section of `get_impl` copies out. -/
def frontData (q : CircularQueue T MAX) : T :=
  match q.nodes[q.front]? with
  | some node => node.data
  | none => 0

/-- The critical section of `get_impl` on a ring that is not empty: clear, unmark, advance. -/
def remove (q : CircularQueue T MAX) : CircularQueue T MAX :=
  { q with
    nodes := q.nodes.setIfInBounds q.front ⟨0, false⟩
    front := (q.front + 1) % MAX }

end CircularQueue

/-! ## Threads -/

inductive CircularOp (T : Type*) where
  | put (v : T)
  | tryPut (v : T)
  | get
  | tryGet
  | getTimed (timeoutMs : ℤ)
  | unlockQueue

namespace CircularOp

variable {T : Type*}

def isPut : CircularOp T → Bool
  | .put _ | .tryPut _ => true
  | _ => false

def isGet : CircularOp T → Bool
  | .get | .tryGet | .getTimed _ => true
  | _ => false

/-- Calls that wait until a token is there: `get_timed` does so for a timeout that is not
    positive. -/
def isBlocking : CircularOp T → Bool
  | .put _ | .get => true
  | .getTimed timeoutMs => decide (timeoutMs ≤ 0)
  | _ => false

end CircularOp

/-- The points between the atomic steps of a call. -/
inductive CircularPoint where
  -- holds its token and is about to enter the critical section
  | holds
  -- owns `crit_sec_` and is about to give its token back
  | undoes
  -- has left the critical section and is about to release the other semaphore
  | left
  deriving DecidableEq, Repr

inductive CircularPc (T : Type*) where
  | idle
  | inside (op : CircularOp T) (point : CircularPoint)

/-- A call that has returned a code. -/
structure CircularEvent (T : Type*) (ι : Type*) where
  thread : ι
  op : CircularOp T
  code : QNodeCode

/-- The queue with the threads that use it. -/
structure CircularSystem (T : Type*) (MAX : ℕ) (ι : Type*) where
  q : CircularQueue T MAX
  /-- The owner of `crit_sec_` across steps. -/
  critSec : Option ι
  pc : ι → CircularPc T
  log : List (CircularEvent T ι)
  /-- What the critical sections did, in the order in which they were executed. -/
  sections : List (FifoAct T)

inductive CircularAct (T : Type*) (ι : Type*) where
  -- the first atomic step of a call
  | call (i : ι) (op : CircularOp T)
  -- the next atomic step of the call that `i` is in
  | next (i : ι)

def CircularAct.thread {T ι : Type*} : CircularAct T ι → ι
  | .call i _ => i
  | .next i => i

namespace CircularSystem

variable {T : Type*} [Zero T] {MAX : ℕ} {ι : Type*} [DecidableEq ι]

/-- `i` moves to another point. -/
def move (s : CircularSystem T MAX ι) (i : ι) (pc : CircularPc T) : CircularSystem T MAX ι :=
  { s with pc := Function.update s.pc i pc }

/-- The call of `i` returns. -/
def finish (s : CircularSystem T MAX ι) (i : ι) (op : CircularOp T) (code : QNodeCode) :
    CircularSystem T MAX ι :=
  { s with pc := Function.update s.pc i .idle, log := s.log ++ [⟨i, op, code⟩] }

/-- The semaphore acquisition at the start of `put_impl`. -/
def putAcquire (s : CircularSystem T MAX ι) (i : ι) (op : CircularOp T) :
    Option (CircularSystem T MAX ι) :=
  match s.q.semPut.wait with
  | some sem => some ({ s with q := { s.q with semPut := sem } }.move i (.inside op .holds))
  | none => if op.isBlocking then none else some (s.finish i op .bufferFull)

/-- The critical section of `put_impl`. -/
def putSection (s : CircularSystem T MAX ι) (i : ι) (op : CircularOp T) (v : T) :
    Option (CircularSystem T MAX ι) :=
  if s.critSec ≠ none then none
  else if s.q.isFull then
    some ({ s with critSec := some i, sections := s.sections ++ [FifoAct.offer v false] }.move i
      (.inside op .undoes))
  else
    some ({ s with q := s.q.store v, sections := s.sections ++ [FifoAct.offer v true] }.move i
      (.inside op .left))

/-- The semaphore acquisition at the start of `get_impl`. -/
def getAcquire (s : CircularSystem T MAX ι) (i : ι) (op : CircularOp T) :
    Option (CircularSystem T MAX ι) :=
  match s.q.semGet.wait with
  | some sem => some ({ s with q := { s.q with semGet := sem } }.move i (.inside op .holds))
  | none => if op.isBlocking then none else some (s.finish i op .bufferEmpty)

/-- The critical section of `get_impl`. -/
def getSection (s : CircularSystem T MAX ι) (i : ι) (op : CircularOp T) :
    Option (CircularSystem T MAX ι) :=
  if s.critSec ≠ none then none
  else if s.q.isEmpty then
    some ({ s with critSec := some i, sections := s.sections ++ [FifoAct.poll none] }.move i
      (.inside op .undoes))
  else
    some ({ s with
      q := s.q.remove
      sections := s.sections ++ [FifoAct.poll (some s.q.frontData)] }.move i (.inside op .left))

/-- A token of `sem_put_` is released. -/
def signalPut (s : CircularSystem T MAX ι) : CircularSystem T MAX ι :=
  { s with q := { s.q with semPut := s.q.semPut.signal } }

/-- A token of `sem_get_` is released. -/
def signalGet (s : CircularSystem T MAX ι) : CircularSystem T MAX ι :=
  { s with q := { s.q with semGet := s.q.semGet.signal } }

/-- The first step of a call. -/
def start (s : CircularSystem T MAX ι) (i : ι) (op : CircularOp T) :
    Option (CircularSystem T MAX ι) :=
  match op with
  | .put _ | .tryPut _ => s.putAcquire i op
  | .get | .tryGet | .getTimed _ => s.getAcquire i op
  | .unlockQueue => some (s.signalPut.move i (.inside op .left))

/-- The steps of a call after the first one. -/
def proceed (s : CircularSystem T MAX ι) (i : ι) (op : CircularOp T) (point : CircularPoint) :
    Option (CircularSystem T MAX ι) :=
  match op, point with
  | .put v, .holds | .tryPut v, .holds => s.putSection i op v
  | .put _, .undoes | .tryPut _, .undoes =>
    some ({ s.signalPut with critSec := none }.finish i op .bufferFull)
  | .put _, .left | .tryPut _, .left => some (s.signalGet.finish i op .success)
  | .get, .holds | .tryGet, .holds | .getTimed _, .holds => s.getSection i op
  | .get, .undoes | .tryGet, .undoes | .getTimed _, .undoes =>
    some ({ s.signalGet with critSec := none }.finish i op .bufferEmpty)
  | .get, .left | .tryGet, .left | .getTimed _, .left => some (s.signalPut.finish i op .success)
  | .unlockQueue, .left => some (s.signalGet.move i .idle)
  | .unlockQueue, .holds | .unlockQueue, .undoes => none

def step (s : CircularSystem T MAX ι) : CircularAct T ι → Option (CircularSystem T MAX ι)
  | .call i op =>
    match s.pc i with
    | .idle => s.start i op
    | .inside _ _ => none
  | .next i =>
    match s.pc i with
    | .idle => none
    | .inside op point => s.proceed i op point

/-- The queue after construction, with no call under way. -/
def machine (T : Type*) [Zero T] (MAX : ℕ) (ι : Type*) [DecidableEq ι] :
    Machine (CircularSystem T MAX ι) (CircularAct T ι) :=
  ⟨⟨.new T MAX, none, fun _ => .idle, [], []⟩, step⟩

/-! ## What a step can do

Every proof about the system starts from this case analysis. -/

/-- What the steps of the system can be. -/
inductive Stepped (s : CircularSystem T MAX ι) :
    CircularAct T ι → CircularSystem T MAX ι → Prop where
  -- a producer or a consumer takes a token
  | acquirePut (i : ι) (op : CircularOp T) (sem : Semaphore) (hpc : s.pc i = .idle)
      (hop : op.isPut = true) (hwait : s.q.semPut.wait = some sem) :
      Stepped s (.call i op) ({ s with q := { s.q with semPut := sem } }.move i (.inside op .holds))
  | acquireGet (i : ι) (op : CircularOp T) (sem : Semaphore) (hpc : s.pc i = .idle)
      (hop : op.isGet = true) (hwait : s.q.semGet.wait = some sem) :
      Stepped s (.call i op) ({ s with q := { s.q with semGet := sem } }.move i (.inside op .holds))
  -- there is no token, and the call does not wait for one
  | refused (i : ι) (op : CircularOp T) (code : QNodeCode) (hpc : s.pc i = .idle)
      (hblock : op.isBlocking = false) (hcode : code ≠ .success) :
      Stepped s (.call i op) (s.finish i op code)
  -- the critical section of a producer
  | full (i : ι) (op : CircularOp T) (v : T) (hpc : s.pc i = .inside op .holds)
      (hop : op.isPut = true) (hcrit : s.critSec = none) (hfull : s.q.isFull) :
      Stepped s (.next i) ({ s with
        critSec := some i
        sections := s.sections ++ [FifoAct.offer v false] }.move i (.inside op .undoes))
  | store (i : ι) (op : CircularOp T) (v : T) (hpc : s.pc i = .inside op .holds)
      (hop : op.isPut = true) (hcrit : s.critSec = none) (hroom : ¬s.q.isFull) :
      Stepped s (.next i) ({ s with
        q := s.q.store v
        sections := s.sections ++ [FifoAct.offer v true] }.move i (.inside op .left))
  -- the critical section of a consumer
  | empty (i : ι) (op : CircularOp T) (hpc : s.pc i = .inside op .holds) (hop : op.isGet = true)
      (hcrit : s.critSec = none) (hempty : s.q.isEmpty) :
      Stepped s (.next i) ({ s with
        critSec := some i
        sections := s.sections ++ [FifoAct.poll none] }.move i (.inside op .undoes))
  | remove (i : ι) (op : CircularOp T) (hpc : s.pc i = .inside op .holds) (hop : op.isGet = true)
      (hcrit : s.critSec = none) (hsome : ¬s.q.isEmpty) :
      Stepped s (.next i) ({ s with
        q := s.q.remove
        sections := s.sections ++ [FifoAct.poll (some s.q.frontData)] }.move i
        (.inside op .left))
  -- a token is given back under the mutex
  | undoPut (i : ι) (op : CircularOp T) (hpc : s.pc i = .inside op .undoes)
      (hop : op.isPut = true) :
      Stepped s (.next i) ({ s.signalPut with critSec := none }.finish i op .bufferFull)
  | undoGet (i : ι) (op : CircularOp T) (hpc : s.pc i = .inside op .undoes)
      (hop : op.isGet = true) :
      Stepped s (.next i) ({ s.signalGet with critSec := none }.finish i op .bufferEmpty)
  -- the token of the other side is released
  | donePut (i : ι) (op : CircularOp T) (hpc : s.pc i = .inside op .left) (hop : op.isPut = true) :
      Stepped s (.next i) (s.signalGet.finish i op .success)
  | doneGet (i : ι) (op : CircularOp T) (hpc : s.pc i = .inside op .left) (hop : op.isGet = true) :
      Stepped s (.next i) (s.signalPut.finish i op .success)
  -- the two halves of `unlock_queue`
  | unlockPut (i : ι) (hpc : s.pc i = .idle) :
      Stepped s (.call i .unlockQueue) (s.signalPut.move i (.inside .unlockQueue .left))
  | unlockGet (i : ι) (hpc : s.pc i = .inside .unlockQueue .left) :
      Stepped s (.next i) (s.signalGet.move i .idle)

theorem stepped_of_putAcquire {s s' : CircularSystem T MAX ι} {i : ι} {op : CircularOp T}
    (hpc : s.pc i = .idle) (hop : op.isPut = true) (h : s.putAcquire i op = some s') :
    Stepped s (.call i op) s' := by
  unfold putAcquire at h
  split at h
  · rename_i sem hwait
    cases h
    exact .acquirePut i op sem hpc hop hwait
  · split at h
    · cases h
    · rename_i hblock
      cases h
      exact .refused i op .bufferFull hpc (by simpa using hblock) nofun

theorem stepped_of_getAcquire {s s' : CircularSystem T MAX ι} {i : ι} {op : CircularOp T}
    (hpc : s.pc i = .idle) (hop : op.isGet = true) (h : s.getAcquire i op = some s') :
    Stepped s (.call i op) s' := by
  unfold getAcquire at h
  split at h
  · rename_i sem hwait
    cases h
    exact .acquireGet i op sem hpc hop hwait
  · split at h
    · cases h
    · rename_i hblock
      cases h
      exact .refused i op .bufferEmpty hpc (by simpa using hblock) nofun

theorem stepped_of_putSection {s s' : CircularSystem T MAX ι} {i : ι} {op : CircularOp T} {v : T}
    (hpc : s.pc i = .inside op .holds) (hop : op.isPut = true)
    (h : s.putSection i op v = some s') : Stepped s (.next i) s' := by
  unfold putSection at h
  split at h
  · cases h
  · rename_i hcrit
    split at h
    · rename_i hfull
      cases h
      exact .full i op v hpc hop (by simpa using hcrit) hfull
    · rename_i hroom
      cases h
      exact .store i op v hpc hop (by simpa using hcrit) hroom

theorem stepped_of_getSection {s s' : CircularSystem T MAX ι} {i : ι} {op : CircularOp T}
    (hpc : s.pc i = .inside op .holds) (hop : op.isGet = true)
    (h : s.getSection i op = some s') : Stepped s (.next i) s' := by
  unfold getSection at h
  split at h
  · cases h
  · rename_i hcrit
    split at h
    · rename_i hempty
      cases h
      exact .empty i op hpc hop (by simpa using hcrit) hempty
    · rename_i hsome
      cases h
      exact .remove i op hpc hop (by simpa using hcrit) hsome

theorem stepped_of_proceed {s s' : CircularSystem T MAX ι} {i : ι} {op : CircularOp T}
    {point : CircularPoint} (hpc : s.pc i = .inside op point)
    (h : s.proceed i op point = some s') : Stepped s (.next i) s' := by
  unfold proceed at h
  split at h
  · exact stepped_of_putSection hpc rfl h
  · exact stepped_of_putSection hpc rfl h
  · cases h
    exact .undoPut i _ hpc rfl
  · cases h
    exact .undoPut i _ hpc rfl
  · cases h
    exact .donePut i _ hpc rfl
  · cases h
    exact .donePut i _ hpc rfl
  · exact stepped_of_getSection hpc rfl h
  · exact stepped_of_getSection hpc rfl h
  · exact stepped_of_getSection hpc rfl h
  · cases h
    exact .undoGet i _ hpc rfl
  · cases h
    exact .undoGet i _ hpc rfl
  · cases h
    exact .undoGet i _ hpc rfl
  · cases h
    exact .doneGet i _ hpc rfl
  · cases h
    exact .doneGet i _ hpc rfl
  · cases h
    exact .doneGet i _ hpc rfl
  · cases h
    exact .unlockGet i hpc
  · cases h
  · cases h

/-- **Case analysis of a step.** -/
theorem stepped_of_step {s s' : CircularSystem T MAX ι} {a : CircularAct T ι}
    (h : (machine T MAX ι).step s a = some s') : Stepped s a s' := by
  simp only [machine] at h
  cases a with
  | call i op =>
    simp only [step] at h
    split at h
    · rename_i hidle
      cases op with
      | put v => exact stepped_of_putAcquire hidle rfl h
      | tryPut v => exact stepped_of_putAcquire hidle rfl h
      | get => exact stepped_of_getAcquire hidle rfl h
      | tryGet => exact stepped_of_getAcquire hidle rfl h
      | getTimed timeoutMs => exact stepped_of_getAcquire hidle rfl h
      | unlockQueue =>
        cases h
        exact .unlockPut i hidle
    · cases h
  | next i =>
    simp only [step] at h
    split at h
    · cases h
    · rename_i op point hpc
      exact stepped_of_proceed hpc h

end CircularSystem

end Pdk.Queue
