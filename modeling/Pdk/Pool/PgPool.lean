import Mathlib.Data.Int.Notation
import Pdk.Foundation.Transition
import Pdk.Sync.Semaphore

/-!
# `PgConnectionPool` and `PgGuard`

Model of `include/pgpool.hpp` and `src/pgpool.cpp`. A connection is known by its address, of an
arbitrary type `Ptr`; what libpq answers in `release` is an input of the step.

The system has any number of threads and of places where a `PgGuard` can live. A call is cut into
the atomic steps of the source: the semaphore wait, the locked pop, the construction of the guard,
the validation with the rebuild, the locked push, the signal, and the end of `PgGuard::release`,
which clears the two pointers. As in C++, a guard that one thread is working on is not used by
another one at the same time.
-/

namespace Pdk.Pool

open Foundation
open Pdk.Sync

/-! ## The pool -/

structure PgConnectionPool (Ptr : Type*) where
  -- the owned connections; `unique_ptr`s in the source
  allConnections : List Ptr
  availablePool : List Ptr
  availableSlots : Semaphore

/-- What libpq answers while a connection is being returned. -/
structure PgOutcome (Ptr : Type*) where
  -- the first `is_valid()`
  valid : Bool
  -- `is_valid()` after `reset()`
  validAfterReset : Bool
  -- the address of the new connection, or none if its constructor throws
  reconnect : Option Ptr

namespace PgConnectionPool

variable {Ptr : Type*} [DecidableEq Ptr]

/-- The constructor, after all its connections were made. -/
def new (conns : List Ptr) : PgConnectionPool Ptr :=
  ⟨conns, conns, ⟨conns.length⟩⟩

/-- The loop of `release` over `all_connections_`: the owner of `conn` gets a new connection, or
    keeps the broken one if there is none. -/
def rebuild (conn : Ptr) (reconnect : Option Ptr) : List Ptr → List Ptr × Ptr
  | [] => ([], conn)
  | owned :: rest =>
    if owned = conn then
      match reconnect with
      | some p => (p :: rest, p)
      | none => (owned :: rest, owned)
    else (owned :: (rebuild conn reconnect rest).1, (rebuild conn reconnect rest).2)

/-- The first part of `release`. -/
def validate (pool : PgConnectionPool Ptr) (conn : Ptr) (o : PgOutcome Ptr) :
    PgConnectionPool Ptr × Ptr :=
  if o.valid then (pool, conn)
  else if o.validAfterReset then (pool, conn)
  else
    ({ pool with allConnections := (rebuild conn o.reconnect pool.allConnections).1 },
      (rebuild conn o.reconnect pool.allConnections).2)

end PgConnectionPool

/-! ## Guards -/

/-- `PgGuard`; there is one pool, so that `pool_` is set or null. -/
structure PgGuard (Ptr : Type*) where
  conn : Option Ptr
  pool : Bool

namespace PgGuard

variable {Ptr : Type*}

/-- `PgGuard(conn, this)`. -/
def new (conn : Ptr) : PgGuard Ptr :=
  ⟨some conn, true⟩

/-- A guard that holds nothing. -/
def null : PgGuard Ptr :=
  ⟨none, false⟩

/-- The move constructor, and the end of the move assignment: the pointers of `o`, and what is
    left of `o`. -/
def move (o : PgGuard Ptr) : PgGuard Ptr × PgGuard Ptr :=
  (⟨o.conn, o.pool⟩, null)

/-- The test of `PgGuard::release`: the connection that goes back to the pool. -/
def toRelease (g : PgGuard Ptr) : Option Ptr :=
  if g.pool then g.conn else none

end PgGuard

/-- A place where a guard can live. -/
structure GuardSlot (Ptr : Type*) (ι : Type*) where
  -- the object, or none before its construction and after its destruction
  guard : Option (PgGuard Ptr)
  -- the thread that is working on it
  user : Option ι
  -- its connection has been passed to `pool_->release`, which has not returned
  handed : Bool

/-! ## Threads -/

inductive PgOp where
  | acquire (timeoutMs : ℤ)
  | tryAcquire
  deriving DecidableEq, Repr

/-- What follows `PgGuard::release`. -/
inductive PgThen (γ : Type*) where
  -- the end of `~PgGuard`
  | destroys (g : γ)
  -- the rest of the move assignment `dst = std::move(src)`
  | assigns (dst src : γ)

/-- The guard whose `release` is running. -/
def PgThen.target {γ : Type*} : PgThen γ → γ
  | .destroys g => g
  | .assigns dst _ => dst

/-- The points inside `PgGuard::release`. -/
inductive PgPhase (Ptr : Type*) where
  | validates (conn : Ptr)
  | pushes (conn : Ptr)
  | signals
  -- `pool_->release` has returned
  | clears

inductive PgPc (Ptr : Type*) (γ : Type*) where
  | idle
  -- inside `acquire` or `try_acquire`, between the wait and the pop
  | waited (op : PgOp) (g : γ)
  -- and between the pop and the end of the call
  | popped (op : PgOp) (g : γ) (conn : Ptr)
  | releasing (k : PgThen γ) (phase : PgPhase Ptr)

/-- The pool with the guards and the threads. -/
structure PgSystem (Ptr : Type*) (γ : Type*) (ι : Type*) where
  pool : PgConnectionPool Ptr
  poolLock : Option ι
  slots : γ → GuardSlot Ptr ι
  pc : ι → PgPc Ptr γ
  -- the calls that timed out or returned nothing
  failed : List (ι × PgOp)

inductive PgAct (Ptr : Type*) (γ : Type*) (ι : Type*) where
  -- `i` calls `op`; the guard is to be constructed in `g`
  | acquire (i : ι) (op : PgOp) (g : γ)
  | moveConstruct (i : ι) (dst src : γ)
  | moveAssign (i : ι) (dst src : γ)
  | destroy (i : ι) (g : γ)
  -- the next atomic step of the call that `i` is in
  | next (i : ι) (o : PgOutcome Ptr)

namespace PgSystem

variable {Ptr γ ι : Type*} [DecidableEq Ptr] [DecidableEq γ] [DecidableEq ι]

/-- The storage of a guard that is alive and not in use. -/
def atRest (guard : PgGuard Ptr) : GuardSlot Ptr ι :=
  ⟨some guard, none, false⟩

/-- Storage without a guard. -/
def vacant : GuardSlot Ptr ι :=
  ⟨none, none, false⟩

def goTo (s : PgSystem Ptr γ ι) (i : ι) (pc : PgPc Ptr γ) : PgSystem Ptr γ ι :=
  { s with pc := Function.update s.pc i pc }

def setSlot (s : PgSystem Ptr γ ι) (g : γ) (slot : GuardSlot Ptr ι) : PgSystem Ptr γ ι :=
  { s with slots := Function.update s.slots g slot }

/-- `dst` takes over the pointers of the guard `o` in `src`. -/
def transfer (s : PgSystem Ptr γ ι) (dst src : γ) (o : PgGuard Ptr) : PgSystem Ptr γ ι :=
  (s.setSlot src (atRest o.move.2)).setSlot dst (atRest o.move.1)

/-- The guard in `g`, if it is alive and no thread is working on it. -/
def guardAtRest (s : PgSystem Ptr γ ι) (g : γ) : Option (PgGuard Ptr) :=
  if (s.slots g).user = none then (s.slots g).guard else none

/-- The storage `g` can be used for a new guard. -/
def isVacant (s : PgSystem Ptr γ ι) (g : γ) : Bool :=
  (s.slots g).user.isNone && (s.slots g).guard.isNone

/-- The semaphore wait of `acquire` and `try_acquire`. -/
def callAcquire (s : PgSystem Ptr γ ι) (i : ι) (op : PgOp) (g : γ) : Option (PgSystem Ptr γ ι) :=
  if s.isVacant g then
    match s.pool.availableSlots.wait with
    | none => some { s with failed := s.failed ++ [(i, op)] }
    | some sem =>
      some (({ s with pool := { s.pool with availableSlots := sem } }.setSlot g
        ⟨none, some i, false⟩).goTo i (.waited op g))
  else none

/-- The move constructor. -/
def callMoveConstruct (s : PgSystem Ptr γ ι) (dst src : γ) : Option (PgSystem Ptr γ ι) :=
  if s.isVacant dst then
    match s.guardAtRest src with
    | some o => some (s.transfer dst src o)
    | none => none
  else none

/-- `PgGuard::release` up to the call of `pool_->release(conn_)`, when there is something to
    release. -/
def handOver (s : PgSystem Ptr γ ι) (i : ι) (k : PgThen γ) (guard : PgGuard Ptr) (conn : Ptr) :
    PgSystem Ptr γ ι :=
  (s.setSlot k.target ⟨some guard, some i, true⟩).goTo i (.releasing k (.validates conn))

/-- The move assignment; moving a guard to itself does nothing. -/
def callMoveAssign (s : PgSystem Ptr γ ι) (i : ι) (dst src : γ) : Option (PgSystem Ptr γ ι) :=
  match s.guardAtRest dst, s.guardAtRest src with
  | some guard, some o =>
    if dst = src then some s
    else
      match guard.toRelease with
      | some conn =>
        some ((s.setSlot src ⟨some o, some i, false⟩).handOver i (.assigns dst src) guard conn)
      | none => some (s.transfer dst src o)
  | _, _ => none

/-- The destructor. -/
def callDestroy (s : PgSystem Ptr γ ι) (i : ι) (g : γ) : Option (PgSystem Ptr γ ι) :=
  match s.guardAtRest g with
  | some guard =>
    match guard.toRelease with
    | some conn => some (s.handOver i (.destroys g) guard conn)
    | none => some (s.setSlot g vacant)
  | none => none

/-- The locked part of `acquire`. There is no step when the list is empty: `front()` is undefined
    then. -/
def popFront (s : PgSystem Ptr γ ι) (i : ι) (op : PgOp) (g : γ) : Option (PgSystem Ptr γ ι) :=
  match s.poolLock, s.pool.availablePool with
  | none, conn :: rest =>
    some ({ s with
      pool := { s.pool with availablePool := rest }
      poolLock := some i }.goTo i (.popped op g conn))
  | _, _ => none

/-- The guard that the caller gets; `try_acquire` moves it into the optional. -/
def deliver (s : PgSystem Ptr γ ι) (i : ι) (op : PgOp) (g : γ) (conn : Ptr) : PgSystem Ptr γ ι :=
  let guard := match op with
    | .acquire _ => PgGuard.new conn
    | .tryAcquire => (PgGuard.new conn).move.1
  ({ s with poolLock := none }.setSlot g (atRest guard)).goTo i .idle

/-- The validation step of `release`. The address of a new connection is not that of a live one. -/
def validateStep (s : PgSystem Ptr γ ι) (i : ι) (k : PgThen γ) (conn : Ptr) (o : PgOutcome Ptr) :
    Option (PgSystem Ptr γ ι) :=
  if ∀ p ∈ o.reconnect, p ∉ s.pool.allConnections then
    some ({ s with pool := (s.pool.validate conn o).1 }.goTo i
      (.releasing k (.pushes (s.pool.validate conn o).2)))
  else none

/-- The locked push of `release`. -/
def pushBack (s : PgSystem Ptr γ ι) (i : ι) (k : PgThen γ) (conn : Ptr) :
    Option (PgSystem Ptr γ ι) :=
  match s.poolLock with
  | none =>
    some ({ s with
      pool := { s.pool with availablePool := s.pool.availablePool ++ [conn] } }.goTo i
      (.releasing k .signals))
  | some _ => none

/-- The signal at the end of `release`. -/
def signal (s : PgSystem Ptr γ ι) (i : ι) (k : PgThen γ) : PgSystem Ptr γ ι :=
  { s with pool := { s.pool with availableSlots := s.pool.availableSlots.signal } }.goTo i
    (.releasing k .clears)

/-- `PgGuard::release` clears the pointers, and the destructor or the assignment ends. -/
def clear (s : PgSystem Ptr γ ι) (i : ι) (k : PgThen γ) : Option (PgSystem Ptr γ ι) :=
  match k with
  | .destroys g => some ((s.setSlot g vacant).goTo i .idle)
  | .assigns dst src =>
    match (s.slots src).guard with
    | some o => some ((s.transfer dst src o).goTo i .idle)
    | none => none

def proceed (s : PgSystem Ptr γ ι) (i : ι) (o : PgOutcome Ptr) : Option (PgSystem Ptr γ ι) :=
  match s.pc i with
  | .idle => none
  | .waited op g => s.popFront i op g
  | .popped op g conn => some (s.deliver i op g conn)
  | .releasing k (.validates conn) => s.validateStep i k conn o
  | .releasing k (.pushes conn) => s.pushBack i k conn
  | .releasing k .signals => some (s.signal i k)
  | .releasing k .clears => s.clear i k

/-- The thread is not inside a call. -/
def isIdle (s : PgSystem Ptr γ ι) (i : ι) : Bool :=
  match s.pc i with
  | .idle => true
  | _ => false

def step (s : PgSystem Ptr γ ι) : PgAct Ptr γ ι → Option (PgSystem Ptr γ ι)
  | .acquire i op g => if s.isIdle i then s.callAcquire i op g else none
  | .moveConstruct i dst src => if s.isIdle i then s.callMoveConstruct dst src else none
  | .moveAssign i dst src => if s.isIdle i then s.callMoveAssign i dst src else none
  | .destroy i g => if s.isIdle i then s.callDestroy i g else none
  | .next i o => s.proceed i o

/-- A pool over the connections `conns`, before any guard is made. -/
def machine (conns : List Ptr) (γ ι : Type*) [DecidableEq γ] [DecidableEq ι] :
    Machine (PgSystem Ptr γ ι) (PgAct Ptr γ ι) :=
  ⟨⟨.new conns, none, fun _ => vacant, fun _ => .idle, []⟩, step⟩

/-! ## What a step can do -/

/-- What the steps of the system can be. -/
inductive Stepped (s : PgSystem Ptr γ ι) : PgSystem Ptr γ ι → Prop where
  -- there is no free slot, and the call gives up
  | fails (i : ι) (op : PgOp) (hwait : s.pool.availableSlots.wait = none) :
      Stepped s { s with failed := s.failed ++ [(i, op)] }
  | waits (i : ι) (op : PgOp) (g : γ) (sem : Semaphore) (hidle : s.pc i = .idle)
      (huser : (s.slots g).user = none) (hguard : (s.slots g).guard = none)
      (hwait : s.pool.availableSlots.wait = some sem) :
      Stepped s (({ s with pool := { s.pool with availableSlots := sem } }.setSlot g
        ⟨none, some i, false⟩).goTo i (.waited op g))
  | pops (i : ι) (op : PgOp) (g : γ) (conn : Ptr) (rest : List Ptr) (hpc : s.pc i = .waited op g)
      (hpool : s.pool.availablePool = conn :: rest) :
      Stepped s ({ s with
        pool := { s.pool with availablePool := rest }
        poolLock := some i }.goTo i (.popped op g conn))
  | delivers (i : ι) (op : PgOp) (g : γ) (conn : Ptr) (hpc : s.pc i = .popped op g conn) :
      Stepped s (({ s with poolLock := none }.setSlot g (atRest (PgGuard.new conn))).goTo i .idle)
  -- a move whose target has nothing to release
  | transfers (i : ι) (dst src : γ) (o : PgGuard Ptr) (hidle : s.pc i = .idle) (hne : dst ≠ src)
      (hdst : (s.slots dst).user = none)
      (hnull : ∀ guard, (s.slots dst).guard = some guard → guard.toRelease = none)
      (hsrc : (s.slots src).user = none) (hguard : (s.slots src).guard = some o) :
      Stepped s (s.transfer dst src o)
  -- a guard that is moved to itself
  | stays : Stepped s s
  | destroysNull (i : ι) (g : γ) (guard : PgGuard Ptr) (hidle : s.pc i = .idle)
      (huser : (s.slots g).user = none) (hguard : (s.slots g).guard = some guard)
      (hnull : guard.toRelease = none) :
      Stepped s (s.setSlot g vacant)
  -- `pool_->release` is called by a destructor or by a move assignment
  | handsOver (i : ι) (g : γ) (guard : PgGuard Ptr) (conn : Ptr) (hidle : s.pc i = .idle)
      (huser : (s.slots g).user = none) (hguard : (s.slots g).guard = some guard)
      (hconn : guard.toRelease = some conn) :
      Stepped s (s.handOver i (.destroys g) guard conn)
  | handsOverFor (i : ι) (dst src : γ) (guard o : PgGuard Ptr) (conn : Ptr)
      (hidle : s.pc i = .idle) (hne : dst ≠ src)
      (huser : (s.slots dst).user = none) (hguard : (s.slots dst).guard = some guard)
      (hsrc : (s.slots src).user = none) (ho : (s.slots src).guard = some o)
      (hconn : guard.toRelease = some conn) :
      Stepped s ((s.setSlot src ⟨some o, some i, false⟩).handOver i (.assigns dst src) guard conn)
  -- the steps of `PgConnectionPool::release`
  | validates (i : ι) (k : PgThen γ) (conn : Ptr) (o : PgOutcome Ptr)
      (hpc : s.pc i = .releasing k (.validates conn))
      (hfresh : ∀ p ∈ o.reconnect, p ∉ s.pool.allConnections) :
      Stepped s ({ s with pool := (s.pool.validate conn o).1 }.goTo i
        (.releasing k (.pushes (s.pool.validate conn o).2)))
  | pushes (i : ι) (k : PgThen γ) (conn : Ptr) (hpc : s.pc i = .releasing k (.pushes conn)) :
      Stepped s ({ s with
        pool := { s.pool with availablePool := s.pool.availablePool ++ [conn] } }.goTo i
        (.releasing k .signals))
  | signals (i : ι) (k : PgThen γ) (hpc : s.pc i = .releasing k .signals) :
      Stepped s (s.signal i k)
  -- what follows `PgGuard::release`
  | clears (i : ι) (g : γ) (hpc : s.pc i = .releasing (.destroys g) .clears) :
      Stepped s ((s.setSlot g vacant).goTo i .idle)
  | assigns (i : ι) (dst src : γ) (o : PgGuard Ptr)
      (hpc : s.pc i = .releasing (.assigns dst src) .clears)
      (hguard : (s.slots src).guard = some o) :
      Stepped s ((s.transfer dst src o).goTo i .idle)

omit [DecidableEq γ] [DecidableEq Ptr] [DecidableEq ι] in
theorem isIdle_iff {s : PgSystem Ptr γ ι} {i : ι} : s.isIdle i = true ↔ s.pc i = .idle := by
  unfold isIdle
  split <;> simp_all

omit [DecidableEq γ] [DecidableEq Ptr] [DecidableEq ι] in
theorem guardAtRest_eq_some {s : PgSystem Ptr γ ι} {g : γ} {guard : PgGuard Ptr} :
    s.guardAtRest g = some guard ↔ (s.slots g).user = none ∧ (s.slots g).guard = some guard := by
  unfold guardAtRest
  split <;> simp_all

omit [DecidableEq γ] [DecidableEq Ptr] [DecidableEq ι] in
theorem isVacant_iff {s : PgSystem Ptr γ ι} {g : γ} :
    s.isVacant g = true ↔ (s.slots g).user = none ∧ (s.slots g).guard = none := by
  simp [isVacant]

theorem stepped_of_callAcquire {s s' : PgSystem Ptr γ ι} {i : ι} {op : PgOp} {g : γ}
    (hidle : s.pc i = .idle) (h : s.callAcquire i op g = some s') : Stepped s s' := by
  unfold callAcquire at h
  split at h
  · rename_i hvacant
    obtain ⟨huser, hguard⟩ := isVacant_iff.mp hvacant
    split at h
    · rename_i hwait
      cases h
      exact .fails i op hwait
    · rename_i sem hwait
      cases h
      exact .waits i op g sem hidle huser hguard hwait
  · cases h

theorem stepped_of_callMoveConstruct {s s' : PgSystem Ptr γ ι} {i : ι} {dst src : γ}
    (hidle : s.pc i = .idle) (h : s.callMoveConstruct dst src = some s') : Stepped s s' := by
  unfold callMoveConstruct at h
  split at h
  · rename_i hvacant
    obtain ⟨huser, hguard⟩ := isVacant_iff.mp hvacant
    split at h
    · rename_i o ho
      obtain ⟨hsrc, hsome⟩ := guardAtRest_eq_some.mp ho
      cases h
      apply Stepped.transfers i dst src o hidle _ huser _ hsrc hsome
      · rintro rfl
        rw [hguard] at hsome
        cases hsome
      · intro guard hdead
        rw [hguard] at hdead
        cases hdead
    · cases h
  · cases h

theorem stepped_of_callMoveAssign {s s' : PgSystem Ptr γ ι} {i : ι} {dst src : γ}
    (hidle : s.pc i = .idle) (h : s.callMoveAssign i dst src = some s') : Stepped s s' := by
  unfold callMoveAssign at h
  split at h
  · rename_i guard o hguard ho
    obtain ⟨huser, hguard⟩ := guardAtRest_eq_some.mp hguard
    obtain ⟨hsrc, ho⟩ := guardAtRest_eq_some.mp ho
    split at h
    · cases h
      exact .stays
    · rename_i hne
      split at h
      · rename_i conn hconn
        cases h
        exact .handsOverFor i dst src guard o conn hidle hne huser hguard hsrc ho hconn
      · rename_i hnull
        cases h
        apply Stepped.transfers i dst src o hidle hne huser _ hsrc ho
        intro guard' hguard'
        rw [hguard] at hguard'
        cases hguard'
        exact hnull
  · cases h

theorem stepped_of_callDestroy {s s' : PgSystem Ptr γ ι} {i : ι} {g : γ}
    (hidle : s.pc i = .idle) (h : s.callDestroy i g = some s') : Stepped s s' := by
  unfold callDestroy at h
  split at h
  · rename_i guard hguard
    obtain ⟨huser, hguard⟩ := guardAtRest_eq_some.mp hguard
    split at h
    · rename_i conn hconn
      cases h
      exact .handsOver i g guard conn hidle huser hguard hconn
    · rename_i hnull
      cases h
      exact .destroysNull i g guard hidle huser hguard hnull
  · cases h

theorem stepped_of_proceed {s s' : PgSystem Ptr γ ι} {i : ι} {o : PgOutcome Ptr}
    (h : s.proceed i o = some s') : Stepped s s' := by
  unfold proceed at h
  split at h
  · cases h
  · rename_i op g hpc
    unfold popFront at h
    split at h
    · rename_i conn rest hlock hpool
      cases h
      exact .pops i op g conn rest hpc hpool
    · cases h
  · rename_i op g conn hpc
    -- moving the temporary of `try_acquire` gives the same guard
    cases h
    cases op with
    | acquire timeoutMs => exact .delivers i _ g conn hpc
    | tryAcquire => exact .delivers i _ g conn hpc
  · rename_i k conn hpc
    unfold validateStep at h
    split at h
    · rename_i hfresh
      cases h
      exact .validates i k conn o hpc hfresh
    · cases h
  · rename_i k conn hpc
    unfold pushBack at h
    split at h
    · cases h
      exact .pushes i k conn hpc
    · cases h
  · rename_i k hpc
    cases h
    exact .signals i k hpc
  · rename_i k hpc
    unfold clear at h
    split at h
    · cases h
      exact .clears i _ hpc
    · split at h
      · rename_i guard hguard
        cases h
        exact .assigns i _ _ guard hpc hguard
      · cases h

/-- **Case analysis of a step.** -/
theorem stepped_of_step {conns : List Ptr} {s s' : PgSystem Ptr γ ι} {a : PgAct Ptr γ ι}
    (h : (machine conns γ ι).step s a = some s') : Stepped s s' := by
  simp only [machine] at h
  cases a with
  | acquire i op g =>
    simp only [step] at h
    split at h
    · exact stepped_of_callAcquire (isIdle_iff.mp ‹_›) h
    · cases h
  | moveConstruct i dst src =>
    simp only [step] at h
    split at h
    · exact stepped_of_callMoveConstruct (isIdle_iff.mp ‹_›) h
    · cases h
  | moveAssign i dst src =>
    simp only [step] at h
    split at h
    · exact stepped_of_callMoveAssign (isIdle_iff.mp ‹_›) h
    · cases h
  | destroy i g =>
    simp only [step] at h
    split at h
    · exact stepped_of_callDestroy (isIdle_iff.mp ‹_›) h
    · cases h
  | next i o => exact stepped_of_proceed h

end PgSystem

end Pdk.Pool
