import Pdk.Foundation.Transition
import Pdk.Foundation.Condvar
import Pdk.Foundation.Ring

/-!
# `BoundedQueue<T>`

Model of `include/bounded_queue.hpp`: a ring of optional values guarded by one mutex, with the
condition variables `not_full_` and `not_empty_`.

The functions `push`, `tryPush`, ..., `shutdown` are the critical sections of the source's entry
points: what a thread does from the moment it owns `mu_` until it releases it, either because it
returns or because the wait predicate is false and it parks. The system runs them for any number
of threads: a step is a call by an idle thread, an awakened thread that re-acquires `mu_`, or a
parked thread that wakes up by a timeout or spuriously.
-/

namespace Pdk.Queue

open Foundation

/-- `BoundedQueue<T>` with `capacity_ = c`. -/
structure BoundedQueue (T : Type*) (c : ℕ) where
  buffer : Vector (Option T) c
  head : ℕ
  tail : ℕ
  size : ℕ
  closed : Bool

/-- What an entry point answers. -/
inductive QueueResult (T : Type*) where
  /-- The boolean of a push, with the value that was to be pushed. -/
  | pushed (v : T) (ok : Bool)
  /-- The optional of a pop; `none` is `std::nullopt`. -/
  | popped (r : Option T)
  /-- `shutdown` returns nothing. -/
  | shut

/-- The notifications a critical section performs. -/
inductive QueueNotify where
  | nobody
  | oneNotEmpty
  | oneNotFull
  | everybody
  deriving DecidableEq, Repr

/-- How a critical section ends. -/
inductive QueueOutcome (T : Type*) (c : ℕ) where
  /-- The wait predicate is false: the thread parks and releases `mu_`. -/
  | wait
  /-- The call returns. -/
  | ret (q : BoundedQueue T c) (r : QueueResult T) (n : QueueNotify)

namespace BoundedQueue

variable {T : Type*} {c : ℕ}

/-- The constructor, for a capacity that it accepts. -/
def new (T : Type*) (c : ℕ) : BoundedQueue T c :=
  ⟨Vector.replicate c none, 0, 0, 0, false⟩

/-- The assignment to `buffer_[head_]` and the updates of `head_` and `size_` that all three
    push functions perform. -/
def enqueue (q : BoundedQueue T c) (v : T) : BoundedQueue T c :=
  { q with
    buffer := q.buffer.setIfInBounds q.head (some v)
    head := (q.head + 1) % c
    size := q.size + 1 }

/-- The end of a push that has found room: the value is stored and a consumer notified. -/
def accept (q : BoundedQueue T c) (v : T) : QueueOutcome T c :=
  .ret (q.enqueue v) (.pushed v true) .oneNotEmpty

/-- A push that returns false. -/
def refuse (q : BoundedQueue T c) (v : T) : QueueOutcome T c :=
  .ret q (.pushed v false) .nobody

/-- `BoundedQueue::push`. -/
def push (q : BoundedQueue T c) (v : T) : QueueOutcome T c :=
  if q.size < c ∨ q.closed = true then
    if q.closed = true then q.refuse v else q.accept v
  else .wait

/-- `BoundedQueue::try_push`. -/
def tryPush (q : BoundedQueue T c) (v : T) : QueueOutcome T c :=
  if q.closed = true ∨ c ≤ q.size then q.refuse v else q.accept v

/-- `BoundedQueue::try_push_for`; `timedOut` says that the deadline has passed. -/
def tryPushFor (q : BoundedQueue T c) (v : T) (timedOut : Bool) : QueueOutcome T c :=
  if q.size < c ∨ q.closed = true then
    if q.closed = true then q.refuse v else q.accept v
  else if timedOut then q.refuse v
  else .wait

/-- The value of a slot; a free slot holds none. -/
def slot (q : BoundedQueue T c) (i : ℕ) : Option T :=
  (q.buffer[i]?).join

/-- The slot at `tail_` is reset, and `tail_` and `size_` are updated. -/
def dequeue (q : BoundedQueue T c) : BoundedQueue T c :=
  { q with
    buffer := q.buffer.setIfInBounds q.tail none
    tail := (q.tail + 1) % c
    size := q.size - 1 }

/-- `BoundedQueue::pop_locked`. -/
def popLocked (q : BoundedQueue T c) : QueueOutcome T c :=
  .ret q.dequeue (.popped (q.slot q.tail)) .oneNotFull

/-- A pop that returns `std::nullopt`. -/
def nothing (q : BoundedQueue T c) : QueueOutcome T c :=
  .ret q (.popped none) .nobody

/-- `BoundedQueue::pop`. -/
def pop (q : BoundedQueue T c) : QueueOutcome T c :=
  if 0 < q.size ∨ q.closed = true then
    if q.size = 0 then q.nothing else q.popLocked
  else .wait

/-- `BoundedQueue::try_pop`. -/
def tryPop (q : BoundedQueue T c) : QueueOutcome T c :=
  if q.size = 0 then q.nothing else q.popLocked

/-- `BoundedQueue::try_pop_for`; `timedOut` says that the deadline has passed. -/
def tryPopFor (q : BoundedQueue T c) (timedOut : Bool) : QueueOutcome T c :=
  if 0 < q.size ∨ q.closed = true then
    if q.size = 0 then q.nothing else q.popLocked
  else if timedOut then q.nothing
  else .wait

/-- `BoundedQueue::shutdown`. -/
def shutdown (q : BoundedQueue T c) : QueueOutcome T c :=
  .ret { q with closed := true } .shut .everybody

/-- The values in the queue, oldest first. -/
def contents (q : BoundedQueue T c) : List T :=
  Ring.contents q.slot c q.tail q.size

end BoundedQueue

/-! ## Threads -/

/-- The entry points. -/
inductive QueueOp (T : Type*) where
  | push (v : T)
  | tryPush (v : T)
  | tryPushFor (v : T)
  | pop
  | tryPop
  | tryPopFor
  | shutdown

/-- The two condition variables. -/
inductive QueueCv where
  | notFull
  | notEmpty
  deriving DecidableEq, Repr

/-- The condition variable an entry point waits on. -/
def QueueOp.waitsOn {T : Type*} : QueueOp T → Option QueueCv
  | .push _ | .tryPushFor _ => some .notFull
  | .pop | .tryPopFor => some .notEmpty
  | .tryPush _ | .tryPop | .shutdown => none

/-- Where a thread stands with respect to the queue. -/
inductive QueuePc (T : Type*) where
  /-- Not inside a call. -/
  | idle
  /-- Inside the wait of `op`: parked, or awakened and about to re-acquire `mu_`. -/
  | waiting (op : QueueOp T) (awakened : Bool)

/-- Inside the wait on `x`, parked or awakened. -/
def QueuePc.isAt {T : Type*} (x : QueueCv) (awakened : Bool) : QueuePc T → Bool
  | .idle => false
  | .waiting op a => decide (op.waitsOn = some x) && (a == awakened)

/-- A condition variable of the queue, seen through the threads. -/
def queueCondvar (T : Type*) (x : QueueCv) : Condvar (QueuePc T) where
  parked := QueuePc.isAt x false
  awake := QueuePc.isAt x true
  wake
    | .idle => .idle
    | .waiting op _ => .waiting op true
  parked_wake := by
    rintro (_ | ⟨op, _ | _⟩) h <;> simp_all [QueuePc.isAt]
  awake_wake := by
    rintro (_ | ⟨op, _ | _⟩) h <;> simp_all [QueuePc.isAt]
  awake_of_parked := by
    rintro (_ | ⟨op, _ | _⟩) h <;> simp_all [QueuePc.isAt]

/-- A call that has returned. -/
structure QueueEvent (T : Type*) (ι : Type*) where
  thread : ι
  op : QueueOp T
  result : QueueResult T

/-- The queue with the threads that use it. -/
structure QueueSystem (T : Type*) (c : ℕ) (ι : Type*) where
  q : BoundedQueue T c
  pc : ι → QueuePc T
  /-- The calls that have returned, in the order in which they released `mu_`. -/
  log : List (QueueEvent T ι)

/-- A step of the system; `w` is the waiter that a `notify_one` of the step awakens. -/
inductive QueueAct (T : Type*) (ι : Type*) where
  /-- Thread `i` calls `op` and acquires `mu_`. -/
  | call (i : ι) (op : QueueOp T) (w : Option ι)
  /-- Thread `i`, awakened in a wait, re-acquires `mu_`. -/
  | resume (i : ι) (timedOut : Bool) (w : Option ι)
  /-- Thread `i`, parked, wakes up by a timeout or spuriously. -/
  | wake (i : ι)

namespace QueueSystem

variable {T : Type*} {c : ℕ} {ι : Type*}

/-- The critical section of an entry point. -/
def enter (q : BoundedQueue T c) (op : QueueOp T) (timedOut : Bool) : QueueOutcome T c :=
  match op with
  | .push v => q.push v
  | .tryPush v => q.tryPush v
  | .tryPushFor v => q.tryPushFor v timedOut
  | .pop => q.pop
  | .tryPop => q.tryPop
  | .tryPopFor => q.tryPopFor timedOut
  | .shutdown => q.shutdown

variable [Fintype ι] [DecidableEq ι]

/-- The notifications at the end of a critical section. -/
def notify (n : QueueNotify) (f : ι → QueuePc T) (w : Option ι) : Option (ι → QueuePc T) :=
  match n with
  | .nobody => some f
  | .oneNotEmpty => (queueCondvar T .notEmpty).notifyOne f w
  | .oneNotFull => (queueCondvar T .notFull).notifyOne f w
  | .everybody =>
    some ((queueCondvar T .notEmpty).notifyAll ((queueCondvar T .notFull).notifyAll f))

/-- Thread `i` owns `mu_` and runs `op` until it parks or returns. -/
def perform (s : QueueSystem T c ι) (i : ι) (op : QueueOp T) (timedOut : Bool) (w : Option ι) :
    Option (QueueSystem T c ι) :=
  match enter s.q op timedOut with
  | .wait => some { s with pc := Function.update s.pc i (.waiting op false) }
  | .ret q r n =>
    (notify n (Function.update s.pc i .idle) w).map fun pc =>
      ⟨q, pc, s.log ++ [⟨i, op, r⟩]⟩

/-- One step. -/
def step (s : QueueSystem T c ι) : QueueAct T ι → Option (QueueSystem T c ι)
  | .call i op w =>
    match s.pc i with
    | .idle => s.perform i op false w
    | .waiting _ _ => none
  | .resume i timedOut w =>
    match s.pc i with
    | .waiting op true => s.perform i op timedOut w
    | _ => none
  | .wake i =>
    match s.pc i with
    | .waiting op false => some { s with pc := Function.update s.pc i (.waiting op true) }
    | _ => none

/-- The queue after construction, with no call under way. -/
def machine (T : Type*) (c : ℕ) (ι : Type*) [Fintype ι] [DecidableEq ι] :
    Machine (QueueSystem T c ι) (QueueAct T ι) :=
  ⟨⟨.new T c, fun _ => .idle, []⟩, step⟩

/-! ## What a step can do

The six entry points and `shutdown` end in one of seven ways; all invariants are derived from
this case analysis, not from the definitions of the entry points. -/

/-- How the critical section of an entry point can end. -/
inductive Entered (q : BoundedQueue T c) : QueueOp T → QueueOutcome T c → Prop where
  /-- A producer finds the queue full and parks. -/
  | full {op : QueueOp T} (hop : op.waitsOn = some .notFull) (hopen : q.closed = false)
      (hfull : c ≤ q.size) : Entered q op .wait
  /-- A consumer finds the queue empty and parks. -/
  | empty {op : QueueOp T} (hop : op.waitsOn = some .notEmpty) (hopen : q.closed = false)
      (hempty : q.size = 0) : Entered q op .wait
  /-- A producer stores its value. -/
  | accept {op : QueueOp T} (v : T) (hop : op.waitsOn ≠ some .notEmpty)
      (hopen : q.closed = false) (hroom : q.size < c) : Entered q op (q.accept v)
  /-- A producer gives up. -/
  | refuse {op : QueueOp T} (v : T) (hop : op.waitsOn ≠ some .notEmpty)
      (hwhy : q.closed = true ∨ c ≤ q.size) : Entered q op (q.refuse v)
  /-- A consumer takes a value. -/
  | popLocked {op : QueueOp T} (hop : op.waitsOn ≠ some .notFull) (hpos : 0 < q.size) :
      Entered q op q.popLocked
  /-- A consumer gives up; a blocking one only after `shutdown`. -/
  | nothing {op : QueueOp T} (hop : op.waitsOn ≠ some .notFull) (hempty : q.size = 0)
      (hblock : op = .pop → q.closed = true) : Entered q op q.nothing
  /-- The queue is shut down. -/
  | shutdown : Entered q .shutdown q.shutdown

omit [Fintype ι] [DecidableEq ι] in
/-- **Specification of the entry points.** -/
theorem enter_spec (q : BoundedQueue T c) (op : QueueOp T) (timedOut : Bool) :
    Entered q op (enter q op timedOut) := by
  cases op with
  | push v =>
    simp only [enter, BoundedQueue.push]
    split
    · split
      · exact .refuse v (by simp [QueueOp.waitsOn]) (.inl ‹_›)
      · exact .accept v (by simp [QueueOp.waitsOn]) (by simp_all) (by simp_all)
    · exact .full rfl (by simp_all) (by simp_all)
  | tryPush v =>
    simp only [enter, BoundedQueue.tryPush]
    split
    · exact .refuse v (by simp [QueueOp.waitsOn]) ‹_›
    · exact .accept v (by simp [QueueOp.waitsOn]) (by simp_all) (by simp_all)
  | tryPushFor v =>
    simp only [enter, BoundedQueue.tryPushFor]
    split
    · split
      · exact .refuse v (by simp [QueueOp.waitsOn]) (.inl ‹_›)
      · exact .accept v (by simp [QueueOp.waitsOn]) (by simp_all) (by simp_all)
    · -- past the deadline the full queue is the reason to give up
      split
      · exact .refuse v (by simp [QueueOp.waitsOn]) (.inr (by simp_all))
      · exact .full rfl (by simp_all) (by simp_all)
  | pop =>
    simp only [enter, BoundedQueue.pop]
    split
    · split
      · exact .nothing (by simp [QueueOp.waitsOn]) ‹_› (fun _ => by simp_all)
      · exact .popLocked (by simp [QueueOp.waitsOn]) (Nat.pos_of_ne_zero ‹_›)
    · exact .empty rfl (by simp_all) (by simp_all)
  | tryPop =>
    simp only [enter, BoundedQueue.tryPop]
    split
    · exact .nothing (by simp [QueueOp.waitsOn]) ‹_› nofun
    · exact .popLocked (by simp [QueueOp.waitsOn]) (Nat.pos_of_ne_zero ‹_›)
  | tryPopFor =>
    simp only [enter, BoundedQueue.tryPopFor]
    split
    · split
      · exact .nothing (by simp [QueueOp.waitsOn]) ‹_› nofun
      · exact .popLocked (by simp [QueueOp.waitsOn]) (Nat.pos_of_ne_zero ‹_›)
    · split
      · exact .nothing (by simp [QueueOp.waitsOn]) (by simp_all) nofun
      · exact .empty rfl (by simp_all) (by simp_all)
  | shutdown => exact .shutdown

/-- Thread `i` may run the critical section of `op`: it calls it, or was awakened in it. -/
def Ready (s : QueueSystem T c ι) (i : ι) (op : QueueOp T) : Prop :=
  s.pc i = .idle ∨ s.pc i = .waiting op true

/-- What a step of the system can be. -/
inductive Stepped (s : QueueSystem T c ι) : QueueSystem T c ι → Prop where
  /-- A thread parks. -/
  | parks (i : ι) (op : QueueOp T) (hready : Ready s i op) (hwait : Entered s.q op .wait) :
      Stepped s { s with pc := Function.update s.pc i (.waiting op false) }
  /-- A call returns. -/
  | returns (i : ι) (op : QueueOp T) (w : Option ι) (hready : Ready s i op)
      (q : BoundedQueue T c) (r : QueueResult T) (n : QueueNotify) (pc : ι → QueuePc T)
      (hret : Entered s.q op (.ret q r n))
      (hnotify : notify n (Function.update s.pc i .idle) w = some pc) :
      Stepped s ⟨q, pc, s.log ++ [⟨i, op, r⟩]⟩
  /-- A parked thread wakes up. -/
  | wakes (i : ι) (op : QueueOp T) (hparked : s.pc i = .waiting op false) :
      Stepped s { s with pc := Function.update s.pc i (.waiting op true) }

theorem stepped_of_perform {s s' : QueueSystem T c ι} {i : ι} {op : QueueOp T} {timedOut : Bool}
    {w : Option ι} (hready : Ready s i op) (h : s.perform i op timedOut w = some s') :
    Stepped s s' := by
  have hspec := enter_spec s.q op timedOut
  rw [perform] at h
  split at h
  · rename_i hwait
    cases h
    exact .parks i op hready (hwait ▸ hspec)
  · rename_i q r n hret
    obtain ⟨pc, hpc, rfl⟩ := Option.map_eq_some_iff.mp h
    exact .returns i op w hready q r n pc (hret ▸ hspec) hpc

/-- **Case analysis of a step.** -/
theorem stepped_of_step {s s' : QueueSystem T c ι} {a : QueueAct T ι}
    (h : (machine T c ι).step s a = some s') : Stepped s s' := by
  simp only [machine] at h
  cases a with
  | call i op w =>
    simp only [step] at h
    split at h
    · rename_i hidle
      exact stepped_of_perform (.inl hidle) h
    · cases h
  | resume i timedOut w =>
    simp only [step] at h
    split at h
    · rename_i op hawake
      exact stepped_of_perform (.inr hawake) h
    · cases h
  | wake i =>
    simp only [step] at h
    split at h
    · rename_i op hparked
      cases h
      exact .wakes i op hparked
    · cases h

end QueueSystem

end Pdk.Queue
