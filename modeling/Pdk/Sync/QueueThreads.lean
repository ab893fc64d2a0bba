import Pdk.Foundation.Condvar
import Pdk.Foundation.Transition
import Pdk.Sync.Queue

/-!
# `Queue<T>`: producers and consumers

Any number of threads on one `Queue<T>` of `include/jthread.hpp`. A step is one critical section of
`mutex_`: `put` appends an item and notifies one waiter, a consumer takes the first item or is parked
on `cv_get_`, `shutdown` notifies all. `get` and `try_get` move the item into `scratch_` and return a
pointer to it; `pop` and `try_pop` return the item.

In every run the items are taken in the order in which they were accepted, each once, and no wakeup
is lost (`queue_serves`). The pointers are another matter: a caller finds its item behind its pointer
as long as it uses it exactly if nobody else takes an item through a pointer in the meantime
(`pointers_intact_iff`), which is the contract that the header asks for.
-/

namespace Pdk.Sync

open Foundation

/-! ## Threads -/

/-- The ways to take an item. -/
inductive TakeOp where
  | get
  | tryGet
  -- `try_get(out, nWaitTimeoutSec)`
  | tryGetFor
  | pop
  | tryPop
  deriving DecidableEq, Repr

namespace TakeOp

/-- It returns a pointer to `scratch_`. -/
def byPointer : TakeOp → Bool
  | .get | .tryGet | .tryGetFor => true
  | .pop | .tryPop => false

/-- It waits for an item. -/
def waits : TakeOp → Bool
  | .get | .tryGetFor | .pop => true
  | .tryGet | .tryPop => false

end TakeOp

/-- Where a thread stands: outside, or inside a call that waits, parked or awakened. -/
inductive QueuePc where
  | idle
  | waiting (op : TakeOp) (awakened : Bool)
  deriving DecidableEq, Repr

namespace QueuePc

def isParked : QueuePc → Bool
  | .waiting _ awakened => !awakened
  | .idle => false

def isAwake : QueuePc → Bool
  | .waiting _ awakened => awakened
  | .idle => false

/-- A notification, a timeout or a spurious wakeup. -/
def wake : QueuePc → QueuePc
  | .waiting op _ => .waiting op true
  | .idle => .idle

/-- Inside a call that returns a pointer. -/
def byPointer : QueuePc → Bool
  | .waiting op _ => op.byPointer
  | .idle => false

theorem byPointer_wake (pc : QueuePc) : pc.wake.byPointer = pc.byPointer := by
  cases pc with
  | idle => rfl
  | waiting op awakened => rfl

end QueuePc

/-- `cv_get_`. -/
def getCondvar : Condvar QueuePc where
  parked := QueuePc.isParked
  awake := QueuePc.isAwake
  wake := QueuePc.wake
  parked_wake := by
    intro pc hpc
    cases pc with
    | idle => cases hpc
    | waiting op awakened => rfl
  awake_wake := by
    intro pc hpc
    cases pc with
    | idle => cases hpc
    | waiting op awakened => rfl
  awake_of_parked := by
    intro pc hpc
    cases pc with
    | idle => rfl
    | waiting op awakened => simpa [QueuePc.isParked, QueuePc.isAwake] using hpc

structure QueueSystem (ι T : Type*) where
  queue : Queue T
  -- `scratch_`, once an item has been moved into it
  scratch : Option T
  pc : ι → QueuePc
  -- the item that a caller of `get` or `try_get` was given, while it uses the pointer
  inUse : ι → Option T
  -- the items that `put` has accepted, and those that were taken
  accepted : List T
  taken : List T

inductive QueueAct (ι T : Type*) where
  -- `w` is the waiter that is notified
  | put (item : T) (w : Option ι)
  | take (i : ι) (op : TakeOp)
  -- an awakened waiter re-acquires the mutex; one with a timeout may find that its time is over
  | resume (i : ι) (expired : Bool)
  -- a parked waiter wakes up without a notification
  | wakes (i : ι)
  | shutdown
  -- the caller is done with the item behind its pointer
  | release (i : ι)
  deriving DecidableEq

namespace QueueSystem

variable {ι T : Type*} [DecidableEq ι]

def goTo (s : QueueSystem ι T) (i : ι) (pc : QueuePc) : QueueSystem ι T :=
  { s with pc := Function.update s.pc i pc }

/-- The first item is taken, and the rest stays in the queue. -/
def took (s : QueueSystem ι T) (i : ι) (op : TakeOp) (item : T) (rest : List T) :
    QueueSystem ι T :=
  { s with
    queue := { s.queue with q := rest }
    scratch := if op.byPointer then some item else s.scratch
    inUse := if op.byPointer then Function.update s.inUse i (some item) else s.inUse
    taken := s.taken ++ [item] }.goTo i .idle

/-- The predicate is tested, with the mutex held. -/
def test (s : QueueSystem ι T) (i : ι) (op : TakeOp) (expired : Bool) : QueueSystem ι T :=
  match s.queue.q with
  | item :: rest => s.took i op item rest
  | [] =>
    if s.queue.closed || expired || !op.waits then s.goTo i .idle else s.goTo i (.waiting op false)

variable [Fintype ι]

/-- `put(item)`. -/
def put (s : QueueSystem ι T) (item : T) (w : Option ι) : Option (QueueSystem ι T) :=
  match s.queue.put item with
  | (0, queue) => (getCondvar.notifyOne s.pc w).map fun pc =>
      { s with queue := queue, pc := pc, accepted := s.accepted ++ [item] }
  | _ => some s

def step (s : QueueSystem ι T) : QueueAct ι T → Option (QueueSystem ι T)
  | .put item w => s.put item w
  | .take i op => if s.pc i = .idle then some (s.test i op false) else none
  | .resume i expired =>
    match s.pc i with
    | .waiting op true =>
      if expired && op ≠ .tryGetFor then none else some (s.test i op expired)
    | _ => none
  | .wakes i => if (s.pc i).isParked then some (s.goTo i (s.pc i).wake) else none
  | .shutdown => some { s with
      queue := s.queue.shutdown
      pc := getCondvar.notifyAll s.pc }
  | .release i => some { s with inUse := Function.update s.inUse i none }

/-- `Queue(n)`, before any thread uses it. -/
def machine (ι T : Type*) [DecidableEq ι] [Fintype ι] (n : ℤ) :
    Machine (QueueSystem ι T) (QueueAct ι T) :=
  ⟨⟨.new n, none, fun _ => .idle, fun _ => none, [], []⟩, step⟩

/-! ## What a step can do -/

/-- The thread holds the mutex and tests the predicate: it has just called, or was awakened. -/
def Tests (s : QueueSystem ι T) (i : ι) : Prop :=
  (s.pc i).isParked = false

/-- The call that goes on with an action, if it is one that takes an item. -/
def call (s : QueueSystem ι T) : QueueAct ι T → Option (ι × TakeOp)
  | .take i op => some (i, op)
  | .resume i _ =>
    match s.pc i with
    | .waiting op _ => some (i, op)
    | .idle => none
  | _ => none

inductive Stepped (s : QueueSystem ι T) : QueueAct ι T → QueueSystem ι T → Prop where
  | puts {item : T} {w : Option ι} {pc : ι → QueuePc} (hopen : s.queue.closed = false)
    (hroom : (s.queue.q.length : ℤ) < s.queue.max) (hnotify : getCondvar.notifyOne s.pc w = some pc) :
    Stepped s (.put item w) { s with
      queue := { s.queue with q := s.queue.q ++ [item] }
      pc := pc
      accepted := s.accepted ++ [item] }
  | refuses (item : T) (w : Option ι) : Stepped s (.put item w) s
  | takes (a : QueueAct ι T) {i : ι} {op : TakeOp} {item : T} {rest : List T} (htests : s.Tests i)
    (hq : s.queue.q = item :: rest) (hcall : s.call a = some (i, op)) :
    Stepped s a (s.took i op item rest)
  -- a call returns without an item
  | leaves (a : QueueAct ι T) {i : ι} (htests : s.Tests i) (hempty : s.queue.q = []) :
    Stepped s a (s.goTo i .idle)
  | parks (a : QueueAct ι T) {i : ι} {op : TakeOp} (htests : s.Tests i) (hempty : s.queue.q = [])
    (hopen : s.queue.closed = false) (hcall : s.call a = some (i, op)) :
    Stepped s a (s.goTo i (.waiting op false))
  | wakes {i : ι} (hparked : (s.pc i).isParked = true) :
    Stepped s (.wakes i) (s.goTo i (s.pc i).wake)
  | shuts : Stepped s .shutdown { s with
      queue := s.queue.shutdown
      pc := getCondvar.notifyAll s.pc }
  | releases (i : ι) : Stepped s (.release i) { s with inUse := Function.update s.inUse i none }

variable {s s' : QueueSystem ι T} {a : QueueAct ι T} {i : ι}

omit [Fintype ι] in
theorem test_cases (s : QueueSystem ι T) (i : ι) (op : TakeOp) (expired : Bool) :
    (∃ item rest, s.queue.q = item :: rest ∧ s.test i op expired = s.took i op item rest) ∨
      (s.queue.q = [] ∧ s.test i op expired = s.goTo i .idle) ∨
      (s.queue.q = [] ∧ s.queue.closed = false ∧ s.test i op expired = s.goTo i (.waiting op false)) := by
  unfold test
  split
  · rename_i item rest hq
    exact .inl ⟨item, rest, hq, rfl⟩
  · rename_i hq
    split
    · exact .inr (.inl ⟨hq, rfl⟩)
    · rename_i hwaits
      exact .inr (.inr ⟨hq, by simp at hwaits; exact hwaits.1.1, rfl⟩)

theorem stepped_of_test {op : TakeOp} {expired : Bool} (htests : s.Tests i)
    (hcall : s.call a = some (i, op)) : Stepped s a (s.test i op expired) := by
  rcases test_cases s i op expired with ⟨item, rest, hq, heq⟩ | ⟨hq, heq⟩ | ⟨hq, hopen, heq⟩
  · rw [heq]
    exact .takes a htests hq hcall
  · rw [heq]
    exact .leaves a htests hq
  · rw [heq]
    exact .parks a htests hq hopen hcall

/-- **Case analysis of a step.** -/
theorem stepped_of_step (h : s.step a = some s') : Stepped s a s' := by
  cases a with
  | put item w =>
    simp only [step, put] at h
    rcases s.queue.put_cases item with ⟨hput, hopen, hroom⟩ | ⟨hput, -⟩
    · rw [hput] at h
      obtain ⟨pc, hnotify, rfl⟩ := Option.map_eq_some_iff.mp h
      exact .puts hopen hroom hnotify
    · rw [hput] at h
      cases h
      exact .refuses item w
  | take i op =>
    simp only [step] at h
    split at h
    · rename_i hpc
      cases h
      exact stepped_of_test (by rw [Tests, hpc]; rfl) rfl
    · cases h
  | resume i expired =>
    simp only [step] at h
    split at h
    · rename_i op hpc
      split at h
      · cases h
      · cases h
        exact stepped_of_test (by rw [Tests, hpc]; rfl) (by simp only [call, hpc])
    · cases h
  | wakes i =>
    simp only [step] at h
    split at h
    · rename_i hparked
      cases h
      exact .wakes hparked
    · cases h
  | shutdown =>
    cases h
    exact .shuts
  | release i =>
    cases h
    exact .releases i

/-! ## No item is lost, and no wakeup -/

/-- What the queue owes its users. -/
structure Serves (s : QueueSystem ι T) : Prop where
  /-- The items are taken in the order in which they were accepted, each of them once. -/
  order : s.accepted = s.taken ++ s.queue.q
  room : s.queue.q.length ≤ s.queue.max.toNat
  /-- While a thread is parked, every item has an awakened thread on its way to it. -/
  expected : (∃ i, (s.pc i).isParked = true) → s.queue.q.length ≤ tally QueuePc.isAwake s.pc
  /-- Nobody waits at a queue that was shut down. -/
  released : s.queue.closed = true → ∀ i, (s.pc i).isParked = false

omit [DecidableEq ι] in
theorem expected_iff {n : ℕ} {f : ι → QueuePc} :
    ((∃ i, (f i).isParked = true) → n ≤ tally QueuePc.isAwake f) ↔ getCondvar.NoLostWakeup n f :=
  ⟨fun h hpos => h (tally_pos_iff.mp hpos), fun h hparked => h (tally_pos_iff.mpr hparked)⟩

omit [Fintype ι] in
/-- A thread that does not park leaves nobody parked who was not. -/
theorem not_parked_goTo (h : ∀ j, (s.pc j).isParked = false) {pc : QueuePc} (hpc : pc.isParked = false)
    (i j : ι) : ((s.goTo i pc).pc j).isParked = false := by
  by_cases hji : j = i
  · subst hji
    simp only [goTo, Function.update_self]
    exact hpc
  · simp only [goTo, Function.update_of_ne hji]
    exact h j

/-- **Step lemma.** -/
theorem Serves.step (h : s.Serves) (hstep : Stepped s a s') : s'.Serves := by
  have hexpected : getCondvar.NoLostWakeup s.queue.q.length s.pc := expected_iff.mp h.expected
  cases hstep with
  | @puts item w pc hopen hroom hnotify =>
    refine ⟨?_, ?_, expected_iff.mpr ?_, fun hclosed => ?_⟩
    · simp only [h.order, List.append_assoc]
    · simp only [List.length_append, List.length_singleton]
      omega
    · simp only [List.length_append, List.length_singleton]
      exact hexpected.produce hnotify
    · rw [hopen] at hclosed
      cases hclosed
  | refuses _ _ => exact h
  | @takes _ i op item rest htests hq _ =>
    have hlength : s.queue.q.length = rest.length + 1 := by rw [hq, List.length_cons]
    refine ⟨?_, ?_, expected_iff.mpr ?_, fun hclosed j => ?_⟩
    · simp only [took, goTo, List.append_assoc, List.singleton_append, h.order, hq]
    · have hroom := h.room
      simp only [took, goTo]
      omega
    · rw [hlength] at hexpected
      exact hexpected.consume htests rfl
    · exact not_parked_goTo (s := s) (h.released hclosed) rfl i j
  | @leaves _ i htests hempty =>
    refine ⟨h.order, h.room, expected_iff.mpr ?_, fun hclosed j => ?_⟩
    · simp only [goTo, hempty, List.length_nil]
      exact Condvar.noLostWakeup_zero
    · exact not_parked_goTo (h.released hclosed) rfl i j
  | parks _ htests hempty hopen _ =>
    refine ⟨h.order, h.room, expected_iff.mpr ?_, fun hclosed => ?_⟩
    · simp only [goTo, hempty, List.length_nil]
      exact Condvar.noLostWakeup_zero
    · simp only [goTo, hopen] at hclosed
      cases hclosed
  | @wakes i hparked =>
    refine ⟨h.order, h.room, expected_iff.mpr (hexpected.wake hparked), fun hclosed j => ?_⟩
    exact not_parked_goTo (h.released hclosed) (getCondvar.parked_wake _ hparked) i j
  | shuts =>
    have hnone : ∀ j, (getCondvar.notifyAll s.pc j).isParked = false :=
      getCondvar.parked_notifyAll s.pc
    refine ⟨h.order, h.room, fun hparked => ?_, fun _ => hnone⟩
    obtain ⟨j, hj⟩ := hparked
    rw [hnone j] at hj
    cases hj
  | releases _ => exact ⟨h.order, h.room, h.expected, h.released⟩

/-- In every run of any number of threads, the items are taken in the order in which they were
    accepted, each of them once, there are never more of them than the queue has room for, no wakeup
    is lost, and a queue that was shut down leaves nobody waiting. -/
theorem queue_serves {n : ℤ} {acts : List (QueueAct ι T)}
    (hrun : (machine ι T n).run (machine ι T n).init acts = some s) : s.Serves := by
  refine Machine.run_invariant (P := Serves) ?_ (fun s a s' h hstep => h.step (stepped_of_step hstep)) hrun
  refine ⟨rfl, Nat.zero_le _, expected_iff.mpr Condvar.noLostWakeup_zero, fun _ _ => rfl⟩

/-- A consumer is parked when the item comes, another one is let go by `shutdown`. -/
theorem queue_serves_two :
    ∃ s, (machine Bool ℕ 4).run (machine Bool ℕ 4).init
        [.take true .pop, .take false .get, .put 5 (some true), .resume true false, .shutdown] =
          some s ∧
      s.taken = [5] ∧ s.pc false = .waiting .get true ∧ s.Serves := by
  obtain ⟨s, hrun, hend⟩ := Machine.exists_of_run_any (machine Bool ℕ 4) (machine Bool ℕ 4).init
    [.take true .pop, .take false .get, .put 5 (some true), .resume true false, .shutdown]
    (fun s => s.taken = [5] ∧ s.pc false = .waiting .get true) (by decide)
  obtain ⟨htaken, hpc⟩ : s.taken = [5] ∧ s.pc false = .waiting .get true := by simpa using hend
  exact ⟨s, hrun, htaken, hpc, queue_serves hrun⟩

/-! ## Pointers -/

/-- Whoever uses a pointer finds the item behind it that it was given. -/
def Intact (s : QueueSystem ι T) : Prop :=
  ∀ i item, s.inUse i = some item → s.scratch = some item

/-- If a call takes an item through a pointer, then nobody else uses a pointer to another item. -/
def TakesAlone (s : QueueSystem ι T) (i : ι) (op : TakeOp) : Prop :=
  op.byPointer = true → ∀ item ∈ s.queue.q.head?, ∀ j, j ≠ i → ∀ other ∈ s.inUse j, other = item

def Exclusive (s : QueueSystem ι T) (a : QueueAct ι T) : Prop :=
  ∀ i op, s.call a = some (i, op) → s.TakesAlone i op

omit [Fintype ι] in
theorem intact_took_iff (h : s.Intact) {op : TakeOp} {item : T} {rest : List T}
    (hq : s.queue.q = item :: rest) : (s.took i op item rest).Intact ↔ s.TakesAlone i op := by
  cases hop : op.byPointer with
  | false =>
    simp only [Intact, TakesAlone, took, goTo, hop, Bool.false_eq_true, if_false]
    exact ⟨fun _ hfalse => (by cases hfalse), fun _ => h⟩
  | true =>
    simp only [Intact, TakesAlone, took, goTo, hop, if_true, hq, List.head?_cons, Option.mem_def,
      Option.some.injEq, forall_true_left, forall_eq']
    constructor
    · intro hintact j hji other hother
      exact (hintact j other (by rw [Function.update_of_ne hji]; exact hother)).symm
    · intro halone j other hother
      by_cases hji : j = i
      · rw [hji, Function.update_self] at hother
        exact Option.some.inj hother
      · rw [Function.update_of_ne hji] at hother
        exact (halone j hji other hother).symm

/-- **Step lemma.** -/
theorem intact_step_iff (h : s.Intact) (hstep : Stepped s a s') : s'.Intact ↔ s.Exclusive a := by
  cases hstep with
  | puts _ _ _ => exact ⟨fun _ i op hcall => (by cases hcall), fun _ => h⟩
  | refuses _ _ => exact ⟨fun _ i op hcall => (by cases hcall), fun _ => h⟩
  | @takes _ i op item rest _ hq hcall =>
    rw [intact_took_iff h hq]
    constructor
    · intro halone i' op' hcall'
      rw [hcall] at hcall'
      cases hcall'
      exact halone
    · exact fun hexclusive => hexclusive i op hcall
  | leaves _ _ hempty =>
    refine ⟨fun _ i op _ _ item hitem => ?_, fun _ => h⟩
    rw [hempty] at hitem
    cases hitem
  | parks _ _ hempty _ _ =>
    refine ⟨fun _ i op _ _ item hitem => ?_, fun _ => h⟩
    rw [hempty] at hitem
    cases hitem
  | wakes _ => exact ⟨fun _ i op hcall => (by cases hcall), fun _ => h⟩
  | shuts => exact ⟨fun _ i op hcall => (by cases hcall), fun _ => h⟩
  | releases i =>
    refine ⟨fun _ i op hcall => (by cases hcall), fun _ j item hitem => ?_⟩
    by_cases hji : j = i
    · simp only [hji, Function.update_self] at hitem
      cases hitem
    · simp only [Function.update_of_ne hji] at hitem
      exact h j item hitem

/-- A call that takes an item through a pointer is made by the thread `i`. -/
def OneConsumer (i : ι) : QueueAct ι T → Prop
  | .take j op => op.byPointer = true → j = i
  | _ => True

instance (i : ι) : ∀ a : QueueAct ι T, Decidable (OneConsumer i a)
  | .take _ _ => inferInstanceAs (Decidable (_ → _))
  | .put _ _ => inferInstanceAs (Decidable True)
  | .resume _ _ => inferInstanceAs (Decidable True)
  | .wakes _ => inferInstanceAs (Decidable True)
  | .shutdown => inferInstanceAs (Decidable True)
  | .release _ => inferInstanceAs (Decidable True)

/-- Only the one consumer waits in such a call or uses a pointer. -/
def OnlyBy (i : ι) (s : QueueSystem ι T) : Prop :=
  ∀ j, j ≠ i → s.inUse j = none ∧ (s.pc j).byPointer = false

omit [DecidableEq ι] [Fintype ι] in
theorem OnlyBy.of_call (h : OnlyBy i s) (hone : OneConsumer i a) {j : ι} {op : TakeOp}
    (hcall : s.call a = some (j, op)) (hop : op.byPointer = true) : j = i := by
  cases a with
  | take j' op' =>
    cases hcall
    exact hone hop
  | resume j' expired =>
    simp only [call] at hcall
    split at hcall
    · rename_i op' awakened hpc
      cases hcall
      by_contra hji
      have hnot := (h j hji).2
      rw [hpc] at hnot
      exact Bool.noConfusion (hop.symm.trans hnot)
    · cases hcall
  | put item w => cases hcall
  | wakes j' => cases hcall
  | shutdown => cases hcall
  | release j' => cases hcall

omit [DecidableEq ι] [Fintype ι] in
/-- One consumer is alone. -/
theorem OnlyBy.exclusive (h : OnlyBy i s) (hone : OneConsumer i a) : s.Exclusive a := by
  intro j op hcall hop item _ j' hj' other hother
  rw [h.of_call hone hcall hop] at hj'
  rw [(h j' hj').1] at hother
  cases hother

/-- **Step lemma.** -/
theorem OnlyBy.step (h : OnlyBy i s) (hone : OneConsumer i a) (hstep : Stepped s a s') :
    OnlyBy i s' := by
  intro j hji
  obtain ⟨hnone, hpc⟩ := h j hji
  -- another thread moves to a place that is not inside such a call
  have hgoTo : ∀ i' pc, (i' = j → pc.byPointer = false) →
      ((Function.update s.pc i' pc) j).byPointer = false := by
    intro i' pc hnew
    by_cases hj : j = i'
    · rw [hj, Function.update_self]
      exact hnew hj.symm
    · rw [Function.update_of_ne hj]
      exact hpc
  cases hstep with
  | puts _ _ hnotify =>
    refine ⟨hnone, ?_⟩
    rcases Condvar.notifyOne_cases hnotify with ⟨-, rfl⟩ | ⟨k, -, rfl⟩
    · exact hpc
    · refine hgoTo k _ fun hk => ?_
      rw [hk]
      exact (QueuePc.byPointer_wake _).trans hpc
  | refuses _ _ => exact ⟨hnone, hpc⟩
  | @takes _ i' op item rest _ _ hcall =>
    refine ⟨?_, hgoTo i' _ fun _ => rfl⟩
    cases hop : op.byPointer with
    | false => simpa only [took, goTo, hop, Bool.false_eq_true, if_false] using hnone
    | true =>
      have hi' := h.of_call hone hcall hop
      simp only [took, goTo, hop, if_true, hi', Function.update_of_ne hji]
      exact hnone
  | @leaves _ i' _ _ => exact ⟨hnone, hgoTo i' _ fun _ => rfl⟩
  | @parks _ i' op _ _ _ hcall =>
    refine ⟨hnone, hgoTo i' _ fun hi' => ?_⟩
    by_contra hop
    have hsame := h.of_call hone hcall (Bool.not_eq_false _ ▸ hop)
    exact hji (hi'.symm.trans hsame)
  | @wakes i' _ =>
    refine ⟨hnone, hgoTo i' _ fun hi' => ?_⟩
    rw [hi', QueuePc.byPointer_wake]
    exact hpc
  | shuts =>
    refine ⟨hnone, ?_⟩
    have hwake := getCondvar.pred_notifyAll s.pc (fun pc _ => QueuePc.byPointer_wake pc) j
    exact hwake.trans hpc
  | releases i' =>
    refine ⟨?_, hpc⟩
    by_cases hj : j = i'
    · simp only [hj, Function.update_self]
    · simp only [Function.update_of_ne hj]
      exact hnone

omit [DecidableEq ι] [Fintype ι] in
theorem intact_init (n : ℤ) :
    Intact (⟨.new n, none, fun _ => .idle, fun _ => none, [], []⟩ : QueueSystem ι T) := by
  intro i item hitem
  cases hitem

/-- In a run of any number of threads, everybody finds the item behind its pointer that it was given,
    for as long as it uses it, if and only if no item was taken through a pointer while somebody else
    was using one to another item; in particular if one thread takes all items that are taken
    through a pointer. -/
theorem pointers_intact_iff {n : ℤ} {acts : List (QueueAct ι T)}
    (hrun : (machine ι T n).run (machine ι T n).init acts = some s) :
    ((machine ι T n).Throughout Intact (machine ι T n).init acts ↔
      (machine ι T n).Along Exclusive (machine ι T n).init acts) ∧
      ∀ i, (∀ a ∈ acts, OneConsumer i a) →
        (machine ι T n).Throughout Intact (machine ι T n).init acts := by
  constructor
  · refine Machine.throughout_iff_along (I := Intact) (fun s h => h) ?_ ?_ (intact_init n) hrun
    · intro s a s' h hok hstep
      exact (intact_step_iff h (stepped_of_step hstep)).mpr hok
    · intro s a s' h hnot hstep hintact
      exact hnot ((intact_step_iff h (stepped_of_step hstep)).mp hintact)
  · intro i hone
    refine Machine.throughout_of_along (I := fun s : QueueSystem ι T => OnlyBy i s ∧ s.Intact)
      (fun s h => h.2) ?_ ⟨fun _ _ => ⟨rfl, rfl⟩, intact_init n⟩
      (Machine.along_of_forall hone (machine ι T n).init)
    intro s a s' h hok hstep
    have hstepped := stepped_of_step hstep
    exact ⟨h.1.step hok hstepped, (intact_step_iff h.2 hstepped).mpr (h.1.exclusive hok)⟩

/-- One thread uses `try_get` while another one uses `pop`. -/
theorem pointers_intact_one :
    let acts : List (QueueAct Bool ℕ) :=
      [.put 1 none, .put 2 none, .take true .tryGet, .take false .pop]
    ∃ s, (machine Bool ℕ 4).run (machine Bool ℕ 4).init acts = some s ∧ s.inUse true = some 1 ∧
      (machine Bool ℕ 4).Throughout Intact (machine Bool ℕ 4).init acts := by
  intro acts
  obtain ⟨s, hrun, hend⟩ := Machine.exists_of_run_any (machine Bool ℕ 4) (machine Bool ℕ 4).init acts
    (fun s => s.inUse true = some 1) (by decide)
  exact ⟨s, hrun, by simpa using hend, (pointers_intact_iff hrun).2 true (by decide)⟩

end QueueSystem

end Pdk.Sync
