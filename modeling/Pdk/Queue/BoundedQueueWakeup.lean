import Pdk.Queue.BoundedQueue

/-!
# `BoundedQueue`: no lost wakeup

`notify_one` is used with untimed, timed and non-blocking callers that may take an item or a slot
between the notification and the re-check of the thread it was meant for. The counting invariant
says that this cannot leave a thread asleep: while the queue is open and a consumer is parked,
there are at least as many awakened consumers as items, and likewise for producers and free
slots; once the queue is closed, nobody is parked.
-/

namespace Pdk.Queue

open Foundation

namespace QueueSystem

variable {T : Type*} {c : ℕ} {ι : Type*}

/-! ## Threads and condition variables -/

/-- A thread that is idle or was awakened is not parked. -/
theorem Ready.not_parked {s : QueueSystem T c ι} {i : ι} {op : QueueOp T} (h : Ready s i op)
    (x : QueueCv) : (queueCondvar T x).parked (s.pc i) = false := by
  rcases h with h | h <;> simp [h, queueCondvar, QueuePc.isAt]

/-- A thread that runs `op` has nothing to do with the variable `op` does not wait on. -/
theorem Ready.not_awake {s : QueueSystem T c ι} {i : ι} {op : QueueOp T} (h : Ready s i op)
    {x : QueueCv} (hop : op.waitsOn ≠ some x) : (queueCondvar T x).awake (s.pc i) = false := by
  rcases h with h | h
  · simp [h, queueCondvar, QueuePc.isAt]
  · simp [h, queueCondvar, QueuePc.isAt, hop]

/-- Waking a waiter of one variable does not touch the other one. -/
theorem isAt_wake_of_ne {x y : QueueCv} (hxy : x ≠ y) (awakened : Bool) (a : QueuePc T)
    (h : (queueCondvar T x).parked a = true) :
    QueuePc.isAt y awakened ((queueCondvar T x).wake a) = QueuePc.isAt y awakened a := by
  cases a with
  | idle => rfl
  | waiting op b =>
    simp only [queueCondvar, QueuePc.isAt, Bool.and_eq_true, decide_eq_true_eq] at h
    have hne : op.waitsOn ≠ some y := by
      rw [h.1]
      simpa using hxy
    simp [queueCondvar, QueuePc.isAt, hne]

variable [Fintype ι] [DecidableEq ι]

/-- Nobody is parked on `x`. -/
def NobodyParked (x : QueueCv) (f : ι → QueuePc T) : Prop :=
  ∀ i, (queueCondvar T x).parked (f i) = false

/-! ## The counting invariant -/

/-- What holds in every reachable state. -/
structure WakeupInv (s : QueueSystem T c ι) : Prop where
  size_le : s.q.size ≤ c
  /-- Every item has an awakened consumer, if a consumer is parked. -/
  notEmpty : s.q.closed = false → (queueCondvar T .notEmpty).NoLostWakeup s.q.size s.pc
  /-- Every free slot has an awakened producer, if a producer is parked. -/
  notFull : s.q.closed = false → (queueCondvar T .notFull).NoLostWakeup (c - s.q.size) s.pc
  /-- After `shutdown` nobody is parked. -/
  closed : s.q.closed = true → ∀ x, NobodyParked x s.pc

omit [Fintype ι] in
/-- A step to a state in which it is not parked does not park anybody. -/
theorem NobodyParked.update {x : QueueCv} {f : ι → QueuePc T} (h : NobodyParked x f) (i : ι)
    {a : QueuePc T} (ha : (queueCondvar T x).parked a = false) :
    NobodyParked x (Function.update f i a) := by
  intro j
  by_cases hj : j = i
  · subst hj
    rw [Function.update_self]
    exact ha
  · rw [Function.update_of_ne hj]
    exact h j

/-- A notification does not park anybody. -/
theorem NobodyParked.notifyOne {x y : QueueCv} {f g : ι → QueuePc T} (h : NobodyParked x f)
    {w : Option ι} (hw : (queueCondvar T y).notifyOne f w = some g) : NobodyParked x g := by
  rcases Condvar.notifyOne_cases hw with ⟨-, rfl⟩ | ⟨j, hj, rfl⟩
  · exact h
  · apply h.update
    by_cases hxy : y = x
    · subst hxy
      exact (queueCondvar T y).parked_wake _ hj
    · exact (isAt_wake_of_ne hxy false _ hj).trans (h j)

theorem Ready.leave {s : QueueSystem T c ι} {i : ι} {op : QueueOp T} (hready : Ready s i op)
    {x : QueueCv} {supply : ℕ} (hinv : (queueCondvar T x).NoLostWakeup supply s.pc)
    (hop : op.waitsOn ≠ some x) :
    (queueCondvar T x).NoLostWakeup supply (Function.update s.pc i .idle) :=
  hinv.update (hready.not_parked x).symm (hready.not_awake hop).symm

/-- A notification on one variable keeps the counts of the other. -/
theorem noLostWakeup_notifyOne_of_ne {x y : QueueCv} (hxy : x ≠ y) {f g : ι → QueuePc T}
    {supply : ℕ} (hinv : (queueCondvar T y).NoLostWakeup supply f) {w : Option ι}
    (hw : (queueCondvar T x).notifyOne f w = some g) :
    (queueCondvar T y).NoLostWakeup supply g :=
  hinv.congr (Condvar.tally_notifyOne (isAt_wake_of_ne hxy false) hw)
    (Condvar.tally_notifyOne (isAt_wake_of_ne hxy true) hw)

/-- A returning call keeps the invariant. -/
theorem WakeupInv.returns {s : QueueSystem T c ι} (h : WakeupInv s) {i : ι} {op : QueueOp T}
    (hready : Ready s i op) {w : Option ι} {q : BoundedQueue T c} {r : QueueResult T}
    {n : QueueNotify} {pc : ι → QueuePc T} {log : List (QueueEvent T ι)}
    (hret : Entered s.q op (.ret q r n))
    (hnotify : notify n (Function.update s.pc i .idle) w = some pc) :
    WakeupInv (⟨q, pc, log⟩ : QueueSystem T c ι) := by
  have hidle : ∀ x, (queueCondvar T x).parked .idle = false := fun x => rfl
  cases hret with
  | accept v hop hopen hroom =>
    -- one item more: the consumers are notified; one free slot less: the producer takes it
    refine ⟨hroom, fun _ => ?_, fun _ => ?_, fun hcl => ?_⟩
    · exact (hready.leave (h.notEmpty hopen) hop).produce hnotify
    · apply noLostWakeup_notifyOne_of_ne (x := .notEmpty) (by decide) _ hnotify
      apply Condvar.NoLostWakeup.consume _ (hready.not_parked .notFull) (hidle _)
      exact (h.notFull hopen).mono (by simp only [BoundedQueue.enqueue]; omega)
    · simp only [BoundedQueue.enqueue, hopen, Bool.false_eq_true] at hcl
  | refuse v hop hwhy =>
    cases hnotify
    refine ⟨h.size_le, fun hopen => hready.leave (h.notEmpty hopen) hop, fun hopen => ?_, ?_⟩
    · -- an open queue refuses only when it is full
      have hstill : s.q.closed = false := hopen
      have hfull : c ≤ s.q.size := hwhy.resolve_left (by simp [hstill])
      rw [show c - s.q.size = 0 by omega]
      exact Condvar.noLostWakeup_zero
    · exact fun hcl x => (h.closed hcl x).update i (hidle x)
  | popLocked hop hpos =>
    -- one item less: the consumer takes it; one free slot more: the producers are notified
    have hle := h.size_le
    refine ⟨by simp only [BoundedQueue.dequeue]; omega, fun hopen => ?_, fun hopen => ?_,
      fun hcl x => ?_⟩
    · apply noLostWakeup_notifyOne_of_ne (x := .notFull) (by decide) _ hnotify
      apply Condvar.NoLostWakeup.consume _ (hready.not_parked .notEmpty) (hidle _)
      exact (h.notEmpty hopen).mono (by simp only [BoundedQueue.dequeue]; omega)
    · have hnew := (hready.leave (h.notFull hopen) hop).produce hnotify
      exact hnew.mono (by simp only [BoundedQueue.dequeue]; omega)
    · exact ((h.closed hcl x).update i (hidle x)).notifyOne hnotify
  | nothing hop hempty hblock =>
    cases hnotify
    refine ⟨h.size_le, fun hopen => ?_, fun hopen => hready.leave (h.notFull hopen) hop, ?_⟩
    · rw [hempty]
      exact Condvar.noLostWakeup_zero
    · exact fun hcl x => (h.closed hcl x).update i (hidle x)
  | shutdown =>
    cases hnotify
    refine ⟨h.size_le, by simp, by simp, fun _ x j => ?_⟩
    cases x with
    | notEmpty => exact Condvar.parked_notifyAll _ _ j
    | notFull =>
      -- `notify_all` on `not_empty_` does not park a producer again
      have hkeep := Condvar.pred_notifyAll (queueCondvar T .notEmpty)
        ((queueCondvar T .notFull).notifyAll (Function.update s.pc i .idle))
        (isAt_wake_of_ne (y := .notFull) (by decide) false) j
      exact hkeep.trans (Condvar.parked_notifyAll (queueCondvar T .notFull) _ j)

/-- Every step keeps the counting invariant. -/
theorem WakeupInv.step {s s' : QueueSystem T c ι} (h : WakeupInv s) (hstep : Stepped s s') :
    WakeupInv s' := by
  cases hstep with
  | parks i op hready hwait =>
    have hother : ∀ x supply, op.waitsOn ≠ some x →
        (queueCondvar T x).NoLostWakeup supply s.pc →
        (queueCondvar T x).NoLostWakeup supply (Function.update s.pc i (.waiting op false)) := by
      intro x supply hop hinv
      apply hinv.update
      · rw [hready.not_parked x]
        simp [queueCondvar, QueuePc.isAt, hop]
      · rw [hready.not_awake hop]
        simp [queueCondvar, QueuePc.isAt]
    cases hwait with
    | full hop hopen hfull =>
      refine ⟨h.size_le, fun _ => ?_, fun _ => ?_, fun hcl => ?_⟩
      · exact hother _ _ (by simp [hop]) (h.notEmpty hopen)
      · simp only [show c - s.q.size = 0 by omega]
        exact Condvar.noLostWakeup_zero
      · simp only [hopen, Bool.false_eq_true] at hcl
    | empty hop hopen hempty =>
      refine ⟨h.size_le, fun _ => ?_, fun _ => ?_, fun hcl => ?_⟩
      · simp only [hempty]
        exact Condvar.noLostWakeup_zero
      · exact hother _ _ (by simp [hop]) (h.notFull hopen)
      · simp only [hopen, Bool.false_eq_true] at hcl
  | returns i op w hready q r n pc hret hnotify => exact h.returns hready hret hnotify
  | wakes i op hparked =>
    have hwake : ∀ x supply, (queueCondvar T x).NoLostWakeup supply s.pc →
        (queueCondvar T x).NoLostWakeup supply (Function.update s.pc i (.waiting op true)) := by
      intro x supply hinv
      by_cases hop : op.waitsOn = some x
      · have hj : (queueCondvar T x).parked (s.pc i) = true := by
          simp [hparked, queueCondvar, QueuePc.isAt, hop]
        have hnew := hinv.wake hj
        rw [hparked] at hnew
        exact hnew
      · apply hinv.update <;> simp [hparked, queueCondvar, QueuePc.isAt, hop]
    refine ⟨h.size_le, fun hopen => hwake _ _ (h.notEmpty hopen),
      fun hopen => hwake _ _ (h.notFull hopen), fun hcl x => ?_⟩
    exact (h.closed hcl x).update i (by simp [queueCondvar, QueuePc.isAt])

/-- The counting invariant holds in every reachable state. -/
theorem wakeupInv_of_run {acts : List (QueueAct T ι)} {s : QueueSystem T c ι}
    (hrun : (machine T c ι).run (machine T c ι).init acts = some s) : WakeupInv s := by
  refine Machine.run_invariant ?_ (fun s a s' h hstep => h.step (stepped_of_step hstep)) hrun
  have hnone : ∀ x, tally (queueCondvar T x).parked (machine T c ι).init.pc = 0 :=
    fun x => tally_const rfl
  exact ⟨Nat.zero_le c, fun _ => Condvar.noLostWakeup_of_none (hnone _),
    fun _ => Condvar.noLostWakeup_of_none (hnone _), fun hcl => by cases hcl⟩

/-- **No lost wakeup.** In every state reachable by any interleaving of the entry points by any
    number of threads: while the queue is open and a consumer is parked on `not_empty_`, there
    are at most as many items as awakened consumers that have not re-acquired the mutex; while it
    is open and a producer is parked on `not_full_`, there are at most as many free slots as
    awakened producers; and once it is closed no thread is parked on either variable. -/
theorem boundedQueue_no_lost_wakeup (acts : List (QueueAct T ι)) (s : QueueSystem T c ι)
    (hrun : (machine T c ι).run (machine T c ι).init acts = some s) :
    (s.q.closed = false → (∃ i, (s.pc i).isAt .notEmpty false = true) →
        s.q.size ≤ tally (QueuePc.isAt .notEmpty true) s.pc) ∧
      (s.q.closed = false → (∃ i, (s.pc i).isAt .notFull false = true) →
        c - s.q.size ≤ tally (QueuePc.isAt .notFull true) s.pc) ∧
      (s.q.closed = true → ∀ i x, (s.pc i).isAt x false = false) := by
  have hinv := wakeupInv_of_run hrun
  refine ⟨fun hopen hparked => ?_, fun hopen hparked => ?_, fun hcl i x => hinv.closed hcl x i⟩
  · exact hinv.notEmpty hopen (tally_pos_iff.mpr hparked)
  · exact hinv.notFull hopen (tally_pos_iff.mpr hparked)

/-- Two consumers are parked and one producer pushes: one consumer sleeps on, and the other one
    is on its way to the item. -/
theorem boundedQueue_no_lost_wakeup_two_consumers :
    ∃ s, (machine ℕ 1 (Fin 3)).run (machine ℕ 1 (Fin 3)).init
        [.call 0 .pop none, .call 1 .pop none, .call 2 (.push 7) (some 0)] = some s ∧
      s.q.closed = false ∧ (∃ i, (s.pc i).isAt .notEmpty false = true) ∧
      s.q.size ≤ tally (QueuePc.isAt .notEmpty true) s.pc := by
  obtain ⟨s, hrun, hlast⟩ := Machine.exists_of_run_any (machine ℕ 1 (Fin 3))
    (machine ℕ 1 (Fin 3)).init
    [.call 0 .pop none, .call 1 .pop none, .call 2 (.push 7) (some 0)]
    (fun s => !s.q.closed && (s.pc 1).isAt .notEmpty false) (by decide)
  simp only [Bool.and_eq_true, Bool.not_eq_true'] at hlast
  exact ⟨s, hrun, hlast.1, ⟨1, hlast.2⟩,
    (boundedQueue_no_lost_wakeup _ s hrun).1 hlast.1 ⟨1, hlast.2⟩⟩

end QueueSystem

end Pdk.Queue
