import Pdk.Foundation.BoundedFifo
import Pdk.Queue.BoundedQueueWakeup

/-!
# `BoundedQueue` refines the bounded FIFO

The ring of optional slots with `head_`, `tail_` and `size_` is a list (`BoundedQueue.Valid`), the
entry points act on that list as the operations of `Foundation.Fifo` do, and hence every
interleaving of calls is a trace of the bounded FIFO with a closed flag. Order, no loss and no
duplication are then facts about the abstract queue.
-/

namespace Pdk.Queue

open Foundation

/-! ## The ring as a list -/

namespace BoundedQueue

variable {T : Type*} {c : ℕ}

/-- The queue holds the values `xs`, oldest first, and its indices agree with that. -/
structure Valid (q : BoundedQueue T c) (xs : List T) : Prop where
  ring : Ring.Represents q.slot c q.tail xs
  tail_lt : q.tail < c
  size_eq : q.size = xs.length
  head_eq : q.head = (q.tail + q.size) % c

theorem slot_setIfInBounds (buffer : Vector (Option T) c) {i : ℕ} (hi : i < c) (a : Option T) :
    (fun j => ((buffer.setIfInBounds i a)[j]?).join) =
      Function.update (fun j => (buffer[j]?).join) i a := by
  funext j
  by_cases hj : j = i
  · subst hj
    simp [hi]
  · rw [Function.update_of_ne hj, Vector.getElem?_setIfInBounds_ne (Ne.symm hj)]

theorem valid_new (hc : 1 ≤ c) : (new T c).Valid [] := by
  refine ⟨Ring.Represents.nil fun k => ?_, hc, rfl, (Nat.zero_mod c).symm⟩
  simp only [slot, new, Vector.getElem?_replicate]
  split <;> rfl

namespace Valid

variable {q : BoundedQueue T c} {xs : List T}

theorem contents_eq (h : q.Valid xs) : q.contents = xs := by
  rw [contents, h.size_eq]
  exact h.ring.contents_eq

theorem size_le (h : q.Valid xs) : q.size ≤ c := by
  rw [h.size_eq]
  exact h.ring.fits

/-- The assignment to `buffer_[head_]` appends. -/
theorem enqueue (h : q.Valid xs) (v : T) (hroom : q.size < c) : (q.enqueue v).Valid (xs ++ [v]) := by
  have hhead : q.head = (q.tail + xs.length) % c := by rw [h.head_eq, h.size_eq]
  have hlt : q.head < c := by
    rw [hhead]
    exact Nat.mod_lt _ (by omega)
  have hslot : (q.enqueue v).slot = Function.update q.slot q.head (some v) :=
    slot_setIfInBounds q.buffer hlt (some v)
  refine ⟨?_, h.tail_lt, ?_, ?_⟩
  · rw [hslot, hhead]
    exact h.ring.enqueue (h.size_eq ▸ hroom) v
  · simp [BoundedQueue.enqueue, h.size_eq]
  · -- `head_` moves on by one slot, as the end of the list does
    simp only [BoundedQueue.enqueue]
    rw [h.head_eq]
    exact Ring.succ_index c q.tail q.size

/-- `pop_locked` hands out the oldest value and removes it. -/
theorem dequeue {x : T} (h : q.Valid (x :: xs)) :
    q.slot q.tail = some x ∧ q.dequeue.Valid xs := by
  have hlt := h.tail_lt
  have hsize : q.size = xs.length + 1 := h.size_eq
  have hslot : q.dequeue.slot = Function.update q.slot q.tail none :=
    slot_setIfInBounds q.buffer hlt none
  refine ⟨h.ring.front hlt, ?_, Nat.mod_lt _ (by omega), ?_, ?_⟩
  · rw [hslot]
    exact h.ring.dequeue hlt
  · simp only [BoundedQueue.dequeue]
    omega
  · -- the end of the list stays where it is
    simp only [BoundedQueue.dequeue]
    rw [Ring.index_succ, show q.size - 1 + 1 = q.size by omega]
    exact h.head_eq

theorem exists_cons (h : q.Valid xs) (hpos : 0 < q.size) : ∃ x rest, xs = x :: rest := by
  cases xs with
  | nil =>
    rw [h.size_eq] at hpos
    cases hpos
  | cons x rest => exact ⟨x, rest, rfl⟩

end Valid

end BoundedQueue

/-! ## Calls as operations of the abstract queue -/

/-- The entry points that take a value. -/
def QueueOp.isPop {T : Type*} : QueueOp T → Bool
  | .pop | .tryPop | .tryPopFor => true
  | _ => false

namespace QueueSystem

variable {T : Type*} {c : ℕ} {ι : Type*}

/-- What a returned call means for the abstract queue. -/
def visible (e : QueueEvent T ι) : FifoAct T :=
  match e.result with
  | .pushed v ok => .offer v ok
  | .popped r => .poll r
  | .shut => .close

/-- The returned calls as a trace of the abstract queue. -/
def trace (s : QueueSystem T c ι) : List (FifoAct T) :=
  s.log.map visible

/-- The abstract queue. -/
def abs (s : QueueSystem T c ι) : Fifo T :=
  ⟨s.q.contents, s.q.closed⟩

/-- The values whose push returned true, in order. -/
def pushedValues (s : QueueSystem T c ι) : List T :=
  s.log.filterMap fun e => match e.result with
    | .pushed v true => some v
    | _ => none

/-- The values returned by pops, in order. -/
def poppedValues (s : QueueSystem T c ι) : List T :=
  s.log.filterMap fun e => match e.result with
    | .popped r => r
    | _ => none

theorem accepted_trace (s : QueueSystem T c ι) : Fifo.accepted s.trace = s.pushedValues := by
  rw [Fifo.accepted, trace, List.filterMap_map, pushedValues]
  congr 1
  funext e
  rcases e with ⟨i, op, ⟨v, _ | _⟩ | r | _⟩ <;> rfl

theorem taken_trace (s : QueueSystem T c ι) : Fifo.taken s.trace = s.poppedValues := by
  rw [Fifo.taken, trace, List.filterMap_map, poppedValues]
  congr 1
  funext e
  rcases e with ⟨i, op, ⟨v, _ | _⟩ | r | _⟩ <;> rfl

/-- **Simulation of one call**: the critical section that returns acts on the list of values as
    the abstract operation with the same answer does. -/
theorem entered_simulates {q q' : BoundedQueue T c} {op : QueueOp T} {r : QueueResult T}
    {n : QueueNotify} {xs : List T} (i : ι) (h : q.Valid xs) (hret : Entered q op (.ret q' r n)) :
    ∃ ys, q'.Valid ys ∧
      Fifo.step c ⟨xs, q.closed⟩ (visible ⟨i, op, r⟩) = some ⟨ys, q'.closed⟩ := by
  have hsize := h.size_eq
  cases hret with
  | accept v hop hopen hroom =>
    refine ⟨xs ++ [v], h.enqueue v hroom, ?_⟩
    simp only [visible, Fifo.step]
    rw [if_pos ⟨hopen, hsize ▸ hroom⟩]
    rfl
  | refuse v hop hwhy =>
    refine ⟨xs, h, ?_⟩
    simp only [visible, Fifo.step]
    rw [if_pos (hsize ▸ hwhy)]
  | popLocked hop hpos =>
    obtain ⟨x, rest, rfl⟩ := h.exists_cons hpos
    obtain ⟨hfront, hvalid⟩ := h.dequeue
    refine ⟨rest, hvalid, ?_⟩
    simp [visible, Fifo.step, hfront, BoundedQueue.dequeue]
  | nothing hop hempty hblock =>
    refine ⟨xs, h, ?_⟩
    have hnil : xs = [] := List.eq_nil_of_length_eq_zero (hsize ▸ hempty)
    simp [visible, Fifo.step, hnil]
  | shutdown => exact ⟨xs, ⟨h.ring, h.tail_lt, h.size_eq, h.head_eq⟩, rfl⟩

variable [Fintype ι] [DecidableEq ι]

/-- A step either leaves the queue and the log alone, or is the return of a call. -/
theorem step_simulates {s s' : QueueSystem T c ι} {xs : List T} (h : s.q.Valid xs)
    (hstep : Stepped s s') :
    ∃ ys bs, s'.q.Valid ys ∧ s'.trace = s.trace ++ bs ∧
      (Fifo.machine T c).run ⟨xs, s.q.closed⟩ bs = some ⟨ys, s'.q.closed⟩ := by
  cases hstep with
  | parks i op hready hwait => exact ⟨xs, [], h, by simp [trace], rfl⟩
  | wakes i op hparked => exact ⟨xs, [], h, by simp [trace], rfl⟩
  | returns i op w hready q r n pc hret hnotify =>
    obtain ⟨ys, hys, hsim⟩ := entered_simulates i h hret
    refine ⟨ys, [visible ⟨i, op, r⟩], hys, by simp [trace], ?_⟩
    rw [Machine.run_cons]
    simp only [Fifo.machine, hsim, Option.bind_some, Machine.run_nil]

theorem valid_step {s s' : QueueSystem T c ι} {a : QueueAct T ι} (h : ∃ xs, s.q.Valid xs)
    (hstep : (machine T c ι).step s a = some s') : ∃ xs, s'.q.Valid xs := by
  obtain ⟨xs, hxs⟩ := h
  obtain ⟨ys, -, hys, -⟩ := step_simulates hxs (stepped_of_step hstep)
  exact ⟨ys, hys⟩

/-- The ring is valid in every reachable state. -/
theorem valid_of_run (hc : 1 ≤ c) {acts : List (QueueAct T ι)} {s : QueueSystem T c ι}
    (hrun : (machine T c ι).run (machine T c ι).init acts = some s) :
    ∃ xs, s.q.Valid xs := by
  exact Machine.run_invariant (P := fun s : QueueSystem T c ι => ∃ xs, s.q.Valid xs)
    ⟨[], BoundedQueue.valid_new hc⟩ (fun _ _ _ h hstep => valid_step h hstep) hrun

/-- **Trace refinement**: the calls of every run, in the order in which they return, are a trace
    of the bounded FIFO that leads to the values in the queue. -/
theorem trace_refines (hc : 1 ≤ c) {acts : List (QueueAct T ι)} {s : QueueSystem T c ι}
    (hrun : (machine T c ι).run (machine T c ι).init acts = some s) :
    (Fifo.machine T c).run (Fifo.machine T c).init s.trace = some s.abs := by
  refine Machine.trace_refinement (M := machine T c ι) (N := Fifo.machine T c) abs trace
    (fun s => ∃ xs, s.q.Valid xs) ⟨[], BoundedQueue.valid_new hc⟩
    (fun _ _ _ h hstep => valid_step h hstep) ?_ rfl ?_ hrun
  · exact Fifo.ext (BoundedQueue.valid_new hc).contents_eq rfl
  · rintro s a s' ⟨xs, hxs⟩ hstep
    obtain ⟨ys, bs, hys, htr, hrun⟩ := step_simulates hxs (stepped_of_step hstep)
    refine ⟨bs, htr, ?_⟩
    rw [abs, abs, hxs.contents_eq, hys.contents_eq]
    exact hrun

/-! ## Shutdown and drain -/

/-- What a single step promises: a refused push changes nothing, no push succeeds once the queue
    is closed, a blocking pop comes back empty-handed only from a closed and empty queue, and the
    queue stays closed. -/
theorem step_promises {s s' : QueueSystem T c ι} {xs : List T} (h : s.q.Valid xs)
    (hstep : Stepped s s') :
    (s.q.closed = true → s'.q.closed = true) ∧
      ∀ e, s'.log = s.log ++ [e] →
        (∀ v, e.result = .pushed v false → s'.q = s.q) ∧
        (∀ v, e.result = .pushed v true → s.q.closed = false) ∧
        (e.op = .pop → e.result = .popped none → s.q.closed = true ∧ s.q.size = 0) := by
  cases hstep with
  | parks i op hready hwait => exact ⟨id, fun e he => by simp at he⟩
  | wakes i op hparked => exact ⟨id, fun e he => by simp at he⟩
  | returns i op w hready q r n pc hret hnotify =>
    refine ⟨?_, fun e he => ?_⟩
    · intro hcl
      cases hret with
      | accept v hop hopen hroom =>
        rw [hopen] at hcl
        cases hcl
      | refuse v hop hwhy => exact hcl
      | popLocked hop hpos => exact hcl
      | nothing hop hempty hblock => exact hcl
      | shutdown => rfl
    · obtain rfl : e = ⟨i, op, r⟩ := by simpa using he.symm
      cases hret with
      | accept v hop hopen hroom => exact ⟨nofun, fun _ _ => hopen, nofun⟩
      | refuse v hop hwhy => exact ⟨fun _ _ => rfl, nofun, nofun⟩
      | popLocked hop hpos =>
        -- the slot at `tail_` is engaged as long as `size_` is positive
        obtain ⟨x, rest, rfl⟩ := h.exists_cons hpos
        refine ⟨nofun, nofun, fun _ hnone => ?_⟩
        simp [h.dequeue.1] at hnone
      | nothing hop hempty hblock => exact ⟨nofun, nofun, fun hpop _ => ⟨hblock hpop, hempty⟩⟩
      | shutdown => exact ⟨nofun, nofun, nofun⟩

/-- A pop by an idle thread on a closed queue that is not empty returns the oldest value. -/
theorem call_pop_of_closed {s : QueueSystem T c ι} {x : T} {xs : List T}
    (h : s.q.Valid (x :: xs)) (hparked : NobodyParked .notFull s.pc) {i : ι}
    (hidle : s.pc i = .idle) {op : QueueOp T} (hop : op.isPop = true) :
    (machine T c ι).step s (.call i op none) =
      some ⟨s.q.dequeue, s.pc, s.log ++ [⟨i, op, .popped (some x)⟩]⟩ := by
  have hsize : s.q.size = xs.length + 1 := h.size_eq
  have henter : enter s.q op false = .ret s.q.dequeue (.popped (some x)) .oneNotFull := by
    rw [← h.dequeue.1]
    cases op <;> simp_all [QueueOp.isPop, enter, BoundedQueue.pop, BoundedQueue.tryPop,
      BoundedQueue.tryPopFor, BoundedQueue.popLocked]
  have hsame : Function.update s.pc i .idle = s.pc := by
    rw [← hidle]
    exact Function.update_eq_self i s.pc
  have hnone : tally (queueCondvar T .notFull).parked s.pc = 0 := tally_eq_zero_iff.mpr hparked
  simp [machine, step, hidle, perform, henter, notify, Condvar.notifyOne, hsame, hnone]

/-- **Graceful drain**: on a closed queue, an idle thread gets the values in the queue one after
    the other, with any mix of the pop functions. -/
theorem drain_of_closed {s : QueueSystem T c ι} {xs : List T} (h : s.q.Valid xs)
    (hparked : NobodyParked .notFull s.pc) {i : ι} (hidle : s.pc i = .idle)
    (ops : List (QueueOp T)) (hops : ∀ op ∈ ops, op.isPop = true) (hlen : ops.length = xs.length) :
    ∃ s', (machine T c ι).run s (ops.map fun op => .call i op none) = some s' ∧
      s'.log = s.log ++ (ops.zip xs).map (fun p => ⟨i, p.1, .popped (some p.2)⟩) ∧
      s'.q.contents = [] := by
  induction ops generalizing s xs with
  | nil =>
    obtain rfl := List.eq_nil_of_length_eq_zero hlen.symm
    exact ⟨s, rfl, by simp, h.contents_eq⟩
  | cons op ops ih =>
    obtain ⟨x, rest, rfl⟩ := h.exists_cons (by rw [h.size_eq, ← hlen]; exact Nat.succ_pos _)
    have hstep := call_pop_of_closed h hparked hidle (hops op (List.mem_cons_self ..))
    obtain ⟨s', hrun, hlog, hnil⟩ :=
      ih (s := ⟨s.q.dequeue, s.pc, s.log ++ [⟨i, op, .popped (some x)⟩]⟩) h.dequeue.2 hparked hidle
        (fun op' hop' => hops op' (List.mem_cons_of_mem _ hop')) (by simpa using hlen)
    refine ⟨s', ?_, ?_, hnil⟩
    · rw [List.map_cons, Machine.run_cons, hstep]
      exact hrun
    · rw [hlog]
      simp

/-- **`BoundedQueue` refines the bounded FIFO.** For every capacity `c ≥ 1` and every
    interleaving of calls by any number of threads:

    - the indices and the slots describe a list of at most `c` values;
    - the returned calls are a trace of the bounded FIFO with a closed flag, and the popped
      values followed by the contents are exactly the values whose push returned true;
    - a push that returns false leaves the queue unchanged, no push succeeds after `shutdown`,
      and a blocking pop returns `nullopt` only when the queue is closed and empty;
    - after `shutdown` every value that was accepted can still be popped. -/
theorem boundedQueue_refines_fifo (hc : 1 ≤ c) (acts : List (QueueAct T ι))
    (s : QueueSystem T c ι) (hrun : (machine T c ι).run (machine T c ι).init acts = some s) :
    (s.q.size ≤ c ∧ s.q.head = (s.q.tail + s.q.size) % c ∧
        ∀ i < c, (s.q.slot ((s.q.tail + i) % c)).isSome = true ↔ i < s.q.size) ∧
      (Fifo.machine T c).run (Fifo.machine T c).init s.trace =
        some ⟨s.q.contents, s.q.closed⟩ ∧
      s.pushedValues = s.poppedValues ++ s.q.contents ∧
      (∀ a s', (machine T c ι).step s a = some s' →
        (s.q.closed = true → s'.q.closed = true) ∧
        ∀ e, s'.log = s.log ++ [e] →
          (∀ v, e.result = .pushed v false → s'.q = s.q) ∧
          (∀ v, e.result = .pushed v true → s.q.closed = false) ∧
          (e.op = .pop → e.result = .popped none → s.q.closed = true ∧ s.q.size = 0)) ∧
      (s.q.closed = true → ∀ i, s.pc i = .idle → ∀ ops : List (QueueOp T),
        (∀ op ∈ ops, op.isPop = true) → ops.length = s.q.contents.length →
        ∃ s', (machine T c ι).run s (ops.map fun op => .call i op none) = some s' ∧
          s'.log = s.log ++ (ops.zip s.q.contents).map (fun p => ⟨i, p.1, .popped (some p.2)⟩) ∧
          s'.q.contents = []) := by
  obtain ⟨xs, hxs⟩ := valid_of_run hc hrun
  have hrefines := trace_refines hc hrun
  refine ⟨⟨hxs.size_le, hxs.head_eq, ?_⟩, hrefines, ?_, ?_, ?_⟩
  · intro i hi
    rw [hxs.size_eq]
    exact hxs.ring.occupied_iff hi
  · have horder := (Fifo.run_conserves hrefines).1
    rwa [accepted_trace, taken_trace] at horder
  · exact fun a s' hstep => step_promises hxs (stepped_of_step hstep)
  · intro hcl i hidle ops hops hlen
    rw [hxs.contents_eq] at hlen ⊢
    exact drain_of_closed hxs ((wakeupInv_of_run hrun).closed hcl .notFull) hidle ops hops hlen

/-- A run over a queue of capacity 2 that wraps around, shuts down and still holds a value. -/
theorem boundedQueue_refines_fifo_after_shutdown :
    ∃ s, (machine ℕ 2 (Fin 2)).run (machine ℕ 2 (Fin 2)).init
        [.call 0 (.push 1) none, .call 0 (.tryPush 2) none, .call 1 .pop none,
          .call 0 (.push 3) none, .call 1 .tryPop none, .call 0 .shutdown none,
          .call 0 (.push 4) none] = some s ∧
      s.q.closed = true ∧ s.pushedValues = [1, 2, 3] ∧ s.poppedValues = [1, 2] ∧
      s.pushedValues = s.poppedValues ++ s.q.contents := by
  obtain ⟨s, hrun, hlast⟩ := Machine.exists_of_run_any (machine ℕ 2 (Fin 2))
    (machine ℕ 2 (Fin 2)).init
    [.call 0 (.push 1) none, .call 0 (.tryPush 2) none, .call 1 .pop none,
      .call 0 (.push 3) none, .call 1 .tryPop none, .call 0 .shutdown none,
      .call 0 (.push 4) none]
    (fun s => s.q.closed && decide (s.pushedValues = [1, 2, 3]) &&
      decide (s.poppedValues = [1, 2])) (by decide)
  simp only [Bool.and_eq_true, decide_eq_true_eq] at hlast
  exact ⟨s, hrun, hlast.1.1, hlast.1.2, hlast.2,
    (boundedQueue_refines_fifo (by decide) _ s hrun).2.2.1⟩

end QueueSystem

end Pdk.Queue
