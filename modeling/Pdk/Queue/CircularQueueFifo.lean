import Pdk.Queue.CircularQueue

/-!
# `CircularQueue` is a FIFO under every interleaving

The nodes between `front_` and `rear_` are a list of at most `MAX - 1` values
(`CircularQueue.Valid`). The critical sections act on that list as the operations of
`Foundation.Fifo` do, whatever the semaphores say: the tests `next_rear == front_` and
`front_ == rear_` protect the ring by themselves, and so the result also covers `unlock_queue`,
which adds tokens that stand for no slot.
-/

namespace Pdk.Queue

open Foundation
open Pdk.Sync

/-! ## The ring as a list -/

namespace CircularQueue

variable {T : Type*} [Zero T] {MAX : ℕ}

/-- The queue holds the values `xs`, oldest first, and its indices agree with that. -/
structure Valid (q : CircularQueue T MAX) (xs : List T) : Prop where
  ring : Ring.Represents q.slot MAX q.front xs
  front_lt : q.front < MAX
  length_lt : xs.length < MAX
  rear_eq : q.rear = (q.front + xs.length) % MAX

/-- The value of a node that is in use. -/
def nodeValue (node : QNode T) : Option T :=
  if node.inUse then some node.data else none

omit [Zero T] in
theorem slot_eq (q : CircularQueue T MAX) (k : ℕ) : q.slot k = (q.nodes[k]?).bind nodeValue := by
  unfold slot nodeValue
  cases q.nodes[k]? <;> rfl

omit [Zero T] in
theorem slot_of_setIfInBounds {q q' : CircularQueue T MAX} {i : ℕ} (node : QNode T) (hi : i < MAX)
    (h : q'.nodes = q.nodes.setIfInBounds i node) :
    q'.slot = Function.update q.slot i (nodeValue node) := by
  funext j
  rw [slot_eq, h]
  by_cases hj : j = i
  · subst hj
    simp [hi]
  · rw [Function.update_of_ne hj, Vector.getElem?_setIfInBounds_ne (Ne.symm hj), slot_eq]

omit [Zero T] in
/-- A slot has a value exactly when its `in_use_` is set. -/
theorem slot_isSome {q : CircularQueue T MAX} {k : ℕ} (hk : k < MAX) :
    (q.slot k).isSome = true ↔ q.nodes[k].inUse = true := by
  simp [slot_eq, hk, nodeValue]

theorem valid_new (hMAX : 1 < MAX) : (new T MAX).Valid [] := by
  refine ⟨Ring.Represents.nil fun k => ?_, Nat.lt_of_succ_lt hMAX, Nat.lt_of_succ_lt hMAX, ?_⟩
  · rw [slot_eq, new, initializeQueue, Vector.getElem?_replicate]
    split <;> rfl
  · exact (Nat.zero_mod MAX).symm

namespace Valid

variable {q : CircularQueue T MAX} {xs : List T}

omit [Zero T] in
theorem rear_lt (h : q.Valid xs) : q.rear < MAX := by
  rw [h.rear_eq]
  exact Nat.mod_lt _ (Nat.zero_lt_of_lt h.front_lt)

omit [Zero T] in
theorem length_eq (h : q.Valid xs) : q.length = xs.length := by
  unfold length
  rw [h.rear_eq]
  exact Ring.distance_end h.front_lt h.length_lt

omit [Zero T] in
theorem contents_eq (h : q.Valid xs) : q.contents = xs := by
  unfold contents
  rw [h.length_eq]
  exact h.ring.contents_eq

omit [Zero T] in
theorem isEmpty_iff (h : q.Valid xs) : q.isEmpty ↔ xs = [] := by
  unfold isEmpty
  rw [h.rear_eq, Ring.end_eq_start_iff h.front_lt h.length_lt, List.length_eq_zero_iff]

omit [Zero T] in
theorem isFull_iff (h : q.Valid xs) : q.isFull ↔ xs.length + 1 = MAX := by
  unfold isFull
  rw [h.rear_eq]
  exact Ring.next_end_eq_start_iff h.front_lt h.length_lt

omit [Zero T] in
/-- `in_use_` is set exactly in the slots from `front_` to `rear_`. -/
theorem inUse_iff (h : q.Valid xs) {k : ℕ} (hk : k < MAX) :
    q.nodes[k].inUse = true ↔ (k + MAX - q.front) % MAX < q.length := by
  have hoffset := Ring.offset_index h.front_lt hk
  have hlt : (k + MAX - q.front) % MAX < MAX := Nat.mod_lt _ (by omega)
  have hocc := h.ring.occupied_iff hlt
  rw [hoffset, slot_isSome hk] at hocc
  rw [h.length_eq]
  exact hocc

omit [Zero T] in
/-- The critical section of `put_impl` appends. -/
theorem store (h : q.Valid xs) (v : T) (hroom : ¬q.isFull) : (q.store v).Valid (xs ++ [v]) := by
  have hshort := h.length_lt
  have hlen : xs.length + 1 ≠ MAX := fun heq => hroom (h.isFull_iff.mpr heq)
  have hslot : (q.store v).slot = Function.update q.slot q.rear (some v) :=
    slot_of_setIfInBounds ⟨v, true⟩ h.rear_lt rfl
  refine ⟨?_, h.front_lt, ?_, ?_⟩
  · rw [hslot, h.rear_eq]
    exact h.ring.enqueue h.length_lt v
  · simp only [List.length_append, List.length_singleton]
    omega
  · -- `rear_` moves on by one slot, as the end of the list does
    simp only [CircularQueue.store, List.length_append, List.length_singleton]
    rw [h.rear_eq]
    exact Ring.succ_index MAX q.front xs.length

/-- The critical section of `get_impl` copies the oldest value out and removes it. -/
theorem remove {x : T} (h : q.Valid (x :: xs)) : q.frontData = x ∧ q.remove.Valid xs := by
  have hlen : xs.length + 1 < MAX := h.length_lt
  have hfront : q.slot q.front = some x := h.ring.front h.front_lt
  have hslot : q.remove.slot = Function.update q.slot q.front none :=
    slot_of_setIfInBounds ⟨0, false⟩ h.front_lt rfl
  refine ⟨?_, ?_, Nat.mod_lt _ (by omega), by omega, ?_⟩
  · unfold frontData
    rw [slot] at hfront
    split at hfront
    · split at hfront
      · cases hfront
        rfl
      · cases hfront
    · cases hfront
  · rw [hslot]
    exact h.ring.dequeue h.front_lt
  · -- `rear_` stays where it is
    simp only [CircularQueue.remove]
    rw [Ring.index_succ]
    exact h.rear_eq

end Valid

/-- The indices and the slots. -/
def ring (q : CircularQueue T MAX) : Vector (QNode T) MAX × ℕ × ℕ :=
  (q.nodes, q.front, q.rear)

omit [Zero T] in
/-- The semaphores are not part of the ring. -/
theorem Valid.congr {q q' : CircularQueue T MAX} {xs : List T} (h : q.Valid xs)
    (hring : q'.ring = q.ring) : q'.Valid xs := by
  obtain ⟨nodes, front, rear, semPut, semGet⟩ := q
  obtain ⟨nodes', front', rear', semPut', semGet'⟩ := q'
  simp only [CircularQueue.ring, Prod.mk.injEq] at hring
  obtain ⟨rfl, rfl, rfl⟩ := hring
  exact ⟨h.ring, h.front_lt, h.length_lt, h.rear_eq⟩

end CircularQueue

namespace CircularSystem

variable {T : Type*} [Zero T] {MAX : ℕ} {ι : Type*} [DecidableEq ι]

/-! ## Critical sections as operations of the abstract queue -/

/-- The abstract queue; it is never closed. -/
def abs (s : CircularSystem T MAX ι) : Fifo T :=
  ⟨s.q.contents, false⟩

/-- **Simulation of one step**: it leaves the ring alone and records nothing, or it is a critical
    section that acts on the list as the abstract operation with the same answer does. -/
theorem step_simulates {s s' : CircularSystem T MAX ι} {a : CircularAct T ι} {xs : List T}
    (h : s.q.Valid xs) (hstep : Stepped s a s') :
    ∃ ys bs, s'.q.Valid ys ∧ s'.sections = s.sections ++ bs ∧
      (Fifo.machine T (MAX - 1)).run ⟨xs, false⟩ bs = some ⟨ys, false⟩ := by
  have hlen := h.length_lt
  -- a step outside the critical sections
  have hquiet : s'.q.ring = s.q.ring → s'.sections = s.sections →
      ∃ ys bs, s'.q.Valid ys ∧ s'.sections = s.sections ++ bs ∧
        (Fifo.machine T (MAX - 1)).run ⟨xs, false⟩ bs = some ⟨ys, false⟩ := by
    intro hring hsec
    exact ⟨xs, [], h.congr hring, by simp [hsec], rfl⟩
  cases hstep with
  | acquirePut i op sem hpc hop hwait => exact hquiet rfl rfl
  | acquireGet i op sem hpc hop hwait => exact hquiet rfl rfl
  | refused i op code hpc hblock hcode => exact hquiet rfl rfl
  | undoPut i op hpc hop => exact hquiet rfl rfl
  | undoGet i op hpc hop => exact hquiet rfl rfl
  | donePut i op hpc hop => exact hquiet rfl rfl
  | doneGet i op hpc hop => exact hquiet rfl rfl
  | unlockPut i hpc => exact hquiet rfl rfl
  | unlockGet i hpc => exact hquiet rfl rfl
  | full i op v hpc hop hcrit hfull =>
    refine ⟨xs, [.offer v false], h, rfl, ?_⟩
    have hcap : MAX - 1 ≤ xs.length := by
      have := h.isFull_iff.mp hfull
      omega
    simp [Fifo.machine, Fifo.step, hcap]
  | store i op v hpc hop hcrit hroom =>
    refine ⟨xs ++ [v], [.offer v true], h.store v hroom, rfl, ?_⟩
    have hcap : xs.length < MAX - 1 := by
      have := mt h.isFull_iff.mpr hroom
      omega
    simp [Fifo.machine, Fifo.step, hcap]
  | empty i op hpc hop hcrit hempty =>
    refine ⟨xs, [.poll none], h, rfl, ?_⟩
    simp [Fifo.machine, Fifo.step, h.isEmpty_iff.mp hempty]
  | remove i op hpc hop hcrit hsome =>
    cases xs with
    | nil => exact absurd (h.isEmpty_iff.mpr rfl) hsome
    | cons x rest =>
      obtain ⟨hfront, hvalid⟩ := h.remove
      refine ⟨rest, [.poll (some s.q.frontData)], hvalid, rfl, ?_⟩
      simp [Fifo.machine, Fifo.step, hfront]

theorem valid_step {s s' : CircularSystem T MAX ι} {a : CircularAct T ι}
    (h : ∃ xs, s.q.Valid xs) (hstep : (machine T MAX ι).step s a = some s') :
    ∃ xs, s'.q.Valid xs := by
  obtain ⟨xs, hxs⟩ := h
  obtain ⟨ys, -, hys, -⟩ := step_simulates hxs (stepped_of_step hstep)
  exact ⟨ys, hys⟩

/-- The ring is valid in every reachable state. -/
theorem valid_of_run (hMAX : 1 < MAX) {acts : List (CircularAct T ι)} {s : CircularSystem T MAX ι}
    (hrun : (machine T MAX ι).run (machine T MAX ι).init acts = some s) :
    ∃ xs, s.q.Valid xs :=
  Machine.run_invariant (P := fun s : CircularSystem T MAX ι => ∃ xs, s.q.Valid xs)
    ⟨[], CircularQueue.valid_new hMAX⟩ (fun _ _ _ h hstep => valid_step h hstep) hrun

/-- The critical sections of every run are a trace of the bounded FIFO of `MAX - 1` places. -/
theorem sections_refine (hMAX : 1 < MAX) {acts : List (CircularAct T ι)}
    {s : CircularSystem T MAX ι}
    (hrun : (machine T MAX ι).run (machine T MAX ι).init acts = some s) :
    (Fifo.machine T (MAX - 1)).run (Fifo.machine T (MAX - 1)).init s.sections = some s.abs := by
  refine Machine.trace_refinement (M := machine T MAX ι) (N := Fifo.machine T (MAX - 1)) abs
    sections (fun s => ∃ xs, s.q.Valid xs) ⟨[], CircularQueue.valid_new hMAX⟩
    (fun _ _ _ h hstep => valid_step h hstep) ?_ rfl ?_ hrun
  · exact Fifo.ext (CircularQueue.valid_new hMAX).contents_eq rfl
  · rintro s a s' ⟨xs, hxs⟩ hstep
    obtain ⟨ys, bs, hys, hsec, hbs⟩ := step_simulates hxs (stepped_of_step hstep)
    refine ⟨bs, hsec, ?_⟩
    unfold abs
    rw [hxs.contents_eq, hys.contents_eq]
    exact hbs

/-! ## Refused calls -/

/-- The returns of thread `i`. -/
def loggedBy (s : CircularSystem T MAX ι) (i : ι) : List (CircularEvent T ι) :=
  s.log.filter fun e => decide (e.thread = i)

/-- Thread `i` has used the ring and is bound to report success. -/
def Committed (s : CircularSystem T MAX ι) (i : ι) : Prop :=
  ∃ op, s.pc i = .inside op .left ∧ op ≠ .unlockQueue

/-- Only a critical section that succeeds changes the ring. -/
theorem committed_of_ring_ne {s s' : CircularSystem T MAX ι} {a : CircularAct T ι}
    (hstep : Stepped s a s') (hring : s'.q.ring ≠ s.q.ring) :
    s'.Committed a.thread ∧ s'.log = s.log := by
  cases hstep with
  | store i op v hpc hop hcrit hroom =>
    refine ⟨⟨op, by simp [move, CircularAct.thread], ?_⟩, rfl⟩
    rintro rfl
    cases hop
  | remove i op hpc hop hcrit hsome =>
    refine ⟨⟨op, by simp [move, CircularAct.thread], ?_⟩, rfl⟩
    rintro rfl
    cases hop
  | _ => exact absurd rfl hring

/-- A step of another thread. -/
theorem pc_of_ne {s s' : CircularSystem T MAX ι} {i : ι} {a : CircularAct T ι}
    (hstep : Stepped s a s') (hne : i ≠ a.thread) : s'.pc i = s.pc i := by
  cases hstep <;> exact Function.update_of_ne hne _ _

/-- A step logs at most the return of its own thread. -/
theorem log_of_stepped {s s' : CircularSystem T MAX ι} {a : CircularAct T ι}
    (hstep : Stepped s a s') : ∃ es, s'.log = s.log ++ es ∧ ∀ e ∈ es, e.thread = a.thread := by
  cases hstep with
  | refused i op code hpc hblock hcode => exact ⟨[⟨i, op, code⟩], rfl, by simp [CircularAct.thread]⟩
  | undoPut i op hpc hop => exact ⟨[⟨i, op, .bufferFull⟩], rfl, by simp [CircularAct.thread]⟩
  | undoGet i op hpc hop => exact ⟨[⟨i, op, .bufferEmpty⟩], rfl, by simp [CircularAct.thread]⟩
  | donePut i op hpc hop => exact ⟨[⟨i, op, .success⟩], rfl, by simp [CircularAct.thread]⟩
  | doneGet i op hpc hop => exact ⟨[⟨i, op, .success⟩], rfl, by simp [CircularAct.thread]⟩
  | _ => exact ⟨[], by simp [move, signalPut, signalGet], by simp⟩

theorem loggedBy_of_stepped {s s' : CircularSystem T MAX ι} {i : ι} {a : CircularAct T ι}
    (hstep : Stepped s a s') :
    ∃ es, s'.loggedBy i = s.loggedBy i ++ es ∧ (i ≠ a.thread → es = []) := by
  obtain ⟨es, hes, hthread⟩ := log_of_stepped hstep
  refine ⟨es.filter fun e => decide (e.thread = i), by simp [loggedBy, hes], fun hne => ?_⟩
  simp only [List.filter_eq_nil_iff, decide_eq_true_eq]
  exact fun e he heq => hne (heq.symm.trans (hthread e he))

/-- The step after the critical section returns success. -/
theorem success_of_committed {s s' : CircularSystem T MAX ι} {a : CircularAct T ι}
    (hstep : Stepped s a s') (h : s.Committed a.thread) :
    ∃ op, s'.loggedBy a.thread = s.loggedBy a.thread ++ [⟨a.thread, op, .success⟩] := by
  obtain ⟨op, hleft, hop⟩ := h
  cases hstep with
  | donePut i op hpc hop => exact ⟨op, by simp [loggedBy, finish, signalGet, CircularAct.thread]⟩
  | doneGet i op hpc hop => exact ⟨op, by simp [loggedBy, finish, signalPut, CircularAct.thread]⟩
  | unlockGet i hpc =>
    simp only [CircularAct.thread] at hleft
    rw [hpc] at hleft
    cases hleft
    exact absurd rfl hop
  | _ => simp_all [CircularAct.thread]

/-- The next return of `i` after the returns `past` is a success: it has happened, or it is the
    only thing `i` can do. -/
def SucceedsNext (i : ι) (past : List (CircularEvent T ι)) (s : CircularSystem T MAX ι) : Prop :=
  (s.Committed i ∧ s.loggedBy i = past) ∨
    ∃ op later, s.loggedBy i = past ++ ⟨i, op, .success⟩ :: later

theorem succeedsNext_step {s s' : CircularSystem T MAX ι} {i : ι} {a : CircularAct T ι}
    {past : List (CircularEvent T ι)} (h : SucceedsNext i past s) (hstep : Stepped s a s') :
    SucceedsNext i past s' := by
  rcases h with ⟨hcommitted, hpast⟩ | ⟨op, later, hpast⟩
  · by_cases hij : i = a.thread
    · subst hij
      obtain ⟨op, hop⟩ := success_of_committed hstep hcommitted
      exact .inr ⟨op, [], by rw [hop, hpast]⟩
    · obtain ⟨es, hes, hnil⟩ := loggedBy_of_stepped (i := i) hstep
      refine .inl ⟨?_, by rw [hes, hnil hij, List.append_nil, hpast]⟩
      unfold Committed
      rw [pc_of_ne hstep hij]
      exact hcommitted
  · obtain ⟨es, hes, -⟩ := loggedBy_of_stepped (i := i) hstep
    exact .inr ⟨op, later ++ es, by rw [hes, hpast]; simp⟩

/-- A step of `i` leaves the indices and the slots as they are. -/
def KeepsRing (i : ι) (s : CircularSystem T MAX ι) (a : CircularAct T ι) : Prop :=
  a.thread = i → ∀ t, (machine T MAX ι).step s a = some t → t.q.ring = s.q.ring

/-- **Refused calls change nothing**: when all returns of `i` along a run are refusals and `i` is
    idle at the end, no step of `i` in the run has changed the ring. -/
theorem refused_keepsRing {i : ι} {acts : List (CircularAct T ι)} {s s' : CircularSystem T MAX ι}
    {es : List (CircularEvent T ι)} (hrun : (machine T MAX ι).run s acts = some s')
    (hidle : s'.pc i = .idle) (hes : s'.loggedBy i = s.loggedBy i ++ es)
    (hcode : ∀ e ∈ es, e.code ≠ .success) :
    (machine T MAX ι).Along (KeepsRing i) s acts := by
  induction acts generalizing s es with
  | nil => exact Machine.along_nil _ _ _
  | cons a acts ih =>
    obtain ⟨t, ht, hrest⟩ := Machine.run_cons_eq_some.mp hrun
    have hstep := stepped_of_step ht
    -- the returns of `i` from `t` on are among `es`
    obtain ⟨early, hearly, -⟩ := loggedBy_of_stepped (i := i) hstep
    obtain ⟨late, hlate⟩ := Machine.run_preserves (M := machine T MAX ι)
      (P := fun u => ∃ late, u.loggedBy i = t.loggedBy i ++ late)
      (by
        rintro u b v ⟨late, hu⟩ hv
        obtain ⟨more, hmore, -⟩ := loggedBy_of_stepped (i := i) (stepped_of_step hv)
        exact ⟨late ++ more, by rw [hmore, hu, List.append_assoc]⟩)
      ⟨[], (List.append_nil _).symm⟩ hrest
    have hsplit : es = early ++ late := by
      rw [hlate, hearly, List.append_assoc] at hes
      exact (List.append_cancel_left hes).symm
    subst hsplit
    refine Machine.along_cons.mpr ⟨?_, fun u hu => ?_⟩
    · rintro rfl u hu
      rw [ht] at hu
      cases hu
      by_contra hring
      obtain ⟨hcommitted, hlog⟩ := committed_of_ring_ne hstep hring
      have hpast : t.loggedBy a.thread = s.loggedBy a.thread := by
        unfold loggedBy
        rw [hlog]
      have hnext : SucceedsNext a.thread (s.loggedBy a.thread) s' :=
        Machine.run_preserves (M := machine T MAX ι)
          (P := SucceedsNext a.thread (s.loggedBy a.thread))
          (fun u b v h hv => succeedsNext_step h (stepped_of_step hv))
          (.inl ⟨hcommitted, hpast⟩) hrest
      rcases hnext with ⟨⟨op, hleft, -⟩, -⟩ | ⟨op, later, hlater⟩
      · rw [hidle] at hleft
        cases hleft
      · rw [hes] at hlater
        have hmem : early ++ late = ⟨a.thread, op, .success⟩ :: later :=
          List.append_cancel_left hlater
        exact hcode ⟨a.thread, op, .success⟩ (by simp [hmem]) rfl
    · rw [ht] at hu
      cases hu
      exact ih hrest hlate fun e he => hcode e (List.mem_append_right _ he)

/-! ## The queue is a FIFO -/

/-- The values stored by producers, in the order of the critical sections. -/
def putValues (s : CircularSystem T MAX ι) : List T :=
  Fifo.accepted s.sections

/-- The values copied out to consumers, in the order of the critical sections. -/
def gotValues (s : CircularSystem T MAX ι) : List T :=
  Fifo.taken s.sections

/-- **`CircularQueue` is a FIFO.** For every `MAX > 1` and every interleaving of the atomic steps
    of any number of producers, consumers and `unlock_queue` calls:

    - the values copied out, followed by the ring contents, are the values put, in order;
    - there are at most `MAX - 1` of them in the ring, and `in_use_` is set exactly in the slots
      from `front_` to `rear_`;
    - calls that return `QNODE_BUFFER_FULL` or `QNODE_BUFFER_EMPTY` change neither the indices nor
      any slot: along every run after which thread `i` is idle and in which its calls were all
      refused, every step of `i` keeps the ring. -/
theorem circularQueue_fifo (hMAX : 1 < MAX) (acts : List (CircularAct T ι))
    (s : CircularSystem T MAX ι)
    (hrun : (machine T MAX ι).run (machine T MAX ι).init acts = some s) :
    s.putValues = s.gotValues ++ s.q.contents ∧
      s.q.contents.length = s.q.length ∧ s.q.length ≤ MAX - 1 ∧
      (∀ k (hk : k < MAX),
        s.q.nodes[k].inUse = true ↔ (k + MAX - s.q.front) % MAX < s.q.length) ∧
      ∀ i rest s' es, (machine T MAX ι).run s rest = some s' → s'.pc i = .idle →
        s'.loggedBy i = s.loggedBy i ++ es → (∀ e ∈ es, e.code ≠ .success) →
        (machine T MAX ι).Along (KeepsRing i) s rest := by
  obtain ⟨xs, hxs⟩ := valid_of_run hMAX hrun
  have horder := (Fifo.run_conserves (sections_refine hMAX hrun)).1
  have hlen := hxs.length_lt
  refine ⟨horder, by rw [hxs.contents_eq, hxs.length_eq], ?_, ?_, ?_⟩
  · rw [hxs.length_eq]
    omega
  · exact fun k hk => hxs.inUse_iff hk
  · exact fun i rest s' es hrest hidle hes hcode => refused_keepsRing hrest hidle hes hcode

/-- Three slots that wrap around, with a token added by `unlock_queue` that leads a producer into
    a full ring. -/
theorem circularQueue_fifo_wraps :
    ∃ s, (machine ℕ 3 (Fin 2)).run (machine ℕ 3 (Fin 2)).init
        [.call 0 (.put 1), .next 0, .next 0, .call 0 (.put 2), .next 0, .next 0,
          .call 1 .unlockQueue, .next 1, .call 0 (.put 3), .next 0, .next 0,
          .call 1 .get, .next 1, .call 0 (.tryPut 4), .next 0, .next 0] = some s ∧
      s.putValues = [1, 2, 4] ∧ s.gotValues = [1] ∧ s.q.rear = 0 ∧
      s.putValues = s.gotValues ++ s.q.contents := by
  obtain ⟨s, hrun, hlast⟩ := Machine.exists_of_run_any (machine ℕ 3 (Fin 2))
    (machine ℕ 3 (Fin 2)).init
    [.call 0 (.put 1), .next 0, .next 0, .call 0 (.put 2), .next 0, .next 0,
      .call 1 .unlockQueue, .next 1, .call 0 (.put 3), .next 0, .next 0,
      .call 1 .get, .next 1, .call 0 (.tryPut 4), .next 0, .next 0]
    (fun s => decide (s.putValues = [1, 2, 4]) && decide (s.gotValues = [1]) &&
      decide (s.q.rear = 0)) (by decide)
  simp only [Bool.and_eq_true, decide_eq_true_eq] at hlast
  exact ⟨s, hrun, hlast.1.1, hlast.1.2, hlast.2,
    (circularQueue_fifo (by decide) _ s hrun).1⟩

end CircularSystem

end Pdk.Queue
