import Mathlib.Data.Fintype.Basic
import Pdk.Queue.SharedMemory

/-!
# Mutual exclusion by `SharedMemory::lock`

`Exclusive` is what the mutex of the segment is meant to give: at most one process is inside, the mutex
was initialised by the creator before it was locked, and nobody but its holder has initialised it
again or released it. Since the objects that find the segment initialise the mutex, and the one that
creates it does not, this holds when the segment has a single user: its creator opens it a second
time, nobody else attaches, and it is locked through that second object (`ByCreator`, `joins`).

Mutual exclusion alone needs less. It is enough that objects are attached before they are locked
(`lock()` does nothing otherwise), and that nobody attaches or leaves between the `lock()` of a
process and its `unlock()` (`Apart`).
-/

namespace Pdk.Queue

open Foundation

/-- A call that the contract of the mutex allows. -/
def MutexEvent.Proper {ι : Type*} : MutexEvent ι → Prop
  -- not initialised again by another process than the holder
  | .init i inits holder => inits = [] ∨ holder = some i
  -- locked after the creator has initialised it
  | .lock _ creator inits => creator ∈ inits
  -- not released by another process than the holder
  | .unlock i holder => ∀ j, holder = some j → j = i

namespace SharedSystem

variable {ι : Type*} {s s' : SharedSystem ι}

/-! ## The contracts -/

/-- At most one process is between `lock()` and `unlock()`. -/
def Single (s : SharedSystem ι) : Prop :=
  ∀ i j, (s.proc i).inside = true → (s.proc j).inside = true → i = j

def NobodyInside (s : SharedSystem ι) : Prop :=
  ∀ i, (s.proc i).inside = false

structure Exclusive (s : SharedSystem ι) : Prop where
  single : s.Single
  proper : ∀ e ∈ s.calls, e.Proper

structure Held (s : SharedSystem ι) : Prop where
  single : s.Single
  held : ∀ i, (s.proc i).inside = true → s.holder = some i

/-- The condition on the calls for the whole contract. -/
def ByCreator (s : SharedSystem ι) : SharedAct ι → Prop
  -- of the objects that find the segment, only those of its creator are attached
  | .data i => (s.proc i).initialises = true → s.creator = some i
  | .lock i => (s.proc i).isJoined = true
  | _ => True

instance [DecidableEq ι] (s : SharedSystem ι) : DecidablePred s.ByCreator
  | .data i => inferInstanceAs (Decidable ((s.proc i).initialises = true → s.creator = some i))
  | .lock i => inferInstanceAs (Decidable ((s.proc i).isJoined = true))
  | .construct _ | .constructNext _ | .unlock _ | .destroy _ => isTrue trivial

/-- `data()` attaches an object that has found the segment. -/
def joining (s : SharedSystem ι) : SharedAct ι → ℕ
  | .data i => (s.proc i).initialises.toNat
  | _ => 0

/-- How many calls of `data()` do so. -/
def joins [DecidableEq ι] (s : SharedSystem ι) : List (SharedAct ι) → ℕ
  | [] => 0
  | a :: acts => s.joining a + ((machine ι).step s a).elim 0 (joins · acts)

/-- The condition for mutual exclusion. -/
def Apart (s : SharedSystem ι) : SharedAct ι → Prop
  | .lock i => (s.proc i).isMapped = true
  | .data i => (s.proc i).initialises = true → s.NobodyInside
  | .destroy i => (s.proc i).isMapped = true → s.NobodyInside
  | _ => True

instance [Fintype ι] (s : SharedSystem ι) : Decidable s.NobodyInside :=
  inferInstanceAs (Decidable (∀ i, (s.proc i).inside = false))

instance [Fintype ι] (s : SharedSystem ι) : DecidablePred s.Apart
  | .lock i => inferInstanceAs (Decidable ((s.proc i).isMapped = true))
  | .data i => inferInstanceAs (Decidable ((s.proc i).initialises = true → s.NobodyInside))
  | .destroy i => inferInstanceAs (Decidable ((s.proc i).isMapped = true → s.NobodyInside))
  | .construct _ | .constructNext _ | .unlock _ => isTrue trivial

/-! ## One process moves -/

variable [DecidableEq ι] {i : ι} {p : ShmProc}

theorem inside_of_update (hproc : s'.proc = Function.update s.proc i p)
    (hp : p.inside = true → (s.proc i).inside = true) {j : ι} (hj : (s'.proc j).inside = true) :
    (s.proc j).inside = true := by
  rw [hproc] at hj
  by_cases hji : j = i
  · subst hji
    rw [Function.update_self] at hj
    exact hp hj
  · rw [Function.update_of_ne hji] at hj
    exact hj

/-! ## The whole contract -/

/-- The holder of the mutex is inside, and attached. -/
def HolderInside (s : SharedSystem ι) : Prop :=
  ∀ j, s.holder = some j → (s.proc j).inside = true ∧ (s.proc j).isMapped = true

omit [DecidableEq ι] in
theorem HolderInside.of_none (h : s.holder = none) : s.HolderInside := by
  intro j hj
  rw [h] at hj
  cases hj

/-- A process moves that does not hold the mutex. -/
theorem HolderInside.update (h : s.HolderInside) (hholder : s'.holder = s.holder)
    (hproc : s'.proc = Function.update s.proc i p) (hi : s.holder ≠ some i) : s'.HolderInside := by
  intro j hj
  rw [hholder] at hj
  have hji : j ≠ i := fun heq => hi (heq ▸ hj)
  rw [hproc, Function.update_of_ne hji]
  exact h j hj

omit [DecidableEq ι] in
theorem HolderInside.ne_of_not_mapped (h : s.HolderInside) (hi : (s.proc i).isMapped = false) :
    s.holder ≠ some i := by
  intro heq
  have hmapped := (h i heq).2
  rw [hi] at hmapped
  cases hmapped

omit [DecidableEq ι] in
theorem HolderInside.ne_of_not_inside (h : s.HolderInside) (hi : (s.proc i).inside = false) :
    s.holder ≠ some i := by
  intro heq
  have hinside := (h i heq).1
  rw [hi] at hinside
  cases hinside

omit [DecidableEq ι] in
theorem proper_concat {calls : List (MutexEvent ι)} {event : MutexEvent ι}
    (h : ∀ e ∈ calls, e.Proper) (hevent : event.Proper) : ∀ e ∈ calls ++ [event], e.Proper := by
  intro e he
  rcases List.mem_append.mp he with hold | hnew
  · exact h e hold
  · rw [List.mem_singleton.mp hnew]
    exact hevent

omit [DecidableEq ι] in
theorem creator_of_segment {segment : ShmSegment ι} (h : s.segment = some segment) :
    s.creator = some segment.creator := by
  rw [creator, h]
  rfl

omit [DecidableEq ι] in
theorem inits_of_segment {segment : ShmSegment ι} (h : s.segment = some segment) :
    s.inits = segment.inits := by
  rw [inits, h]
  rfl

omit [DecidableEq ι] in
theorem holder_of_segment {segment : ShmSegment ι} (h : s.segment = some segment) :
    s.holder = segment.holder := by
  rw [holder, h]
  rfl

omit [DecidableEq ι] in
theorem joining_of_quiet {a : SharedAct ι} (h : s.Quiet a) : s.joining a = 0 := by
  cases a with
  | data i =>
    have hinit : (s.proc i).initialises = false := h
    rw [joining, hinit]
    rfl
  | _ => rfl

/-- The segment has a single user, the process that has created it. -/
structure SingleUser (s : SharedSystem ι) : Prop where
  proper : ∀ e ∈ s.calls, e.Proper
  holderInside : s.HolderInside
  creator : ∀ i, (s.proc i).isCreator = true → s.creator = some i
  mapped : ∀ i, (s.proc i).isMapped = true → s.creator = some i
  joined : ∀ i, (s.proc i).isJoined = true → i ∈ s.inits
  inside : ∀ i, (s.proc i).inside = true → (s.proc i).isMapped = true

omit [DecidableEq ι] in
theorem SingleUser.single (h : s.SingleUser) : s.Single := by
  intro i j hi hj
  have hi := h.mapped i (h.inside i hi)
  rw [h.mapped j (h.inside j hj)] at hi
  exact (Option.some.inj hi).symm

omit [DecidableEq ι] in
theorem SingleUser.exclusive (h : s.SingleUser) : s.Exclusive :=
  ⟨h.single, h.proper⟩

omit [DecidableEq ι] in
/-- Behind the invariant nobody is inside without being attached. -/
theorem SingleUser.outside (h : s.SingleUser) (hi : (s.proc i).isMapped = false) :
    (s.proc i).inside = false := by
  by_contra hinside
  have hmapped := h.inside i (Bool.not_eq_false _ ▸ hinside)
  rw [hi] at hmapped
  cases hmapped

omit [DecidableEq ι] in
/-- Behind the invariant nobody uses a segment that is not there. -/
theorem SingleUser.nobody (h : s.SingleUser) (hnone : s.creator = none) (j : ι) :
    (s.proc j).isCreator = false ∧ (s.proc j).isMapped = false := by
  constructor <;> by_contra hj
  · have hcreator := h.creator j (Bool.not_eq_false _ ▸ hj)
    rw [hnone] at hcreator
    cases hcreator
  · have hcreator := h.mapped j (Bool.not_eq_false _ ▸ hj)
    rw [hnone] at hcreator
    cases hcreator

omit [DecidableEq ι] in
theorem isMapped_of_isJoined {p : ShmProc} (h : p.isJoined = true) : p.isMapped = true := by
  cases p with
  | made m inside =>
    simp only [ShmProc.isJoined, Bool.and_eq_true] at h
    exact h.1
  | _ => cases h

/-- What a property of the processes needs when one of them moves. -/
theorem forall_proc_update {P : ShmProc → Prop} {Q : ι → Prop}
    (hproc : s'.proc = Function.update s.proc i p) (hp : P p → Q i)
    (h : ∀ j, j ≠ i → P (s.proc j) → Q j) (j : ι) (hj : P (s'.proc j)) : Q j := by
  rw [hproc] at hj
  by_cases hji : j = i
  · subst hji
    rw [Function.update_self] at hj
    exact hp hj
  · rw [Function.update_of_ne hji] at hj
    exact h j hji hj

/-- A process moves, in a segment that keeps its creator. -/
theorem SingleUser.update (h : s.SingleUser) (hproc : s'.proc = Function.update s.proc i p)
    (hproper : ∀ e ∈ s'.calls, e.Proper) (hholder : s'.HolderInside)
    (hsame : s'.creator = s.creator) (hinits : ∀ j ∈ s.inits, j ∈ s'.inits)
    (hcreator : p.isCreator = true → s.creator = some i)
    (hmapped : p.isMapped = true → s.creator = some i)
    (hjoined : p.isJoined = true → i ∈ s'.inits)
    (hinside : p.inside = true → p.isMapped = true) : s'.SingleUser := by
  refine ⟨hproper, hholder, ?_, ?_, ?_, ?_⟩
  · rw [hsame]
    exact forall_proc_update (P := fun q => q.isCreator = true) hproc hcreator
      fun j _ => h.creator j
  · rw [hsame]
    exact forall_proc_update (P := fun q => q.isMapped = true) hproc hmapped fun j _ => h.mapped j
  · exact forall_proc_update (P := fun q => q.isJoined = true) hproc hjoined
      fun j _ hj => hinits j (h.joined j hj)
  · intro j hj
    rw [hproc] at hj ⊢
    by_cases hji : j = i
    · subst hji
      rw [Function.update_self] at hj ⊢
      exact hinside hj
    · rw [Function.update_of_ne hji] at hj ⊢
      exact h.inside j hj

/-- A process that is attached releases the mutex, and is not inside. -/
theorem SingleUser.release {segment : ShmSegment ι} (h : s.SingleUser)
    (hold : (s.proc i).isMapped = true) (hsegment : s.segment = some segment)
    (hsame : p.isJoined = true → (s.proc i).isJoined = true) (hout : ¬p.inside = true) :
    ((s.call { segment with holder := none } (.unlock i segment.holder)).goTo i p).SingleUser := by
  have hcreator := h.mapped i hold
  refine h.update rfl (proper_concat h.proper ?_) (.of_none rfl) (creator_of_segment hsegment).symm ?_
    (fun _ => hcreator) (fun _ => hcreator) ?_ fun hp => absurd hp hout
  · -- who holds the mutex is attached, so it is the creator as well
    intro j hj
    have hholder := h.mapped j (h.holderInside j (by rw [holder, hsegment]; exact hj)).2
    rw [hcreator] at hholder
    exact (Option.some.inj hholder).symm
  · intro j hj
    rw [inits_of_segment hsegment] at hj
    exact hj
  · intro hp
    have hmem := h.joined i (hsame hp)
    rw [inits_of_segment hsegment] at hmem
    exact hmem

/-- **Step lemma** of the whole contract: `data()` attaches an object that has found the segment for
    the first time. -/
theorem singleUser_step {a : SharedAct ι} (h : s.SingleUser) (hok : s.ByCreator a)
    (hfirst : s.joining a ≠ 0 → s.inits = []) (hstep : Stepped s a s') : s'.SingleUser := by
  cases hstep with
  | moves a i p hquiet hold hinside hcreator hmapped =>
    refine h.update rfl h.proper (h.holderInside.update rfl rfl ?_) rfl (fun j hj => hj)
      (fun hp => h.creator i (hcreator hp)) (fun hp => h.creator i (hcreator (hmapped hp))) ?_ ?_
    · exact h.holderInside.ne_of_not_mapped hold
    · -- an object that is attached here is the creator's
      intro hp
      have hp' := hmapped (isMapped_of_isJoined hp)
      cases p with
      | made m inside =>
        simp only [ShmProc.isJoined, ShmProc.isCreator, Bool.and_eq_true] at hp hp'
        simp [hp.2] at hp'
      | _ => cases hp
    · intro hp
      rw [hinside] at hp
      rw [h.inside i hp] at hold
      cases hold
  | creates i hnone hproc =>
    have hnobody := h.nobody (by rw [SharedSystem.creator, hnone]; rfl)
    refine ⟨h.proper, .of_none rfl, ?_, ?_, ?_, ?_⟩
    · refine forall_proc_update (P := fun q => q.isCreator = true) rfl (fun _ => rfl) fun j _ hj => ?_
      rw [(hnobody j).1] at hj
      cases hj
    · refine forall_proc_update (P := fun q => q.isMapped = true) rfl
        (fun hnew => Bool.noConfusion hnew) fun j _ hj => ?_
      rw [(hnobody j).2] at hj
      cases hj
    · refine forall_proc_update (P := fun q => q.isJoined = true) rfl
        (fun hnew => Bool.noConfusion hnew) fun j _ hj => ?_
      have hmapped : (s.proc j).isMapped = true := isMapped_of_isJoined hj
      rw [(hnobody j).2] at hmapped
      cases hmapped
    · intro j hj
      have hout := h.outside (hnobody j).2
      by_cases hji : j = i
      · subst hji
        simp [goTo, ShmProc.inside] at hj
      · simp only [goTo, Function.update_of_ne hji, hout] at hj
        cases hj
  | initialises i m inside segment hproc hnull hid horigin hsegment =>
    have hinit : (s.proc i).initialises = true := by
      simp [hproc, ShmProc.initialises, hnull, hid, horigin]
    have hnone : segment.inits = [] := by
      rw [← inits_of_segment hsegment]
      exact hfirst (by simp [joining, hinit])
    refine h.update rfl (proper_concat h.proper (.inl hnone)) (.of_none rfl)
      (creator_of_segment hsegment).symm ?_ (fun _ => hok hinit) (fun _ => hok hinit) ?_ fun _ => rfl
    · intro j hj
      rw [inits_of_segment hsegment] at hj
      exact List.mem_append_left _ hj
    · exact fun _ => List.mem_append_right _ (List.mem_singleton_self i)
  | stays i hquiet => exact h
  | locksNothing i m hproc hnull =>
    have hjoined : (s.proc i).isJoined = true := hok
    simp [hproc, ShmProc.isJoined, hnull] at hjoined
  | locks i m segment hproc hmapped hsegment hfree =>
    have hjoined : (s.proc i).isJoined = true := hok
    have hcreator := h.mapped i (isMapped_of_isJoined hjoined)
    have hproper : segment.creator ∈ segment.inits := by
      rw [creator_of_segment hsegment] at hcreator
      rw [Option.some.inj hcreator, ← inits_of_segment hsegment]
      exact h.joined i hjoined
    refine h.update rfl (proper_concat h.proper hproper) ?_ (creator_of_segment hsegment).symm ?_
      (fun _ => hcreator) (fun _ => hcreator) ?_ fun _ => by simp [ShmProc.isMapped, hmapped]
    · intro j hj
      obtain rfl : i = j := Option.some.inj hj
      simp [call, goTo, ShmProc.inside, ShmProc.isMapped, hmapped]
    · intro j hj
      rw [inits_of_segment hsegment] at hj
      exact hj
    · intro _
      have hmem := h.joined i hjoined
      rw [inits_of_segment hsegment] at hmem
      exact hmem
  | unlocksNothing i m hproc hnull =>
    have hmapped := h.inside i (by rw [hproc]; rfl)
    simp [hproc, ShmProc.isMapped, hnull] at hmapped
  | unlocks i m segment hproc hmapped hsegment =>
    exact h.release (p := .made m false) (by simp [hproc, ShmProc.isMapped, hmapped]) hsegment
      (fun hp => hproc ▸ hp) fun hp => Bool.noConfusion hp
  | destroys i m segment hproc hmapped hsegment =>
    exact h.release (p := .gone) (by simp [hproc, ShmProc.isMapped, hmapped]) hsegment
      (fun hp => Bool.noConfusion hp) fun hp => Bool.noConfusion hp

/-! ### Whole runs -/

/-- A step adds the process to those that have initialised the mutex, if it attaches an object that
    has found the segment. -/
theorem length_inits_step {a : SharedAct ι} (hstep : Stepped s a s') :
    s'.inits.length = s.inits.length + s.joining a := by
  cases hstep with
  | moves a i p hquiet hold hinside hcreator hmapped =>
    rw [joining_of_quiet hquiet]
    rfl
  | creates i hnone hproc => simp [inits, goTo, joining, hnone]
  | initialises i m inside segment hproc hnull hid horigin hsegment =>
    have hinit : (s.proc i).initialises = true := by
      simp [hproc, ShmProc.initialises, hnull, hid, horigin]
    simp [inits, goTo, call, joining, hinit, hsegment]
  | stays i hquiet =>
    rw [joining_of_quiet hquiet]
    rfl
  | locksNothing i m hproc hnull => rfl
  | unlocksNothing i m hproc hnull => rfl
  | _ => simp [inits, goTo, call, joining, *]

theorem length_inits_run {acts : List (SharedAct ι)} (hrun : (machine ι).run s acts = some s') :
    s'.inits.length = s.inits.length + s.joins acts := by
  induction acts generalizing s with
  | nil =>
    cases hrun
    rfl
  | cons a acts ih =>
    obtain ⟨t, ht, hrest⟩ := Machine.run_cons_eq_some.mp hrun
    rw [ih hrest, length_inits_step (stepped_of_step ht), joins, ht]
    simp only [Option.elim_some]
    omega

/-- **Run lemma** of the whole contract. -/
theorem throughout_singleUser {acts : List (SharedAct ι)} (h : s.SingleUser)
    (hok : (machine ι).Along ByCreator s acts) (hjoins : s.inits.length + s.joins acts ≤ 1) :
    (machine ι).Throughout SingleUser s acts := by
  induction acts generalizing s with
  | nil =>
    intro before after t hsplit hrun
    obtain ⟨rfl, -⟩ := List.append_eq_nil_iff.mp hsplit.symm
    cases hrun
    exact h
  | cons a acts ih =>
    cases hnext : (machine ι).step s a with
    | none =>
      intro before after t hsplit hrun
      cases before with
      | nil =>
        cases hrun
        exact h
      | cons b before =>
        obtain ⟨rfl, -⟩ := List.cons.inj hsplit
        obtain ⟨u, hu, -⟩ := Machine.run_cons_eq_some.mp hrun
        rw [hnext] at hu
        cases hu
    | some t =>
      have hstep := stepped_of_step hnext
      have hcount : s.joins (a :: acts) = s.joining a + t.joins acts := by
        rw [joins, hnext]
        rfl
      rw [hcount] at hjoins
      rw [Machine.throughout_cons hnext]
      refine ⟨h, ih (singleUser_step h hok.1 ?_ hstep) (hok.2 t hnext) ?_⟩
      · intro hjoining
        exact List.eq_nil_of_length_eq_zero (by omega)
      · rw [length_inits_step hstep]
        omega

theorem exists_step_lock {m : SharedMemory} {segment : ShmSegment ι}
    (hproc : s.proc i = .made m false) (hmapped : m.mutexPtr = .mapped)
    (hsegment : s.segment = some segment) (hfree : segment.holder = none) :
    ∃ t, (machine ι).step s (.lock i) = some t ∧
      .lock i segment.creator segment.inits ∈ t.calls := by
  refine ⟨(s.call { segment with holder := some i } (.lock i segment.creator segment.inits)).goTo i
    (.made m true), ?_, List.mem_append_right _ (List.mem_singleton_self _)⟩
  simp [machine, step, lock, hproc, hmapped, hsegment, hfree]

/-- An object that found the segment is attached by another process than its creator, or not for the
    first time. Then the contract is broken, or it is as soon as that process locks. -/
theorem exists_not_exclusive (h : s.SingleUser) (hinit : (s.proc i).initialises = true)
    (hnot : s.creator = some i → s.inits ≠ []) (hstep : Stepped s (.data i) s') :
    ∃ more t, (machine ι).run s' more = some t ∧ ¬t.Exclusive := by
  cases hstep with
  | moves _ j p hquiet hold hinside hcreator hmapped =>
    rw [show (s.proc i).initialises = false from hquiet] at hinit
    cases hinit
  | stays _ hquiet =>
    rw [show (s.proc _).initialises = false from hquiet] at hinit
    cases hinit
  | initialises i m inside segment hproc hnull hid horigin hsegment =>
    have hold : (s.proc i).isMapped = false := by simp [hproc, ShmProc.isMapped, hnull]
    rw [creator_of_segment hsegment, inits_of_segment hsegment] at hnot
    by_cases hnone : segment.inits = []
    · -- nobody has initialised the mutex, so the process is not the creator
      have hother : segment.creator ≠ i := fun heq => hnot (by rw [heq]) hnone
      have hout := h.outside hold
      rw [hproc] at hout
      obtain rfl : inside = false := hout
      obtain ⟨t, ht, hcall⟩ := exists_step_lock (i := i) (m := { m with mutexPtr := .mapped })
        (s := (s.call { segment with inits := segment.inits ++ [i], holder := none }
          (.init i segment.inits segment.holder)).goTo i (.made { m with mutexPtr := .mapped } false))
        (by simp [goTo]) rfl rfl rfl
      refine ⟨[.lock i], t, by rw [Machine.run_cons, ht]; rfl, ?_⟩
      intro hexclusive
      have hproper := hexclusive.proper _ hcall
      rw [hnone] at hproper
      exact hother (List.mem_singleton.mp hproper)
    · refine ⟨[], _, rfl, ?_⟩
      intro hexclusive
      have hproper := hexclusive.proper (.init i segment.inits segment.holder)
        (List.mem_append_right _ (List.mem_singleton_self _))
      have hholder := hproper.resolve_left hnone
      rw [← holder_of_segment hsegment] at hholder
      exact h.holderInside.ne_of_not_mapped hold hholder

/-! ## Mutual exclusion alone -/

/-- Inside are the processes that hold the mutex, and no others. -/
structure Guarded (s : SharedSystem ι) : Prop where
  held : ∀ i, (s.proc i).inside = true → s.holder = some i
  holderInside : s.HolderInside

omit [DecidableEq ι] in
theorem Guarded.single (h : s.Guarded) : s.Single := by
  intro i j hi hj
  have hi := h.held i hi
  rw [h.held j hj] at hi
  exact (Option.some.inj hi).symm

omit [DecidableEq ι] in
theorem Guarded.toHeld (h : s.Guarded) : s.Held :=
  ⟨h.single, h.held⟩

omit [DecidableEq ι] in
theorem Guarded.nobody (h : s.Guarded) (hnone : s.holder = none) : s.NobodyInside := by
  intro i
  by_contra hi
  rw [h.held i (Bool.not_eq_false _ ▸ hi)] at hnone
  cases hnone

/-- A process moves that is not inside. -/
theorem Guarded.update (h : s.Guarded) (hholder : s'.holder = s.holder)
    (hproc : s'.proc = Function.update s.proc i p) (hp : p.inside = (s.proc i).inside)
    (hi : (s.proc i).isMapped = false) : s'.Guarded := by
  refine ⟨?_, h.holderInside.update hholder hproc (h.holderInside.ne_of_not_mapped hi)⟩
  intro j hj
  rw [hholder]
  exact h.held j (inside_of_update hproc (fun hinside => hp ▸ hinside) hj)

omit [DecidableEq ι] in
/-- Nobody is inside behind the step, and nobody holds the mutex. -/
theorem guarded_of_nobody (hholder : s'.holder = none) (hnobody : s'.NobodyInside) : s'.Guarded := by
  refine ⟨?_, .of_none hholder⟩
  intro i hi
  rw [hnobody i] at hi
  cases hi

theorem NobodyInside.update (h : ∀ j, j ≠ i → (s.proc j).inside = false)
    (hproc : s'.proc = Function.update s.proc i p) (hp : p.inside = false) : s'.NobodyInside := by
  intro j
  rw [hproc]
  by_cases hji : j = i
  · subst hji
    rw [Function.update_self]
    exact hp
  · rw [Function.update_of_ne hji]
    exact h j hji

/-- **Step lemma** of mutual exclusion. -/
theorem guarded_step {a : SharedAct ι} (h : s.Guarded) (hok : s.Apart a) (hstep : Stepped s a s') :
    s'.Guarded := by
  cases hstep with
  | moves a i p hquiet hold hinside => exact h.update rfl rfl hinside hold
  | creates i hnone hproc =>
    have hnobody := h.nobody (by rw [holder, hnone]; rfl)
    exact guarded_of_nobody rfl (NobodyInside.update (fun j _ => hnobody j) rfl rfl)
  | initialises i m inside segment hproc hnull hid horigin hsegment =>
    have hnobody := hok (by simp [hproc, ShmProc.initialises, hnull, hid, horigin])
    have hout : inside = false := by
      have hi := hnobody i
      rw [hproc] at hi
      exact hi
    exact guarded_of_nobody rfl (NobodyInside.update (fun j _ => hnobody j) rfl hout)
  | stays i hquiet => exact h
  | locksNothing i m hproc hnull =>
    have hmapped : (s.proc i).isMapped = true := hok
    simp [hproc, ShmProc.isMapped, hnull] at hmapped
  | locks i m segment hproc hmapped hsegment hfree =>
    have hnobody := h.nobody (by rw [holder, hsegment]; exact hfree)
    refine ⟨?_, ?_⟩
    · intro j hj
      have hij : i = j := by
        by_contra hne
        simp only [call, goTo, Function.update_of_ne (Ne.symm hne), hnobody j] at hj
        cases hj
      rw [← hij]
      rfl
    · intro j hj
      obtain rfl : i = j := Option.some.inj hj
      simp [call, goTo, ShmProc.inside, ShmProc.isMapped, hmapped]
  | unlocksNothing i m hproc hnull =>
    -- whoever is inside holds the mutex, and is attached
    have hinside : (s.proc i).inside = true := by rw [hproc]; rfl
    have hmapped := (h.holderInside i (h.held i hinside)).2
    simp [hproc, ShmProc.isMapped, hnull] at hmapped
  | unlocks i m segment hproc hmapped hsegment =>
    have hinside : (s.proc i).inside = true := by rw [hproc]; rfl
    refine guarded_of_nobody rfl (NobodyInside.update ?_ rfl rfl)
    intro j hji
    by_contra hj
    exact hji (h.single j i (Bool.not_eq_false _ ▸ hj) hinside)
  | destroys i m segment hproc hmapped hsegment =>
    have hnobody := hok (by simp [hproc, ShmProc.isMapped, hmapped])
    exact guarded_of_nobody rfl (NobodyInside.update (fun j _ => hnobody j) rfl rfl)

omit [DecidableEq ι] in
theorem apart_of_quiet {a : SharedAct ι} (h : s.Quiet a) : s.Apart a := by
  cases a with
  | lock i => exact h.elim
  | data i =>
    intro hinit
    rw [show (s.proc i).initialises = false from h] at hinit
    cases hinit
  | destroy i =>
    intro hmapped
    rw [show (s.proc i).isMapped = false from h] at hmapped
    cases hmapped
  | _ => trivial

/-- The mutex is reset while another process is inside. -/
theorem not_held_of_reset (hholder : s'.holder = none)
    (hproc : s'.proc = Function.update s.proc i p) (hp : p.inside = (s.proc i).inside)
    (h : ¬s.NobodyInside) : ¬s'.Held := by
  simp only [NobodyInside, not_forall, Bool.not_eq_false] at h
  obtain ⟨j, hj⟩ := h
  have hj' : (s'.proc j).inside = true := by
    rw [hproc]
    by_cases hji : j = i
    · subst hji
      rw [Function.update_self, hp]
      exact hj
    · rw [Function.update_of_ne hji]
      exact hj
  intro hheld
  have hsome := hheld.held j hj'
  rw [hholder] at hsome
  cases hsome

/-- A call that does not keep apart leaves a process inside that does not hold the mutex. -/
theorem not_held_step {a : SharedAct ι} (h : s.Guarded) (hnot : ¬s.Apart a)
    (hstep : Stepped s a s') : ¬s'.Held := by
  cases hstep with
  | moves a i p hquiet hold hinside => exact absurd (apart_of_quiet hquiet) hnot
  | creates i hnone hproc => exact absurd trivial hnot
  | initialises i m inside segment hproc hnull hid horigin hsegment =>
    simp only [Apart, Classical.not_imp] at hnot
    exact not_held_of_reset (s := s) rfl rfl (by rw [hproc]; rfl) hnot.2
  | stays i hquiet => exact absurd (apart_of_quiet hquiet) hnot
  | locksNothing i m hproc hnull =>
    intro hheld
    have hinside : ((s.goTo i (.made m true)).proc i).inside = true := by simp [goTo, ShmProc.inside]
    exact h.holderInside.ne_of_not_inside (i := i) (by rw [hproc]; rfl) (hheld.held i hinside)
  | locks i m segment hproc hmapped hsegment hfree =>
    exact absurd (by simp [Apart, hproc, ShmProc.isMapped, hmapped]) hnot
  | unlocksNothing i m hproc hnull => exact absurd trivial hnot
  | unlocks i m segment hproc hmapped hsegment => exact absurd trivial hnot
  | destroys i m segment hproc hmapped hsegment =>
    simp only [Apart, Classical.not_imp] at hnot
    exact not_held_of_reset (s := s) rfl rfl (by rw [hproc]; rfl) hnot.2

/-! ## Whole runs -/

theorem guarded_init : (machine ι).init.Guarded :=
  guarded_of_nobody rfl fun _ => rfl

theorem singleUser_init : (machine ι).init.SingleUser := by
  refine ⟨fun e he => (by cases he), .of_none rfl, ?_, ?_, ?_, ?_⟩
  all_goals
    intro i hi
    cases hi

/-- All processes inside hold the mutex, in every state of a run, exactly when objects are attached
    before they are locked and nobody attaches to a segment that is there, or destroys an attached
    object, while a process is inside. -/
theorem throughout_held_iff {acts : List (SharedAct ι)} {s : SharedSystem ι}
    (hrun : (machine ι).run (machine ι).init acts = some s) :
    (machine ι).Throughout Held (machine ι).init acts ↔
      (machine ι).Along Apart (machine ι).init acts := by
  refine Machine.throughout_iff_along (I := Guarded) (fun s hs => hs.toHeld) ?_ ?_ guarded_init hrun
  · intro s a s' hs hok hstep
    exact guarded_step hs hok (stepped_of_step hstep)
  · intro s a s' hs hnot hstep
    exact not_held_step hs hnot (stepped_of_step hstep)

/-- **When `SharedMemory::lock` keeps its contract**, in every run of the processes that use a key.
    The whole contract holds in every state of a run in which at most one object that found the
    segment is attached, an object of the process that created it, and `lock()` is called through
    that object; the next call of `data()` that attaches another one leads to a broken contract.
    Mutual exclusion holds in every state of a run in which objects are attached before they are
    locked, and nobody attaches to a segment that is there, or destroys an attached object, between
    the `lock()` and the `unlock()` of a process. -/
theorem lock_contract (acts : List (SharedAct ι)) :
    ((machine ι).Along ByCreator (machine ι).init acts → (machine ι).init.joins acts ≤ 1 →
        (machine ι).Throughout Exclusive (machine ι).init acts ∧
        ∀ i s s', (machine ι).run (machine ι).init acts = some s →
          (machine ι).step s (.data i) = some s' → (s.proc i).initialises = true →
          (s.creator = some i → (machine ι).init.joins acts = 1) →
          ∃ more t, (machine ι).run s' more = some t ∧ ¬t.Exclusive) ∧
      ((machine ι).Along Apart (machine ι).init acts →
        (machine ι).Throughout Single (machine ι).init acts) := by
  constructor
  · intro hok hjoins
    have hcount : (machine ι).init.inits.length + (machine ι).init.joins acts ≤ 1 := by
      rw [show (machine ι).init.inits.length = 0 from rfl]
      omega
    have hsingle := throughout_singleUser singleUser_init hok hcount
    refine ⟨fun before after t hsplit ht => (hsingle before after t hsplit ht).exclusive, ?_⟩
    intro i s s' hrun hstep hinit hother
    refine exists_not_exclusive (hsingle acts [] s (List.append_nil acts).symm hrun) hinit ?_
      (stepped_of_step hstep)
    intro hcreator hnone
    have hlength := length_inits_run hrun
    rw [hnone, hother hcreator] at hlength
    exact absurd hlength (by simp)
  · intro hok
    refine Machine.throughout_of_along (I := Guarded) (fun s hs => hs.single) ?_ guarded_init hok
    intro s a s' hs hok hstep
    exact guarded_step hs hok (stepped_of_step hstep)

/-- A process that creates the segment, opens it again and locks it, while another process has found
    it; and two processes that attach before they lock one after the other. -/
theorem lock_contract_in_turn :
    (∃ s, (machine (Fin 2)).run (machine (Fin 2)).init
        [.construct 0, .constructNext 0, .data 0, .destroy 0, .construct 0, .construct 1,
          .constructNext 1, .constructNext 0, .data 0, .lock 0] = some s ∧
      (s.proc 0).inside = true ∧ s.holder = some 0 ∧
      (machine (Fin 2)).Throughout Exclusive (machine (Fin 2)).init
        [.construct 0, .constructNext 0, .data 0, .destroy 0, .construct 0, .construct 1,
          .constructNext 1, .constructNext 0, .data 0, .lock 0]) ∧
    ∃ s, (machine (Fin 2)).run (machine (Fin 2)).init
        [.construct 0, .constructNext 0, .construct 1, .constructNext 1, .data 0, .data 1, .lock 0,
          .unlock 0, .lock 1] = some s ∧
      (s.proc 1).inside = true ∧
      (machine (Fin 2)).Throughout Single (machine (Fin 2)).init
        [.construct 0, .constructNext 0, .construct 1, .constructNext 1, .data 0, .data 1, .lock 0,
          .unlock 0, .lock 1] :=
  ⟨⟨_, rfl, rfl, rfl, ((lock_contract _).1 (by decide) (by decide)).1⟩,
    ⟨_, rfl, rfl, (lock_contract _).2 (by decide)⟩⟩

/-- The creator locks, and a second process attaches, which resets the mutex, and locks as well. -/
theorem not_exclusive_late_joiner :
    ∃ s, (machine (Fin 2)).run (machine (Fin 2)).init
        [.construct 0, .constructNext 0, .data 0, .lock 0, .construct 1, .constructNext 1, .data 1,
          .lock 1] = some s ∧
      (s.proc 0).inside = true ∧ (s.proc 1).inside = true ∧ ¬s.Exclusive ∧ ¬s.Held := by
  refine ⟨_, rfl, rfl, rfl, ?_, ?_⟩
  · intro h
    exact absurd (h.single 0 1 rfl rfl) (by decide)
  · intro h
    exact absurd (h.single 0 1 rfl rfl) (by decide)

end SharedSystem

end Pdk.Queue
