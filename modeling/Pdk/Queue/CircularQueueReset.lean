import Pdk.Queue.CircularQueueTokens

/-!
# `CircularQueue::reset` with calls under way

`reset` (`include/util.hpp`) clears the nodes and the indices and sets both semaphores, without
`crit_sec_`. It is one step here, between any two steps of the puts and gets.

A call that is under way has taken a token which `reset` puts back a second time, or is about to
release one which stands for a slot or a value that is gone. Such a token is never lost again
(`Account`), so that the semaphores agree with the ring afterwards exactly when no call is under way
at a `reset` (`reset_recovers_iff`).
-/

namespace Pdk.Queue

open Foundation
open Pdk.Sync

inductive ResetAct (T : Type*) (ι : Type*) where
  -- a step of a call other than `unlock_queue`
  | transfer (a : CircularAct T ι)
  | reset

def CircularPc.isIdle {T : Type*} : CircularPc T → Bool
  | .idle => true
  | .inside _ _ => false

theorem CircularPc.eq_idle {T : Type*} {pc : CircularPc T} (h : pc.isIdle = true) : pc = .idle := by
  cases pc with
  | idle => rfl
  | inside op point => cases h

namespace CircularSystem

variable {T : Type*} [Zero T] {MAX : ℕ} {ι : Type*}

/-- `CircularQueue::reset`. -/
def reset (s : CircularSystem T MAX ι) : CircularSystem T MAX ι :=
  { s with q := s.q.initializeQueue }

omit [Zero T] in
/-- No call is under way. -/
def Quiet (s : CircularSystem T MAX ι) : Prop :=
  ∀ i, (s.pc i).isIdle = true

variable [DecidableEq ι]

def resetStep (s : CircularSystem T MAX ι) : ResetAct T ι → Option (CircularSystem T MAX ι)
  | .transfer a => if a.isTransfer then s.step a else none
  | .reset => some s.reset

def resetMachine (T : Type*) [Zero T] (MAX : ℕ) (ι : Type*) [DecidableEq ι] :
    Machine (CircularSystem T MAX ι) (ResetAct T ι) :=
  ⟨(machine T MAX ι).init, resetStep⟩

/-! ## The property and the condition -/

/-- `s'` is reached from `s` by puts and gets alone. -/
def Transfers (s s' : CircularSystem T MAX ι) : Prop :=
  ∃ acts, (∀ a ∈ acts, CircularAct.isTransfer a = true) ∧
    (machine T MAX ι).run s acts = some s'

/-- The semaphores agree with the ring, and the blocking calls that begin now will succeed. -/
structure Agrees (s : CircularSystem T MAX ι) : Prop where
  put : s.q.semPut.count + s.q.length = MAX - 1
  get : s.q.semGet.count = s.q.length
  later : ∀ s', s.Transfers s' → ∃ es, s'.log = s.log ++ es ∧
    ∀ e ∈ es, e.op.isBlocking = true → e.code = .success

/-- Once the calls that are under way have returned, the queue is consistent. -/
def Recovers (s : CircularSystem T MAX ι) : Prop :=
  ∀ s', s.Transfers s' → s'.Quiet → s'.Agrees

omit [Zero T] [DecidableEq ι] in
/-- No call is under way at a `reset`. -/
def QuietReset (s : CircularSystem T MAX ι) : ResetAct T ι → Prop
  | .transfer _ => True
  | .reset => s.Quiet

instance [Fintype ι] (s : CircularSystem T MAX ι) : Decidable s.Quiet :=
  inferInstanceAs (Decidable (∀ i, (s.pc i).isIdle = true))

instance [Fintype ι] (s : CircularSystem T MAX ι) : ∀ a, Decidable (s.QuietReset a)
  | .transfer _ => inferInstanceAs (Decidable True)
  | .reset => inferInstanceAs (Decidable s.Quiet)

/-! ## Every call can return -/

section Returns

variable {s s' : CircularSystem T MAX ι} {i : ι} {op : CircularOp T}

/-- Behind the critical section. -/
theorem returns_of_left (hpc : s.pc i = .inside op .left) :
    ∃ s', (machine T MAX ι).step s (.next i) = some s' ∧ s'.critSec = s.critSec ∧
      s'.pc = Function.update s.pc i .idle := by
  simp only [machine, step, hpc]
  cases op <;> exact ⟨_, rfl, rfl, rfl⟩

/-- In front of the step that gives the token back. -/
theorem returns_of_undoes (hpc : s.pc i = .inside op .undoes)
    (hop : op.isPut = true ∨ op.isGet = true) :
    ∃ s', (machine T MAX ι).step s (.next i) = some s' ∧ s'.critSec = none ∧
      s'.pc = Function.update s.pc i .idle := by
  simp only [machine, step, hpc]
  rcases hop with hop | hop
  · cases op <;> first | exact ⟨_, rfl, rfl, rfl⟩ | cases hop
  · cases op <;> first | exact ⟨_, rfl, rfl, rfl⟩ | cases hop

/-- In front of the critical section. -/
theorem enters_of_holds (hpc : s.pc i = .inside op .holds) (hcrit : s.critSec = none)
    (hop : op.isPut = true ∨ op.isGet = true) :
    ∃ s' point, (machine T MAX ι).step s (.next i) = some s' ∧
      s'.pc = Function.update s.pc i (.inside op point) ∧
      (point = .undoes ∨ point = .left ∧ s'.critSec = none) := by
  have hput : ∀ v, ∃ s' point, s.putSection i op v = some s' ∧
      s'.pc = Function.update s.pc i (.inside op point) ∧
      (point = .undoes ∨ point = .left ∧ s'.critSec = none) := by
    intro v
    unfold putSection
    rw [if_neg (by simpa using hcrit)]
    split
    · exact ⟨_, .undoes, rfl, rfl, .inl rfl⟩
    · exact ⟨_, .left, rfl, rfl, .inr ⟨rfl, hcrit⟩⟩
  have hget : ∃ s' point, s.getSection i op = some s' ∧
      s'.pc = Function.update s.pc i (.inside op point) ∧
      (point = .undoes ∨ point = .left ∧ s'.critSec = none) := by
    unfold getSection
    rw [if_neg (by simpa using hcrit)]
    split
    · exact ⟨_, .undoes, rfl, rfl, .inl rfl⟩
    · exact ⟨_, .left, rfl, rfl, .inr ⟨rfl, hcrit⟩⟩
  simp only [machine, step, hpc]
  cases op with
  | put v => exact hput v
  | tryPut v => exact hput v
  | get => exact hget
  | tryGet => exact hget
  | getTimed timeoutMs => exact hget
  | unlockQueue => simp [CircularOp.isPut, CircularOp.isGet] at hop

/-- A call gets to its end without the steps of other threads. -/
theorem exists_return (hcrit : s.critSec = none) {point : CircularPoint}
    (hpc : s.pc i = .inside op point) (hpoint : point ≠ .undoes)
    (hop : op.isPut = true ∨ op.isGet = true) :
    ∃ s', s.Transfers s' ∧ s'.critSec = none ∧ s'.pc = Function.update s.pc i .idle := by
  have htransfer : ∀ k, ∀ a ∈ List.replicate k (CircularAct.next (T := T) i),
      a.isTransfer = true := by
    intro k a ha
    rw [List.eq_of_mem_replicate ha]
    rfl
  cases point with
  | undoes => exact absurd rfl hpoint
  | left =>
    obtain ⟨s', hstep, hcrit', hpc'⟩ := returns_of_left hpc
    refine ⟨s', ⟨_, htransfer 1, ?_⟩, hcrit'.trans hcrit, hpc'⟩
    exact Machine.run_cons_eq_some.mpr ⟨s', hstep, rfl⟩
  | holds =>
    obtain ⟨t, point, hstep, hpct, hcritt⟩ := enters_of_holds hpc hcrit hop
    have hinside : t.pc i = .inside op point := by rw [hpct, Function.update_self]
    have hlast : ∃ s', (machine T MAX ι).step t (.next i) = some s' ∧ s'.critSec = none ∧
        s'.pc = Function.update t.pc i .idle := by
      rcases hcritt with rfl | ⟨rfl, hfree⟩
      · exact returns_of_undoes hinside hop
      · rw [← hfree]
        exact returns_of_left hinside
    obtain ⟨s', hstep', hcrit', hpc'⟩ := hlast
    refine ⟨s', ⟨_, htransfer 2, ?_⟩, hcrit', ?_⟩
    · exact Machine.run_cons_eq_some.mpr ⟨t, hstep, Machine.run_cons_eq_some.mpr ⟨s', hstep', rfl⟩⟩
    · rw [hpc', hpct, Function.update_idem]

omit [Zero T] [DecidableEq ι] in
/-- Calls in front of or behind their critical sections, which nobody is inside of. -/
structure Forward (s : CircularSystem T MAX ι) : Prop where
  critSec : s.critSec = none
  calls : ∀ i op point, s.pc i = .inside op point →
    point ≠ .undoes ∧ (op.isPut = true ∨ op.isGet = true)

theorem Transfers.trans {s₁ s₂ s₃ : CircularSystem T MAX ι} (h : s₁.Transfers s₂)
    (h' : s₂.Transfers s₃) : s₁.Transfers s₃ := by
  obtain ⟨acts, htransfer, hrun⟩ := h
  obtain ⟨acts', htransfer', hrun'⟩ := h'
  refine ⟨acts ++ acts', ?_, Machine.run_append_eq_some.mpr ⟨s₂, hrun, hrun'⟩⟩
  intro a ha
  rcases List.mem_append.mp ha with ha | ha
  · exact htransfer a ha
  · exact htransfer' a ha

/-- **All calls can return.** The induction is on the number of calls that are under way. -/
theorem exists_quiet [Fintype ι] (h : s.Forward) : ∃ s', s.Transfers s' ∧ s'.Quiet := by
  induction hn : tally (fun pc : CircularPc T => !pc.isIdle) s.pc generalizing s with
  | zero =>
    refine ⟨s, ⟨[], nofun, rfl⟩, fun i => ?_⟩
    simpa using tally_eq_zero_iff.mp hn i
  | succ n ih =>
    obtain ⟨i, hi⟩ := tally_pos_iff.mp (by rw [hn]; exact Nat.succ_pos n)
    cases hpc : s.pc i with
    | idle =>
      rw [hpc] at hi
      cases hi
    | inside op point =>
      obtain ⟨hpoint, hop⟩ := h.calls i op point hpc
      obtain ⟨t, ht, hcrit, hpct⟩ := exists_return h.critSec hpc hpoint hop
      have hfewer : tally (fun pc : CircularPc T => !pc.isIdle) t.pc = n := by
        have hleave := tally_update_leave (p := fun pc : CircularPc T => !pc.isIdle) (f := s.pc)
          (i := i) (a := .idle) hi rfl
        rw [hpct]
        omega
      have hcalls : t.Forward := by
        refine ⟨hcrit, fun j op point hj => ?_⟩
        rw [hpct] at hj
        by_cases hij : j = i
        · rw [hij, Function.update_self] at hj
          cases hj
        · rw [Function.update_of_ne hij] at hj
          exact h.calls j op point hj
      obtain ⟨s', hs', hquiet⟩ := ih hcalls hfewer
      exact ⟨s', ht.trans hs', hquiet⟩

end Returns

/-! ## The account of a reset -/

section Reset

variable [Fintype ι] {s s' : CircularSystem T MAX ι}

omit [Zero T] [DecidableEq ι] in
theorem tally_of_quiet (h : s.Quiet) (kind : CircularOp T → Bool) (point : CircularPoint) :
    tally (CircularPc.isAt kind point) s.pc = 0 := by
  rw [tally_eq_zero_iff]
  intro i
  rw [CircularPc.eq_idle (h i)]
  rfl

omit [Zero T] [DecidableEq ι] in
/-- With no call under way, all tokens are in the semaphores. -/
theorem Account.of_quiet {p g : ℕ} (h : s.Account p g) (hquiet : s.Quiet) :
    s.q.semPut.count + s.q.length = p ∧ s.q.semGet.count = s.q.length + g := by
  have hput := h.put
  have hget := h.get
  simp only [producersHolding, producersUndoing, consumersLeft, consumersHolding, consumersUndoing,
    producersLeft, tally_of_quiet hquiet] at hput hget
  exact ⟨by omega, by omega⟩

omit [Zero T] [DecidableEq ι] in
/-- A call that is under way is at one of four points. -/
theorem pos_of_not_quiet (h : s.Tokens) (hnot : ¬s.Quiet) :
    0 < s.producersHolding + s.consumersLeft + (s.consumersHolding + s.producersLeft) := by
  rw [Quiet, not_forall] at hnot
  obtain ⟨i, hi⟩ := hnot
  cases hpc : s.pc i with
  | idle => exact absurd (by rw [hpc]; rfl) hi
  | inside op point =>
    have hat : ∀ kind, kind op = true → 0 < tally (CircularPc.isAt kind point) s.pc :=
      fun kind hkind => tally_pos (i := i) (by simp [hpc, CircularPc.isAt, hkind])
    obtain ⟨hpoint, hop⟩ := h.forward i op point hpc
    unfold producersHolding consumersLeft consumersHolding producersLeft
    cases point with
    | undoes => exact absurd rfl hpoint
    | holds =>
      rcases hop with hop | hop
      · have hpos := hat _ hop
        omega
      · have hpos := hat _ hop
        omega
    | left =>
      rcases hop with hop | hop
      · have hpos := hat _ hop
        omega
      · have hpos := hat _ hop
        omega

omit [DecidableEq ι] in
/-- The tokens of the calls that are under way at a reset are there in addition. -/
theorem account_reset (hMAX : 1 < MAX) (h : s.Tokens) :
    s.reset.Account (MAX - 1 + (s.producersHolding + s.consumersLeft))
      (s.consumersHolding + s.producersLeft) := by
  have hvalid : s.reset.q.Valid [] := CircularQueue.valid_new hMAX
  have hlen : s.reset.q.length = 0 := hvalid.length_eq
  have hundoing := undoing_eq_zero fun i op point hpc => (h.forward i op point hpc).1
  refine ⟨⟨[], hvalid⟩, ?_, ?_, fun i op point hpc => (h.forward i op point hpc).2⟩
  · rw [hlen, producersUndoing]
    show MAX - 1 + s.producersHolding + tally _ s.pc + 0 + s.consumersLeft = _
    rw [hundoing]
    omega
  · rw [hlen, consumersUndoing]
    show 0 + s.consumersHolding + tally _ s.pc + s.producersLeft = _
    rw [hundoing]
    omega

theorem Transfers.account {p g : ℕ} (hp : p + 1 < 2 ^ 32) (hg : MAX + g < 2 ^ 32)
    (h : s.Account p g) (hrun : s.Transfers s') : s'.Account p g := by
  obtain ⟨acts, htransfer, hrun⟩ := hrun
  exact Machine.run_preserves_along
    (fun _ _ _ h ha hstep => account_step hp hg h ha (stepped_of_step hstep)) h
    (Machine.along_of_forall htransfer s) hrun

theorem Transfers.tokens (hint : MAX < 2 ^ 31) (h : s.Tokens) (hrun : s.Transfers s') :
    s'.Tokens := by
  obtain ⟨acts, htransfer, hrun⟩ := hrun
  exact Machine.run_preserves_along
    (fun _ _ _ h ha hstep => tokens_step hint h ha (stepped_of_step hstep)) h
    (Machine.along_of_forall htransfer s) hrun

omit [Fintype ι] in
theorem Transfers.log (hrun : s.Transfers s') : ∃ es, s'.log = s.log ++ es := by
  obtain ⟨acts, -, hrun⟩ := hrun
  refine Machine.run_preserves (P := fun t => ∃ es, t.log = s.log ++ es) ?_
    ⟨[], (List.append_nil _).symm⟩ hrun
  rintro t a t' ⟨es, hes⟩ hstep
  obtain ⟨es', hes', -⟩ := log_of_stepped (stepped_of_step hstep)
  exact ⟨es ++ es', by rw [hes', hes, List.append_assoc]⟩

/-- With the account in balance, the queue recovers. -/
theorem Tokens.recovers (hint : MAX < 2 ^ 31) (h : s.Tokens) : s.Recovers := by
  intro s' hrun hquiet
  have htokens := hrun.tokens hint h
  obtain ⟨hput, hget⟩ := htokens.account.of_quiet hquiet
  refine ⟨hput, hget, fun s'' hlater => ?_⟩
  obtain ⟨es, hes⟩ := hlater.log
  refine ⟨es, hes, fun e he => (hlater.tokens hint htokens).returns e ?_⟩
  rw [hes]
  exact List.mem_append_right _ he

/-- A call that is under way at a reset leaves a token too many. -/
theorem not_recovers_reset (hMAX : 1 < MAX) (hint : MAX < 2 ^ 31) (h : s.Tokens)
    (hcrit : s.critSec = none) (hnot : ¬s.Quiet) : ¬s.reset.Recovers := by
  intro hrecovers
  obtain ⟨xs, hxs⟩ := h.valid
  have hlen := hxs.length_lt
  rw [← hxs.length_eq] at hlen
  have hput := h.put
  have hget := h.get
  have hsome := pos_of_not_quiet h hnot
  obtain ⟨s', hrun, hquiet⟩ := exists_quiet (s := s.reset) ⟨hcrit, h.forward⟩
  obtain ⟨hput', hget'⟩ :=
    (hrun.account (by omega) (by omega) (account_reset hMAX h)).of_quiet hquiet
  have hagrees := hrecovers s' hrun hquiet
  have hagree := hagrees.put
  have hagree' := hagrees.get
  omega

/-! ## Whole runs -/

/-- The account is in balance, and nobody is inside a critical section. -/
structure Balanced (s : CircularSystem T MAX ι) : Prop where
  tokens : s.Tokens
  critSec : s.critSec = none

/-- A critical section is one step, unless the ring is full or empty. -/
theorem critSec_of_stepped {a : CircularAct T ι} (h : s.Balanced)
    (hstep : Stepped s a s') : s'.critSec = none := by
  cases hstep with
  | full i op v hpc hop hcrit hfull => exact absurd hfull (h.tokens.not_isFull hpc hop)
  | empty i op hpc hop hcrit hempty => exact absurd hempty (h.tokens.not_isEmpty hpc hop)
  | undoPut i op hpc hop => rfl
  | undoGet i op hpc hop => rfl
  | _ => exact h.critSec

omit [DecidableEq ι] in
theorem balanced_reset (hMAX : 1 < MAX) (h : s.Balanced) (hquiet : s.Quiet) : s.reset.Balanced := by
  refine ⟨?_, h.critSec⟩
  have haccount := account_reset hMAX h.tokens
  simp only [producersHolding, consumersLeft, consumersHolding, producersLeft,
    tally_of_quiet hquiet] at haccount
  exact haccount.tokens h.tokens.forward h.tokens.returns

theorem balanced_step (hMAX : 1 < MAX) (hint : MAX < 2 ^ 31) {a : ResetAct T ι} (h : s.Balanced)
    (hok : s.QuietReset a) (hstep : s.resetStep a = some s') : s'.Balanced := by
  cases a with
  | transfer a =>
    simp only [resetStep] at hstep
    split at hstep
    · rename_i ha
      have hstepped := stepped_of_step (s := s) hstep
      exact ⟨tokens_step hint h.tokens ha hstepped, critSec_of_stepped h hstepped⟩
    · cases hstep
  | reset =>
    cases hstep
    exact balanced_reset hMAX h hok

theorem not_recovers_step (hMAX : 1 < MAX) (hint : MAX < 2 ^ 31) {a : ResetAct T ι}
    (h : s.Balanced) (hnot : ¬s.QuietReset a) (hstep : s.resetStep a = some s') :
    ¬s'.Recovers := by
  cases a with
  | transfer a => exact absurd trivial hnot
  | reset =>
    cases hstep
    exact not_recovers_reset hMAX hint h.tokens h.critSec hnot

/-- **The queue recovers exactly from the resets during which no call is under way.** For every
    `MAX > 1` that is an `int`, and every interleaving of the steps of puts and gets with resets. -/
theorem reset_recovers_iff (hMAX : 1 < MAX) (hint : MAX < 2 ^ 31) {acts : List (ResetAct T ι)}
    (hrun : (resetMachine T MAX ι).run (machine T MAX ι).init acts = some s) :
    (resetMachine T MAX ι).Throughout Recovers (machine T MAX ι).init acts ↔
      (resetMachine T MAX ι).Along QuietReset (machine T MAX ι).init acts :=
  Machine.throughout_iff_along (I := Balanced) (fun _ h => h.tokens.recovers hint)
    (fun _ _ _ h hok hstep => balanced_step hMAX hint h hok hstep)
    (fun _ _ _ h hnot hstep => not_recovers_step hMAX hint h hnot hstep)
    ⟨tokens_init hMAX, rfl⟩ hrun

end Reset

/-- A put has returned, and a consumer waits, when the queue is reset. -/
theorem reset_recovers_between_calls :
    let acts : List (ResetAct ℕ (Fin 2)) :=
      [.transfer (.call 0 (.put 1)), .transfer (.next 0), .transfer (.next 0), .reset,
        .transfer (.call 0 (.put 2)), .transfer (.next 0), .transfer (.next 0),
        .transfer (.call 1 .get)]
    ∃ s, (resetMachine ℕ 3 (Fin 2)).run (machine ℕ 3 (Fin 2)).init acts = some s ∧
      (resetMachine ℕ 3 (Fin 2)).Throughout Recovers (machine ℕ 3 (Fin 2)).init acts := by
  intro acts
  exact ⟨_, rfl, (reset_recovers_iff (by decide) (by decide) rfl).mpr (by decide)⟩

/-- A put holds a token at the reset: when it has returned, `sem_put_` is 2 with one value in a ring
    of two places, and of the two blocking puts that follow the second one returns
    `QNODE_BUFFER_FULL`. -/
theorem reset_recovers_counterexample :
    let acts : List (ResetAct ℕ (Fin 1)) := [.transfer (.call 0 (.put 1)), .reset]
    let later : List (ResetAct ℕ (Fin 1)) :=
      [.transfer (.next 0), .transfer (.next 0), .transfer (.call 0 (.put 2)), .transfer (.next 0),
        .transfer (.next 0), .transfer (.call 0 (.put 3)), .transfer (.next 0), .transfer (.next 0)]
    ∃ s s', (resetMachine ℕ 3 (Fin 1)).run (machine ℕ 3 (Fin 1)).init acts = some s ∧
      (resetMachine ℕ 3 (Fin 1)).run s later = some s' ∧
      s'.log.map CircularEvent.code = [.success, .success, .bufferFull] ∧
      ¬(resetMachine ℕ 3 (Fin 1)).Throughout Recovers (machine ℕ 3 (Fin 1)).init acts := by
  intro acts later
  refine ⟨_, _, rfl, rfl, by decide, ?_⟩
  intro h
  have hrecovers := h acts [] _ (List.append_nil acts).symm rfl
  have hagrees := hrecovers _ ⟨[.next 0, .next 0], by simp [CircularAct.isTransfer], rfl⟩ (by decide)
  exact absurd hagrees.put (by decide)

end CircularSystem

end Pdk.Queue
