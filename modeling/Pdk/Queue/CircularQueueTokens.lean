import Pdk.Foundation.Tally
import Pdk.Queue.CircularQueueFifo

/-!
# The semaphores of `CircularQueue` agree with the ring

A token is in one of three places: in the semaphore, with a thread that holds it but has not
entered the critical section, or with a thread that has left the critical section and is about to
release it to the other side. Counting all of them gives two equations that every step keeps, as
long as nobody calls `unlock_queue`. They leave no room for the full and empty branches inside the
critical sections.
-/

namespace Pdk.Queue

open Foundation
open Pdk.Sync

/-- Inside a call of the given kind, at the given point. -/
def CircularPc.isAt {T : Type*} (kind : CircularOp T → Bool) (point : CircularPoint) :
    CircularPc T → Bool
  | .idle => false
  | .inside op p => kind op && decide (p = point)

/-- The call is not `unlock_queue`. -/
def CircularAct.isTransfer {T ι : Type*} : CircularAct T ι → Bool
  | .call _ op => op.isPut || op.isGet
  | .next _ => true

namespace CircularOp

variable {T : Type*}

theorem isGet_of_isPut {op : CircularOp T} (h : op.isPut = true) : op.isGet = false := by
  cases op <;> first | rfl | cases h

theorem isPut_of_isGet {op : CircularOp T} (h : op.isGet = true) : op.isPut = false := by
  cases op <;> first | rfl | cases h

end CircularOp

namespace CircularSystem

variable {T : Type*} {MAX : ℕ} {ι : Type*} [Fintype ι]

/-- Producers that hold a token of `sem_put_` and are not yet in the critical section. -/
def producersHolding (s : CircularSystem T MAX ι) : ℕ :=
  tally (CircularPc.isAt CircularOp.isPut .holds) s.pc

/-- Producers that have left the critical section and not yet released `sem_get_`. -/
def producersLeft (s : CircularSystem T MAX ι) : ℕ :=
  tally (CircularPc.isAt CircularOp.isPut .left) s.pc

/-- Consumers that hold a token of `sem_get_` and are not yet in the critical section. -/
def consumersHolding (s : CircularSystem T MAX ι) : ℕ :=
  tally (CircularPc.isAt CircularOp.isGet .holds) s.pc

/-- Consumers that have left the critical section and not yet released `sem_put_`. -/
def consumersLeft (s : CircularSystem T MAX ι) : ℕ :=
  tally (CircularPc.isAt CircularOp.isGet .left) s.pc

/-- Every token is accounted for. -/
structure Tokens (s : CircularSystem T MAX ι) : Prop where
  valid : ∃ xs, s.q.Valid xs
  put : s.q.semPut.count + s.producersHolding + s.q.length + s.consumersLeft = MAX - 1
  get : s.q.semGet.count + s.consumersHolding + s.producersLeft = s.q.length
  -- nobody gives a token back, and nobody is inside `unlock_queue`
  forward : ∀ i op point, s.pc i = .inside op point →
    point ≠ .undoes ∧ (op.isPut = true ∨ op.isGet = true)
  returns : ∀ e ∈ s.log, e.op.isBlocking = true → e.code = .success

/-- Producers that found the ring full and are about to give their token back. -/
def producersUndoing (s : CircularSystem T MAX ι) : ℕ :=
  tally (CircularPc.isAt CircularOp.isPut .undoes) s.pc

/-- Consumers that found the ring empty and are about to give their token back. -/
def consumersUndoing (s : CircularSystem T MAX ι) : ℕ :=
  tally (CircularPc.isAt CircularOp.isGet .undoes) s.pc

/-- The account of the tokens, for any number `p` of tokens of the producers and any surplus `g` of
    tokens of the consumers. -/
structure Account (p g : ℕ) (s : CircularSystem T MAX ι) : Prop where
  valid : ∃ xs, s.q.Valid xs
  put : s.q.semPut.count + s.producersHolding + s.producersUndoing + s.q.length + s.consumersLeft = p
  get : s.q.semGet.count + s.consumersHolding + s.consumersUndoing + s.producersLeft = s.q.length + g
  transfers : ∀ i op point, s.pc i = .inside op point → op.isPut = true ∨ op.isGet = true

theorem undoing_eq_zero {s : CircularSystem T MAX ι}
    (h : ∀ i op point, s.pc i = .inside op point → point ≠ .undoes) (kind : CircularOp T → Bool) :
    tally (CircularPc.isAt kind .undoes) s.pc = 0 := by
  rw [tally_eq_zero_iff]
  intro i
  cases hpc : s.pc i with
  | idle => rfl
  | inside op point => simp [CircularPc.isAt, h i op point hpc]

namespace Tokens

variable {s : CircularSystem T MAX ι}

/-- A producer with a token finds room. -/
theorem not_isFull (h : s.Tokens) {i : ι} {op : CircularOp T} (hpc : s.pc i = .inside op .holds)
    (hop : op.isPut = true) : ¬s.q.isFull := by
  obtain ⟨xs, hxs⟩ := h.valid
  have hpos : 0 < s.producersHolding := tally_pos (i := i) (by simp [hpc, CircularPc.isAt, hop])
  have hput := h.put
  rw [hxs.isFull_iff]
  rw [hxs.length_eq] at hput
  omega

/-- A consumer with a token finds a value. -/
theorem not_isEmpty (h : s.Tokens) {i : ι} {op : CircularOp T} (hpc : s.pc i = .inside op .holds)
    (hop : op.isGet = true) : ¬s.q.isEmpty := by
  obtain ⟨xs, hxs⟩ := h.valid
  have hpos : 0 < s.consumersHolding := tally_pos (i := i) (by simp [hpc, CircularPc.isAt, hop])
  have hget := h.get
  rw [hxs.isEmpty_iff]
  rintro rfl
  rw [hxs.length_eq, List.length_nil] at hget
  omega

theorem account (h : s.Tokens) : s.Account (MAX - 1) 0 := by
  have hundoing := undoing_eq_zero fun i op point hpc => (h.forward i op point hpc).1
  refine ⟨h.valid, ?_, ?_, fun i op point hpc => (h.forward i op point hpc).2⟩
  · rw [producersUndoing, hundoing]
    exact h.put
  · rw [consumersUndoing, hundoing]
    exact h.get

end Tokens

namespace Account

variable {s : CircularSystem T MAX ι} {p g : ℕ}

/-- No signal wraps around. -/
theorem count_signal (h : s.Account p g) (hp : p + 1 < 2 ^ 32) (hg : MAX + g < 2 ^ 32) :
    s.q.semPut.signal.count = s.q.semPut.count + 1 ∧
      s.q.semGet.signal.count = s.q.semGet.count + 1 := by
  obtain ⟨xs, hxs⟩ := h.valid
  have hput := h.put
  have hget := h.get
  have hlen := hxs.length_lt
  rw [← hxs.length_eq] at hlen
  constructor
  · apply Semaphore.count_signal
    omega
  · apply Semaphore.count_signal
    omega

/-- **Local conservation**: a step of one thread keeps the account if the tokens of that thread,
    the semaphores and the ring do. -/
theorem of_local [DecidableEq ι] {s' : CircularSystem T MAX ι} (h : s.Account p g) (i : ι)
    (pc : CircularPc T) (hpc : s'.pc = Function.update s.pc i pc) (hvalid : ∃ xs, s'.q.Valid xs)
    (hput : s'.q.semPut.count + (pc.isAt CircularOp.isPut .holds).toNat +
        (pc.isAt CircularOp.isPut .undoes).toNat + s'.q.length +
        (pc.isAt CircularOp.isGet .left).toNat =
      s.q.semPut.count + ((s.pc i).isAt CircularOp.isPut .holds).toNat +
        ((s.pc i).isAt CircularOp.isPut .undoes).toNat + s.q.length +
        ((s.pc i).isAt CircularOp.isGet .left).toNat)
    (hget : s'.q.semGet.count + (pc.isAt CircularOp.isGet .holds).toNat +
        (pc.isAt CircularOp.isGet .undoes).toNat + (pc.isAt CircularOp.isPut .left).toNat +
        s.q.length =
      s.q.semGet.count + ((s.pc i).isAt CircularOp.isGet .holds).toNat +
        ((s.pc i).isAt CircularOp.isGet .undoes).toNat +
        ((s.pc i).isAt CircularOp.isPut .left).toNat + s'.q.length)
    (htransfers : ∀ op point, pc = .inside op point → op.isPut = true ∨ op.isGet = true) :
    s'.Account p g := by
  have hcount := fun kind point => tally_update (CircularPc.isAt kind point) s.pc i pc
  have hold := h.put
  have hold' := h.get
  constructor
  · exact hvalid
  · have h₁ := hcount CircularOp.isPut .holds
    have h₂ := hcount CircularOp.isPut .undoes
    have h₃ := hcount CircularOp.isGet .left
    simp only [producersHolding, producersUndoing, consumersLeft, hpc] at hold ⊢
    omega
  · have h₁ := hcount CircularOp.isGet .holds
    have h₂ := hcount CircularOp.isGet .undoes
    have h₃ := hcount CircularOp.isPut .left
    simp only [producersLeft, consumersUndoing, consumersHolding, hpc] at hold' ⊢
    omega
  · intro j op point hj
    rw [hpc] at hj
    by_cases hij : j = i
    · subst hij
      rw [Function.update_self] at hj
      exact htransfers op point hj
    · rw [Function.update_of_ne hij] at hj
      exact h.transfers j op point hj

/-- The account of a queue in which nobody gives a token back. -/
theorem tokens (h : s.Account (MAX - 1) 0)
    (hforward : ∀ i op point, s.pc i = .inside op point →
      point ≠ .undoes ∧ (op.isPut = true ∨ op.isGet = true))
    (hreturns : ∀ e ∈ s.log, e.op.isBlocking = true → e.code = .success) : s.Tokens := by
  have hundoing := undoing_eq_zero fun i op point hpc => (hforward i op point hpc).1
  have hput := h.put
  have hget := h.get
  rw [producersUndoing, hundoing] at hput
  rw [consumersUndoing, hundoing] at hget
  exact ⟨h.valid, hput, hget, hforward, hreturns⟩

end Account

variable [Zero T] [DecidableEq ι]

/-- **Step lemma**: every step of a put or a get keeps the account. -/
theorem account_step {p g : ℕ} {s s' : CircularSystem T MAX ι} {a : CircularAct T ι}
    (hp : p + 1 < 2 ^ 32) (hg : MAX + g < 2 ^ 32) (h : s.Account p g) (ha : a.isTransfer = true)
    (hstep : Stepped s a s') : s'.Account p g := by
  obtain ⟨xs, hxs⟩ := h.valid
  obtain ⟨hsigPut, hsigGet⟩ := h.count_signal hp hg
  have hvalid : ∃ ys, s'.q.Valid ys := by
    obtain ⟨ys, -, hys, -⟩ := step_simulates hxs hstep
    exact ⟨ys, hys⟩
  cases hstep with
  | acquirePut i op sem hpc hop hwait =>
    have hcount := Semaphore.count_of_wait hwait
    have hget := CircularOp.isGet_of_isPut hop
    apply h.of_local i _ rfl hvalid
    · simp [move, CircularPc.isAt, hpc, hop, hget, hcount, CircularQueue.length]
    · simp [move, CircularPc.isAt, hpc, hop, hget, CircularQueue.length]
    · rintro _ _ ⟨⟩
      exact .inl hop
  | acquireGet i op sem hpc hop hwait =>
    have hcount := Semaphore.count_of_wait hwait
    have hput := CircularOp.isPut_of_isGet hop
    apply h.of_local i _ rfl hvalid
    · simp [move, CircularPc.isAt, hpc, hop, hput, CircularQueue.length]
    · simp [move, CircularPc.isAt, hpc, hop, hput, hcount, CircularQueue.length]
    · rintro _ _ ⟨⟩
      exact .inr hop
  | refused i op code hpc hblock hcode =>
    apply h.of_local i _ rfl hvalid
    · simp [finish, CircularPc.isAt, hpc]
    · simp [finish, CircularPc.isAt, hpc]
    · rintro _ _ ⟨⟩
  | full i op v hpc hop hcrit hfull =>
    have hget := CircularOp.isGet_of_isPut hop
    apply h.of_local i _ rfl hvalid
    · simp [move, CircularPc.isAt, hpc, hop, hget]
    · simp [move, CircularPc.isAt, hpc, hop, hget]
    · rintro _ _ ⟨⟩
      exact .inl hop
  | empty i op hpc hop hcrit hempty =>
    have hput := CircularOp.isPut_of_isGet hop
    apply h.of_local i _ rfl hvalid
    · simp [move, CircularPc.isAt, hpc, hop, hput]
    · simp [move, CircularPc.isAt, hpc, hop, hput]
    · rintro _ _ ⟨⟩
      exact .inr hop
  | store i op v hpc hop hcrit hroom =>
    have hget := CircularOp.isGet_of_isPut hop
    have hlen : (s.q.store v).length = s.q.length + 1 := by
      rw [(hxs.store v hroom).length_eq, hxs.length_eq, List.length_append, List.length_singleton]
    have hsem : (s.q.store v).semPut = s.q.semPut ∧ (s.q.store v).semGet = s.q.semGet := ⟨rfl, rfl⟩
    apply h.of_local i _ rfl hvalid
    · simp [move, CircularPc.isAt, hpc, hop, hget, hlen, hsem.1]
      omega
    · simp [move, CircularPc.isAt, hpc, hop, hget, hlen, hsem.2]
      omega
    · rintro _ _ ⟨⟩
      exact .inl hop
  | remove i op hpc hop hcrit hsome =>
    have hput := CircularOp.isPut_of_isGet hop
    have hlen : s.q.length = s.q.remove.length + 1 := by
      cases xs with
      | nil => exact absurd (hxs.isEmpty_iff.mpr rfl) hsome
      | cons x rest => rw [hxs.length_eq, hxs.remove.2.length_eq, List.length_cons]
    have hsem : s.q.remove.semPut = s.q.semPut ∧ s.q.remove.semGet = s.q.semGet := ⟨rfl, rfl⟩
    apply h.of_local i _ rfl hvalid
    · simp [move, CircularPc.isAt, hpc, hop, hput, hlen, hsem.1]
      omega
    · simp [move, CircularPc.isAt, hpc, hop, hput, hlen, hsem.2]
      omega
    · rintro _ _ ⟨⟩
      exact .inr hop
  | undoPut i op hpc hop =>
    have hget := CircularOp.isGet_of_isPut hop
    apply h.of_local i _ rfl hvalid
    · simp [finish, signalPut, CircularPc.isAt, hpc, hop, hget, hsigPut, CircularQueue.length]
    · simp [finish, signalPut, CircularPc.isAt, hpc, hop, hget, CircularQueue.length]
    · rintro _ _ ⟨⟩
  | undoGet i op hpc hop =>
    have hput := CircularOp.isPut_of_isGet hop
    apply h.of_local i _ rfl hvalid
    · simp [finish, signalGet, CircularPc.isAt, hpc, hop, hput, CircularQueue.length]
    · simp [finish, signalGet, CircularPc.isAt, hpc, hop, hput, hsigGet, CircularQueue.length]
    · rintro _ _ ⟨⟩
  | donePut i op hpc hop =>
    have hget := CircularOp.isGet_of_isPut hop
    apply h.of_local i _ rfl hvalid
    · simp [finish, signalGet, CircularPc.isAt, hpc, hop, hget, CircularQueue.length]
    · simp [finish, signalGet, CircularPc.isAt, hpc, hop, hget, hsigGet, CircularQueue.length]
    · rintro _ _ ⟨⟩
  | doneGet i op hpc hop =>
    have hput := CircularOp.isPut_of_isGet hop
    apply h.of_local i _ rfl hvalid
    · simp [finish, signalPut, CircularPc.isAt, hpc, hop, hput, hsigPut, CircularQueue.length]
      omega
    · simp [finish, signalPut, CircularPc.isAt, hpc, hop, hput, CircularQueue.length]
    · rintro _ _ ⟨⟩
  | unlockPut i hpc => cases ha
  | unlockGet i hpc =>
    rcases h.transfers i _ _ hpc with hop | hop
    · cases hop
    · cases hop

/-- A call finds what its token stands for: it goes forward, and returns success if it is
    blocking. -/
theorem forward_of_stepped {s s' : CircularSystem T MAX ι} {a : CircularAct T ι} (h : s.Tokens)
    (ha : a.isTransfer = true) (hstep : Stepped s a s') :
    ∃ pc es, s'.pc = Function.update s.pc a.thread pc ∧ s'.log = s.log ++ es ∧
      (∀ op point, pc = .inside op point →
        point ≠ .undoes ∧ (op.isPut = true ∨ op.isGet = true)) ∧
      ∀ e ∈ es, e.op.isBlocking = true → e.code = .success := by
  cases hstep with
  | acquirePut i op sem hpc hop hwait =>
    refine ⟨_, [], rfl, (List.append_nil _).symm, ?_, nofun⟩
    rintro _ _ ⟨⟩
    exact ⟨nofun, .inl hop⟩
  | acquireGet i op sem hpc hop hwait =>
    refine ⟨_, [], rfl, (List.append_nil _).symm, ?_, nofun⟩
    rintro _ _ ⟨⟩
    exact ⟨nofun, .inr hop⟩
  | refused i op code hpc hblock hcode =>
    exact ⟨_, [⟨i, op, code⟩], rfl, rfl, nofun, by simp [hblock]⟩
  | full i op v hpc hop hcrit hfull => exact absurd hfull (h.not_isFull hpc hop)
  | empty i op hpc hop hcrit hempty => exact absurd hempty (h.not_isEmpty hpc hop)
  | store i op v hpc hop hcrit hroom =>
    refine ⟨_, [], rfl, (List.append_nil _).symm, ?_, nofun⟩
    rintro _ _ ⟨⟩
    exact ⟨nofun, .inl hop⟩
  | remove i op hpc hop hcrit hsome =>
    refine ⟨_, [], rfl, (List.append_nil _).symm, ?_, nofun⟩
    rintro _ _ ⟨⟩
    exact ⟨nofun, .inr hop⟩
  | undoPut i op hpc hop => exact absurd rfl (h.forward i op .undoes hpc).1
  | undoGet i op hpc hop => exact absurd rfl (h.forward i op .undoes hpc).1
  | donePut i op hpc hop => exact ⟨_, [⟨i, op, .success⟩], rfl, rfl, nofun, by simp⟩
  | doneGet i op hpc hop => exact ⟨_, [⟨i, op, .success⟩], rfl, rfl, nofun, by simp⟩
  | unlockPut i hpc => cases ha
  | unlockGet i hpc =>
    rcases (h.forward i _ _ hpc).2 with hop | hop
    · cases hop
    · cases hop

theorem tokens_step {s s' : CircularSystem T MAX ι} {a : CircularAct T ι} (hint : MAX < 2 ^ 31)
    (h : s.Tokens) (ha : a.isTransfer = true) (hstep : Stepped s a s') : s'.Tokens := by
  have haccount := account_step (by omega) (by omega) h.account ha hstep
  obtain ⟨pc, es, hpc, hlog, hforward, hreturns⟩ := forward_of_stepped h ha hstep
  refine haccount.tokens ?_ ?_
  · intro j op point hj
    rw [hpc] at hj
    by_cases hij : j = a.thread
    · rw [hij, Function.update_self] at hj
      exact hforward op point hj
    · rw [Function.update_of_ne hij] at hj
      exact h.forward j op point hj
  · intro e he hblock
    rw [hlog] at he
    rcases List.mem_append.mp he with hold | hnew
    · exact h.returns e hold hblock
    · exact hreturns e hnew hblock

/-- After construction all tokens are in `sem_put_`. -/
theorem tokens_init (hMAX : 1 < MAX) : (machine T MAX ι).init.Tokens := by
  have hvalid := CircularQueue.valid_new (T := T) hMAX
  have hlen : (CircularQueue.new T MAX).length = 0 := hvalid.length_eq
  -- nobody is inside a call
  have hnobody : ∀ (kind : CircularOp T → Bool) (point : CircularPoint),
      tally (CircularPc.isAt kind point) (fun _ : ι => .idle) = 0 :=
    fun kind point => tally_const rfl
  constructor
  · exact ⟨[], hvalid⟩
  · simp only [machine, producersHolding, consumersLeft, hnobody, hlen]
    rfl
  · simp only [machine, producersLeft, consumersHolding, hnobody, hlen]
    rfl
  · rintro i op point ⟨⟩
  · rintro e ⟨⟩

/-- The account holds in every state reached without `unlock_queue`. -/
theorem tokens_of_run (hMAX : 1 < MAX) (hint : MAX < 2 ^ 31) {acts : List (CircularAct T ι)}
    (hacts : ∀ a ∈ acts, a.isTransfer = true) {s : CircularSystem T MAX ι}
    (hrun : (machine T MAX ι).run (machine T MAX ι).init acts = some s) : s.Tokens :=
  Machine.run_preserves_along (fun _ _ _ h ha hstep => tokens_step hint h ha (stepped_of_step hstep))
    (tokens_init hMAX) (Machine.along_of_forall hacts _) hrun

/-- **The semaphores agree with the ring.** For every `MAX > 1` that is an `int`, and every
    interleaving of the atomic steps of puts and gets by any number of threads, the two counts
    hold in every state; the full and the empty branch inside the critical sections are not
    reachable, because a producer (a consumer) with a token never meets a full (an empty) ring;
    and no blocking call returns `QNODE_BUFFER_FULL` or `QNODE_BUFFER_EMPTY`. -/
theorem circularQueue_tokens_agree (hMAX : 1 < MAX) (hint : MAX < 2 ^ 31)
    (acts : List (CircularAct T ι)) (hacts : ∀ a ∈ acts, a.isTransfer = true)
    (s : CircularSystem T MAX ι)
    (hrun : (machine T MAX ι).run (machine T MAX ι).init acts = some s) :
    s.q.semPut.count + s.producersHolding + s.q.length + s.consumersLeft = MAX - 1 ∧
      s.q.semGet.count + s.consumersHolding + s.producersLeft = s.q.length ∧
      (∀ i op, s.pc i = .inside op .holds →
        (op.isPut = true → ¬s.q.isFull) ∧ (op.isGet = true → ¬s.q.isEmpty)) ∧
      (∀ i op, s.pc i ≠ .inside op .undoes) ∧
      (∀ e ∈ s.log, (∃ v, e.op = .put v) → e.code ≠ .bufferFull) ∧
      ∀ e ∈ s.log, (e.op = .get ∨ ∃ ms ≤ 0, e.op = .getTimed ms) → e.code ≠ .bufferEmpty := by
  have h := tokens_of_run hMAX hint hacts hrun
  refine ⟨h.put, h.get, ?_, ?_, ?_, ?_⟩
  · exact fun i op hpc => ⟨fun hop => h.not_isFull hpc hop, fun hop => h.not_isEmpty hpc hop⟩
  · exact fun i op hpc => (h.forward i op .undoes hpc).1 rfl
  · rintro e he ⟨v, hop⟩
    rw [h.returns e he (by simp [hop, CircularOp.isBlocking])]
    exact nofun
  · intro e he hop
    have hblock : e.op.isBlocking = true := by
      rcases hop with hop | ⟨ms, hms, hop⟩
      · simp [hop, CircularOp.isBlocking]
      · simp [hop, CircularOp.isBlocking, hms]
    rw [h.returns e he hblock]
    exact nofun

/-- A producer holds a token and a consumer is about to release one, with one value in the
    ring. -/
theorem circularQueue_tokens_agree_in_flight :
    ∃ s, (machine ℕ 4 (Fin 3)).run (machine ℕ 4 (Fin 3)).init
        [.call 0 (.put 1), .next 0, .next 0, .call 0 (.put 2), .next 0, .next 0, .call 1 .get,
          .call 0 (.tryPut 3), .next 1] = some s ∧
      s.q.semPut.count = 0 ∧ s.producersHolding = 1 ∧ s.consumersLeft = 1 ∧ s.q.length = 1 ∧
      s.q.semPut.count + s.producersHolding + s.q.length + s.consumersLeft = 3 := by
  obtain ⟨s, hrun, hlast⟩ := Machine.exists_of_run_any (machine ℕ 4 (Fin 3))
    (machine ℕ 4 (Fin 3)).init
    [.call 0 (.put 1), .next 0, .next 0, .call 0 (.put 2), .next 0, .next 0, .call 1 .get,
      .call 0 (.tryPut 3), .next 1]
    (fun s => decide (s.q.semPut.count = 0) && decide (s.producersHolding = 1) &&
      decide (s.consumersLeft = 1) && decide (s.q.length = 1)) (by decide)
  simp only [Bool.and_eq_true, decide_eq_true_eq] at hlast
  obtain ⟨⟨⟨hsem, hholding⟩, hleft⟩, hlen⟩ := hlast
  exact ⟨s, hrun, hsem, hholding, hleft, hlen,
    (circularQueue_tokens_agree (by decide) (by decide) _ (by simp [CircularAct.isTransfer,
      CircularOp.isPut, CircularOp.isGet]) s hrun).1⟩

end CircularSystem

end Pdk.Queue
