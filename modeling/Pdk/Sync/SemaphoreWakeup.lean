import Pdk.Foundation.Condvar
import Pdk.Foundation.Transition
import Pdk.Sync.Semaphore

/-!
# `Semaphore`: parked and awakened waiters

The waiters of `Semaphore` in `include/jthread.hpp`. A step is one critical section of `mutex_`: a
waiter takes a token or is parked on `cv_`; a parked waiter is awakened by a notification, for no
reason or because its time is over, and re-acquires the mutex later; `signal` adds a token and
notifies one waiter, and `unlock(n)` is a loop of signals. `reset_count` sets the count and notifies
nobody.

Every token has an awakened thread on its way to it, if anybody is parked: each step keeps that but
`reset_count`, which keeps it only where the new tokens are expected already (`Expected`). That is
exactly when no wakeup is lost (`wakeful_iff`).
-/

namespace Pdk.Sync

open Foundation

/-! ## Threads -/

/-- Where a thread stands. -/
inductive SemPc where
  | idle
  -- inside `wait()` or `wait(msecs)`: parked, or awakened and about to re-acquire the mutex
  | waiting (timed awakened : Bool)
  -- inside `unlock(lCount)`, with this many signals to go
  | unlocking (left : ℕ)
  deriving DecidableEq, Repr

namespace SemPc

def isParked : SemPc → Bool
  | .waiting _ awakened => !awakened
  | _ => false

def isAwake : SemPc → Bool
  | .waiting _ awakened => awakened
  | _ => false

/-- A notification, a timeout or a spurious wakeup. -/
def wake : SemPc → SemPc
  | .waiting timed _ => .waiting timed true
  | pc => pc

end SemPc

/-- `cv_`. -/
def semCondvar : Condvar SemPc where
  parked := SemPc.isParked
  awake := SemPc.isAwake
  wake := SemPc.wake
  parked_wake := by
    intro pc hpc
    cases pc with
    | waiting timed awakened => rfl
    | idle => cases hpc
    | unlocking left => cases hpc
  awake_wake := by
    intro pc hpc
    cases pc with
    | waiting timed awakened => rfl
    | idle => cases hpc
    | unlocking left => cases hpc
  awake_of_parked := by
    intro pc hpc
    cases pc with
    | waiting timed awakened => simpa [SemPc.isParked, SemPc.isAwake] using hpc
    | idle => rfl
    | unlocking left => rfl

/-- A wait that has returned: `wait()` returns nothing, which counts as true. -/
structure SemEvent (ι : Type*) where
  thread : ι
  result : Bool

structure SemSystem (ι : Type*) where
  sem : Semaphore
  pc : ι → SemPc
  returned : List (SemEvent ι)

inductive SemAct (ι : Type*) where
  | wait (i : ι) (timed : Bool)
  -- an awakened waiter re-acquires the mutex; a timed one may find that its time is over
  | resume (i : ι) (expired : Bool)
  -- a parked waiter wakes up without a notification
  | wakes (i : ι)
  -- `w` is the waiter that is notified
  | signal (i : ι) (w : Option ι)
  -- `unlock(lCount)`, its signals one by one, and its return
  | unlock (i : ι) (lCount : ℤ)
  | unlockSignal (i : ι) (w : Option ι)
  | unlocked (i : ι)
  | resetCount (i : ι) (value : UInt32)

namespace SemSystem

variable {ι : Type*}

section Steps

variable [DecidableEq ι]

def goTo (s : SemSystem ι) (i : ι) (pc : SemPc) : SemSystem ι :=
  { s with pc := Function.update s.pc i pc }

/-- A wait returns. -/
def finish (s : SemSystem ι) (i : ι) (sem : Semaphore) (result : Bool) : SemSystem ι :=
  { s with sem := sem, returned := s.returned ++ [SemEvent.mk i result] }.goTo i .idle

/-- The predicate is tested, with the mutex held. -/
def test (s : SemSystem ι) (i : ι) (timed expired : Bool) : SemSystem ι :=
  match s.sem.wait with
  | some sem => s.finish i sem true
  | none => if expired then s.finish i s.sem false else s.goTo i (.waiting timed false)

variable [Fintype ι]

/-- `signal()`, after which the caller is at `pc`. -/
def signalThen (s : SemSystem ι) (i : ι) (w : Option ι) (pc : SemPc) : Option (SemSystem ι) :=
  (semCondvar.notifyOne (Function.update s.pc i pc) w).map fun f =>
    { s with sem := s.sem.signal, pc := f }

def step (s : SemSystem ι) : SemAct ι → Option (SemSystem ι)
  | .wait i timed => if s.pc i = .idle then some (s.test i timed false) else none
  | .resume i expired =>
    match s.pc i with
    | .waiting timed true => if expired && !timed then none else some (s.test i timed expired)
    | _ => none
  | .wakes i =>
    match s.pc i with
    | .waiting timed false => some (s.goTo i (.waiting timed true))
    | _ => none
  | .signal i w => if s.pc i = .idle then s.signalThen i w .idle else none
  | .unlock i lCount =>
    if s.pc i = .idle then some (s.goTo i (.unlocking lCount.toNat)) else none
  | .unlockSignal i w =>
    match s.pc i with
    | .unlocking (left + 1) => s.signalThen i w (.unlocking left)
    | _ => none
  | .unlocked i => if s.pc i = .unlocking 0 then some (s.goTo i .idle) else none
  | .resetCount i value =>
    if s.pc i = .idle then some { s with sem := s.sem.resetCount value.toNat } else none

/-- `Semaphore(value)`, before any thread uses it. -/
def machine (ι : Type*) [DecidableEq ι] [Fintype ι] (value : UInt32) :
    Machine (SemSystem ι) (SemAct ι) :=
  ⟨⟨⟨value.toNat⟩, fun _ => .idle, []⟩, step⟩

end Steps

/-! ## What a step can do -/

/-- The thread holds the mutex and tests the predicate: it has just called, or was awakened. -/
def Tests (s : SemSystem ι) (i : ι) (timed : Bool) : Prop :=
  s.pc i = .idle ∨ s.pc i = .waiting timed true

theorem Tests.not_parked {s : SemSystem ι} {i : ι} {timed : Bool} (h : Tests s i timed) :
    semCondvar.parked (s.pc i) = false := by
  rcases h with h | h
  · rw [h]; rfl
  · rw [h]; rfl

variable [DecidableEq ι] [Fintype ι]

/-- What the steps of the system can be. -/
inductive Stepped (s : SemSystem ι) : SemAct ι → SemSystem ι → Prop where
  | takes (a : SemAct ι) (i : ι) (timed : Bool) (sem : Semaphore) (htests : Tests s i timed)
      (hwait : s.sem.wait = some sem) : Stepped s a (s.finish i sem true)
  | parks (a : SemAct ι) (i : ι) (timed : Bool) (htests : Tests s i timed)
      (hempty : s.sem.wait = none) : Stepped s a (s.goTo i (.waiting timed false))
  | gives (i : ι) (hpc : s.pc i = .waiting true true) (hempty : s.sem.wait = none) :
      Stepped s (.resume i true) (s.finish i s.sem false)
  | wakes (i : ι) (timed : Bool) (hpc : s.pc i = .waiting timed false) :
      Stepped s (.wakes i) (s.goTo i (.waiting timed true))
  -- `signal()`, by itself or in the loop of `unlock`
  | signals (a : SemAct ι) (i : ι) (w : Option ι) (pc : SemPc) (f : ι → SemPc)
      (hold : (s.pc i).isParked = false ∧ (s.pc i).isAwake = false)
      (hnew : pc.isParked = false ∧ pc.isAwake = false)
      (hnotify : semCondvar.notifyOne (Function.update s.pc i pc) w = some f) :
      Stepped s a { s with sem := s.sem.signal, pc := f }
  -- the begin and the end of `unlock`
  | moves (a : SemAct ι) (i : ι) (pc : SemPc)
      (hold : (s.pc i).isParked = false ∧ (s.pc i).isAwake = false)
      (hnew : pc.isParked = false ∧ pc.isAwake = false) : Stepped s a (s.goTo i pc)
  | resets (i : ι) (value : UInt32) :
      Stepped s (.resetCount i value) { s with sem := s.sem.resetCount value.toNat }

theorem stepped_of_test {s : SemSystem ι} {a : SemAct ι} {i : ι} {timed expired : Bool}
    (htests : Tests s i timed) (hexpired : expired = true → a = .resume i true ∧
      s.pc i = .waiting true true) : Stepped s a (s.test i timed expired) := by
  unfold test
  split
  · rename_i sem hwait
    exact .takes a i timed sem htests hwait
  · rename_i hempty
    split
    · rename_i htrue
      obtain ⟨rfl, hpc⟩ := hexpired htrue
      exact .gives i hpc hempty
    · exact .parks a i timed htests hempty

theorem stepped_of_signal {s s' : SemSystem ι} {a : SemAct ι} {i : ι} {w : Option ι} {pc : SemPc}
    (hold : (s.pc i).isParked = false ∧ (s.pc i).isAwake = false)
    (hnew : pc.isParked = false ∧ pc.isAwake = false) (h : s.signalThen i w pc = some s') :
    Stepped s a s' := by
  rw [signalThen, Option.map_eq_some_iff] at h
  obtain ⟨f, hnotify, rfl⟩ := h
  exact .signals a i w pc f hold hnew hnotify

/-- **Case analysis of a step.** -/
theorem stepped_of_step {value : UInt32} {s s' : SemSystem ι} {a : SemAct ι}
    (h : (machine ι value).step s a = some s') : Stepped s a s' := by
  simp only [machine] at h
  cases a with
  | wait i timed =>
    simp only [step] at h
    split at h
    · rename_i hpc
      cases h
      exact stepped_of_test (.inl hpc) nofun
    · cases h
  | resume i expired =>
    simp only [step] at h
    split at h
    · rename_i timed hpc
      split at h
      · cases h
      · rename_i htimed
        cases h
        refine stepped_of_test (.inr hpc) fun hexpired => ?_
        subst hexpired
        obtain rfl : timed = true := by simpa using htimed
        exact ⟨rfl, hpc⟩
    · cases h
  | wakes i =>
    simp only [step] at h
    split at h
    · rename_i timed hpc
      cases h
      exact .wakes i timed hpc
    · cases h
  | signal i w =>
    simp only [step] at h
    split at h
    · rename_i hpc
      exact stepped_of_signal (by rw [hpc]; exact ⟨rfl, rfl⟩) ⟨rfl, rfl⟩ h
    · cases h
  | unlock i lCount =>
    simp only [step] at h
    split at h
    · rename_i hpc
      cases h
      exact .moves _ i _ (by rw [hpc]; exact ⟨rfl, rfl⟩) ⟨rfl, rfl⟩
    · cases h
  | unlockSignal i w =>
    simp only [step] at h
    split at h
    · rename_i left hpc
      exact stepped_of_signal (by rw [hpc]; exact ⟨rfl, rfl⟩) ⟨rfl, rfl⟩ h
    · cases h
  | unlocked i =>
    simp only [step] at h
    split at h
    · rename_i hpc
      cases h
      exact .moves _ i _ (by rw [hpc]; exact ⟨rfl, rfl⟩) ⟨rfl, rfl⟩
    · cases h
  | resetCount i value =>
    simp only [step] at h
    split at h
    · cases h
      exact .resets i value
    · cases h

/-! ## No lost wakeup -/

/-- What a semaphore owes its waiters. -/
structure Wakeful (s : SemSystem ι) : Prop where
  -- while a thread is parked, every token has an awakened thread that has not yet the mutex
  expected : (∃ i, (s.pc i).isParked = true) → s.sem.count ≤ tally SemPc.isAwake s.pc
  -- so that nobody stays parked where there are tokens and no awakened thread is left
  settled : 0 < s.sem.count → tally SemPc.isAwake s.pc = 0 → ∀ i, (s.pc i).isParked = false

omit [DecidableEq ι] in
theorem wakeful_iff_noLostWakeup {s : SemSystem ι} :
    s.Wakeful ↔ semCondvar.NoLostWakeup s.sem.count s.pc := by
  constructor
  · intro h hpos
    exact h.expected (tally_pos_iff.mp hpos)
  · intro h
    refine ⟨fun hparked => h (tally_pos_iff.mpr hparked), ?_⟩
    intro hcount hawake i
    by_contra hparked
    have hle := h (tally_pos (i := i) (Bool.not_eq_false _ ▸ hparked))
    have hnone : tally semCondvar.awake s.pc = 0 := hawake
    omega

/-- A `reset_count` is called while nobody is parked, or with at most as many tokens as there are
    awakened threads. -/
def Expected (s : SemSystem ι) : SemAct ι → Prop
  | .resetCount _ value => semCondvar.NoLostWakeup value.toNat s.pc
  | _ => True

/-- **Step lemma**: every step but an unexpected `reset_count` keeps the tokens expected. -/
theorem noLostWakeup_step {s s' : SemSystem ι} {a : SemAct ι}
    (h : semCondvar.NoLostWakeup s.sem.count s.pc) (hok : Expected s a) (hstep : Stepped s a s') :
    semCondvar.NoLostWakeup s'.sem.count s'.pc := by
  cases hstep with
  | takes a i timed sem htests hwait =>
    rw [Semaphore.count_of_wait hwait] at h
    exact h.consume htests.not_parked rfl
  | parks a i timed htests hempty =>
    have hzero : (s.goTo i (.waiting timed false)).sem.count = 0 := Semaphore.count_of_wait_none hempty
    rw [hzero]
    exact Condvar.noLostWakeup_zero
  | gives i hpc hempty =>
    have hzero : (s.finish i s.sem false).sem.count = 0 := Semaphore.count_of_wait_none hempty
    rw [hzero]
    exact Condvar.noLostWakeup_zero
  | wakes i timed hpc =>
    have hwake := h.wake (j := i) (by rw [hpc]; rfl)
    rw [hpc] at hwake
    exact hwake
  | signals a i w pc f hold hnew hnotify =>
    have hmoved := h.update (i := i) (a := pc) (hnew.1.trans hold.1.symm) (hnew.2.trans hold.2.symm)
    exact (hmoved.produce hnotify).mono (Nat.mod_le _ _)
  | moves a i pc hold hnew =>
    exact h.update (hnew.1.trans hold.1.symm) (hnew.2.trans hold.2.symm)
  | resets i value => exact hok

/-- An unexpected `reset_count` leaves a thread parked beside a token that nobody comes for. -/
theorem not_wakeful_of_unexpected {value : UInt32} {s s' : SemSystem ι} {a : SemAct ι}
    (hnot : ¬Expected s a) (hstep : (machine ι value).step s a = some s') : ¬s'.Wakeful := by
  rw [wakeful_iff_noLostWakeup]
  cases a with
  | resetCount i count =>
    simp only [machine, step] at hstep
    split at hstep
    · cases hstep
      exact hnot
    · cases hstep
  | _ => exact absurd trivial hnot

/-- **No lost wakeup, as long as every `reset_count` is expected**: in every run of the entry points
    of a semaphore by any number of threads, in every state, while a thread is parked there are at
    least as many awakened threads as tokens, exactly when no `reset_count` is called that offers
    parked threads more tokens than there are awakened ones. -/
theorem wakeful_iff (value : UInt32) (acts : List (SemAct ι)) (s : SemSystem ι)
    (hrun : (machine ι value).run (machine ι value).init acts = some s) :
    (machine ι value).Throughout Wakeful (machine ι value).init acts ↔
      (machine ι value).Along Expected (machine ι value).init acts := by
  refine Machine.throughout_iff_along
    (I := fun s : SemSystem ι => semCondvar.NoLostWakeup s.sem.count s.pc)
    (fun s hs => wakeful_iff_noLostWakeup.mpr hs) ?_ ?_ ?_ hrun
  · intro s a s' hs hok hstep
    exact noLostWakeup_step hs hok (stepped_of_step hstep)
  · intro s a s' _ hnot hstep
    exact not_wakeful_of_unexpected hnot hstep
  · exact Condvar.noLostWakeup_of_none (tally_const rfl)

/-- A waiter is parked, notified, and takes the one token that a `reset_count` leaves. -/
theorem wakeful_iff_expected :
    let acts : List (SemAct (Fin 2)) :=
      [.wait 0 false, .wait 1 true, .signal 0 (some 1), .resetCount 0 1, .resume 1 false]
    ∃ s, (machine (Fin 2) 1).run (machine (Fin 2) 1).init acts = some s ∧ s.sem.count = 0 ∧
      ((machine (Fin 2) 1).Throughout Wakeful (machine (Fin 2) 1).init acts ↔
        (machine (Fin 2) 1).Along Expected (machine (Fin 2) 1).init acts) := by
  intro acts
  obtain ⟨s, hrun, hlast⟩ := Machine.exists_of_run_any (machine (Fin 2) 1)
    (machine (Fin 2) 1).init acts (fun s => decide (s.sem.count = 0)) (by decide)
  exact ⟨s, hrun, of_decide_eq_true hlast, wakeful_iff 1 acts s hrun⟩

/-- The semaphore `sem_put_` of a `CircularQueue` with `MAX` 2: the first `put` takes its token, the
    second is parked, and `reset()` makes room with `reset_count(MAX - 1)`. -/
theorem not_wakeful_reset :
    ∃ s, (machine (Fin 3) 1).run (machine (Fin 3) 1).init
        [.wait 0 false, .wait 1 false, .resetCount 2 1] = some s ∧
      s.sem.count = 1 ∧ (s.pc 1).isParked = true ∧ tally SemPc.isAwake s.pc = 0 ∧ ¬s.Wakeful := by
  obtain ⟨s, hrun, hlast⟩ := Machine.exists_of_run_any (machine (Fin 3) 1) (machine (Fin 3) 1).init
    [.wait 0 false, .wait 1 false, .resetCount 2 1]
    (fun s => decide (s.sem.count = 1) && (s.pc 1).isParked &&
      decide (tally SemPc.isAwake s.pc = 0)) (by decide)
  simp only [Bool.and_eq_true, decide_eq_true_eq] at hlast
  obtain ⟨⟨hcount, hparked⟩, hawake⟩ := hlast
  refine ⟨s, hrun, hcount, hparked, hawake, fun hwakeful => ?_⟩
  have hfree := hwakeful.settled (by omega) hawake 1
  rw [hparked] at hfree
  cases hfree

end SemSystem

end Pdk.Sync
