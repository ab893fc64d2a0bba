import Pdk.Sync.ThreadLifecycle

/-!
# What `create` and `thread_exists` say about the worker

Both take a `jthread` that is joinable for a worker that is running. A worker that has returned on
its own stays joinable until a `close` joins it. In between the object is stale (`Stale`): `create`
returns 1 without launching anything, and `thread_exists` returns 1 for a worker that is gone. The
results that were returned are recorded with what was executing at the time, and they are right
throughout a run exactly when no such call is made while the object is stale (`alive_iff`).
-/

namespace Pdk.Sync

open Foundation

namespace Thread

/-- `thread_exists()`. -/
def threadExists (t : Thread) : ℕ :=
  if t.joinable then 1 else 0

end Thread

/-! ## Results -/

/-- A call of `create` or of `thread_exists` that has returned. -/
structure StartEvent where
  result : ℕ
  -- the invocations of `thread_proc` that had not returned when the call took the lock
  atLock : List ℕ
  -- the invocation that the call has launched
  launched : Option ℕ
  deriving DecidableEq, Repr

/-- The call found a worker that was running, or launched one. -/
def StartEvent.Alive (e : StartEvent) : Prop :=
  e.result = 1 → ∃ w, w ∈ e.atLock ∨ e.launched = some w

inductive LiveAct (ι : Type*) where
  | thread (a : ThreadAct ι)
  | threadExists (i : ι)

/-- The system with the results of its calls. -/
structure LiveSystem (ι : Type*) where
  sys : ThreadSystem ι
  returned : List StartEvent

namespace LiveSystem

variable {ι : Type*} [DecidableEq ι]

omit [DecidableEq ι] in
/-- What `create` returns when it is past the wait for `closing_`; nothing when the constructor of
    the `jthread` throws. -/
def createReturns (s : ThreadSystem ι) (spawns : Bool) : List StartEvent :=
  if s.obj.joinable then [⟨1, s.executing, none⟩]
  else if spawns then [⟨1, s.executing, some s.launched⟩]
  else []

omit [DecidableEq ι] in
def returns (s : ThreadSystem ι) : ThreadAct ι → List StartEvent
  | .create _ spawns => createReturns s spawns
  | _ => []

def step (s : LiveSystem ι) : LiveAct ι → Option (LiveSystem ι)
  | .thread a => (s.sys.step a).map fun t => ⟨t, s.returned ++ returns s.sys a⟩
  | .threadExists i =>
    if s.sys.pc i = .idle then
      some { s with returned := s.returned ++ [⟨s.sys.obj.threadExists, s.sys.executing, none⟩] }
    else none

def machine (ι : Type*) [DecidableEq ι] : Machine (LiveSystem ι) (LiveAct ι) :=
  ⟨⟨(ThreadSystem.machine ι).init, []⟩, step⟩

/-! ## Stale objects -/

omit [DecidableEq ι] in
/-- The `jthread` belongs to a worker that has returned, and nobody has joined it. -/
def stale (s : ThreadSystem ι) : Bool :=
  match s.obj.thread with
  | some (some w) => decide (w ∉ s.executing)
  | _ => false

omit [DecidableEq ι] in
/-- A call that asks for the worker. -/
def asks : LiveAct ι → Bool
  | .thread (.create _ _) | .threadExists _ => true
  | _ => false

omit [DecidableEq ι] in
/-- The step is not a call of `create` or `thread_exists` on a stale object. -/
def NotStale (s : LiveSystem ι) (a : LiveAct ι) : Prop :=
  asks a = true → stale s.sys = false

instance (s : LiveSystem ι) (a : LiveAct ι) : Decidable (NotStale s a) :=
  inferInstanceAs (Decidable (_ → _))

omit [DecidableEq ι] in
/-- Every result that was returned was right. -/
def Truthful (s : LiveSystem ι) : Prop :=
  ∀ e ∈ s.returned, e.Alive

section Joinable

variable {s : ThreadSystem ι}

omit [DecidableEq ι] in
/-- A joinable `jthread` that is not stale belongs to a worker that is executing. -/
theorem executing_of_joinable (hjoinable : s.obj.joinable = true) (hfresh : stale s = false) :
    ∃ w, w ∈ s.executing := by
  unfold Thread.joinable at hjoinable
  unfold stale at hfresh
  split at hjoinable
  · rename_i w hthread
    simp only [hthread, decide_eq_false_iff_not, not_not] at hfresh
    exact ⟨w, hfresh⟩
  · cases hjoinable

omit [DecidableEq ι] in
/-- On a stale object no worker is executing at all. -/
theorem executing_of_stale (hphase : s.Phase) (hstale : stale s = true) :
    s.obj.joinable = true ∧ s.executing = [] := by
  unfold stale at hstale
  split at hstale
  · rename_i w hthread
    refine ⟨by rw [Thread.joinable, hthread], ?_⟩
    cases hphase with
    | down _ hnone _ _ => simp [hthread] at hnone
    | up v _ hsome hone _ =>
      rw [hthread] at hsome
      cases hsome
      rcases hone with hone | hone
      · exact hone
      · simp [hone] at hstale
    | joining _ _ _ _ hmoved _ _ _ => simp [hthread] at hmoved
    | resetting _ _ _ hmoved _ _ _ => simp [hthread] at hmoved
  · cases hstale

end Joinable

/-! ## Runs -/

/-- What the steps of the system with results can be. -/
inductive LiveStepped (s : LiveSystem ι) : LiveAct ι → LiveSystem ι → Prop where
  -- a `create` that is past the wait for `closing_`
  | creates (i : ι) (spawns : Bool) (t : ThreadSystem ι)
      (hstep : (ThreadSystem.machine ι).step s.sys (.create i spawns) = some t) :
      LiveStepped s (.thread (.create i spawns)) ⟨t, s.returned ++ createReturns s.sys spawns⟩
  | other (a : ThreadAct ι) (t : ThreadSystem ι) (ha : asks (.thread a) = false)
      (hstep : (ThreadSystem.machine ι).step s.sys a = some t) :
      LiveStepped s (.thread a) ⟨t, s.returned⟩
  | probes (i : ι) (hpc : s.sys.pc i = .idle) :
      LiveStepped s (.threadExists i)
        ⟨s.sys, s.returned ++ [⟨s.sys.obj.threadExists, s.sys.executing, none⟩]⟩

theorem liveStepped_of_step {s s' : LiveSystem ι} {a : LiveAct ι}
    (h : (machine ι).step s a = some s') : LiveStepped s a s' := by
  cases a with
  | thread a =>
    simp only [machine, step, Option.map_eq_some_iff] at h
    obtain ⟨t, hstep, rfl⟩ := h
    cases a with
    | create i spawns => exact .creates i spawns t hstep
    | _ =>
      simp only [returns, List.append_nil]
      exact .other _ t rfl hstep
  | threadExists i =>
    simp only [machine, step] at h
    split at h
    · rename_i hpc
      cases h
      exact .probes i hpc
    · cases h

/-- The object is in one of its phases, whatever was returned. -/
theorem phase_liveStep {s s' : LiveSystem ι} {a : LiveAct ι} (h : s.sys.Phase)
    (hstep : LiveStepped s a s') : s'.sys.Phase := by
  cases hstep with
  | creates i spawns t hstep => exact ThreadSystem.phase_step h (ThreadSystem.stepped_of_step hstep)
  | other a t ha hstep => exact ThreadSystem.phase_step h (ThreadSystem.stepped_of_step hstep)
  | probes i hpc => exact h

/-- **Step lemma**: away from stale objects, every result is right. -/
theorem truthful_step {s s' : LiveSystem ι} {a : LiveAct ι} (h : s.Truthful) (hok : NotStale s a)
    (hstep : LiveStepped s a s') : s'.Truthful := by
  cases hstep with
  | creates i spawns t hstep =>
    intro e he
    rcases List.mem_append.mp he with hold | hnew
    · exact h e hold
    · unfold createReturns at hnew
      split at hnew
      · rename_i hjoinable
        obtain rfl := List.mem_singleton.mp hnew
        obtain ⟨w, hw⟩ := executing_of_joinable hjoinable (hok rfl)
        exact fun _ => ⟨w, .inl hw⟩
      · split at hnew
        · obtain rfl := List.mem_singleton.mp hnew
          exact fun _ => ⟨s.sys.launched, .inr rfl⟩
        · cases hnew
  | other a t ha hstep => exact h
  | probes i hpc =>
    intro e he
    rcases List.mem_append.mp he with hold | hnew
    · exact h e hold
    · obtain rfl := List.mem_singleton.mp hnew
      intro hone
      have hjoinable : s.sys.obj.joinable = true := by
        by_contra hnot
        simp [Thread.threadExists, hnot] at hone
      obtain ⟨w, hw⟩ := executing_of_joinable hjoinable (hok rfl)
      exact ⟨w, .inl hw⟩

/-- A call on a stale object returns 1 for nothing. -/
theorem not_truthful_of_stale {s s' : LiveSystem ι} {a : LiveAct ι} (hphase : s.sys.Phase)
    (hstale : ¬NotStale s a) (hstep : LiveStepped s a s') : ¬s'.Truthful := by
  simp only [NotStale, Classical.not_imp, Bool.not_eq_false] at hstale
  obtain ⟨hasks, hstale⟩ := hstale
  obtain ⟨hjoinable, hnone⟩ := executing_of_stale hphase hstale
  -- the result that the call adds
  have hlie : (⟨1, [], none⟩ : StartEvent) ∈ s'.returned := by
    cases hstep with
    | creates i spawns t hstep => simp [createReturns, hjoinable, hnone]
    | other a t ha hstep =>
      rw [ha] at hasks
      cases hasks
    | probes i hpc => simp [Thread.threadExists, hjoinable, hnone]
  intro htruthful
  obtain ⟨w, hw | hw⟩ := htruthful _ hlie rfl
  · cases hw
  · cases hw

/-- **A successful start means a live worker exactly as long as no call meets a stale object**: in
    every run, all results of `create` and of `thread_exists` are right in every state exactly when
    none of these calls takes the lock after `thread_proc` has returned and before a `close` has
    taken the `jthread` out to join it. -/
theorem alive_iff (acts : List (LiveAct ι)) (s : LiveSystem ι)
    (hrun : (machine ι).run (machine ι).init acts = some s) :
    (machine ι).Throughout Truthful (machine ι).init acts ↔
      (machine ι).Along NotStale (machine ι).init acts := by
  refine Machine.throughout_iff_along (I := fun s : LiveSystem ι => s.sys.Phase ∧ s.Truthful)
    (fun s hs => hs.2) ?_ ?_ ⟨.down rfl rfl rfl fun _ => id, by rintro e ⟨⟩⟩ hrun
  · intro s a s' hs hok hstep
    have hstepped := liveStepped_of_step hstep
    exact ⟨phase_liveStep hs.1 hstepped, truthful_step hs.2 hok hstepped⟩
  · intro s a s' hs hnot hstep
    exact not_truthful_of_stale hs.1 hnot (liveStepped_of_step hstep)

/-- A worker that is found running, returns on its own, is joined and replaced. -/
theorem alive_iff_restart :
    let acts : List (LiveAct (Fin 2)) :=
      [.thread (.create 0 true), .threadExists 1, .thread (.workerReturns 0), .thread (.close 1),
        .thread (.next 1), .thread (.next 1), .thread (.next 1), .thread (.next 1),
        .thread (.create 0 true)]
    ∃ s, (machine (Fin 2)).run (machine (Fin 2)).init acts = some s ∧
      s.returned = [⟨1, [], some 0⟩, ⟨1, [0], none⟩, ⟨1, [], some 1⟩] ∧
      ((machine (Fin 2)).Throughout Truthful (machine (Fin 2)).init acts ↔
        (machine (Fin 2)).Along NotStale (machine (Fin 2)).init acts) := by
  intro acts
  obtain ⟨s, hrun, hlast⟩ := Machine.exists_of_run_any (machine (Fin 2)) (machine (Fin 2)).init acts
    (fun s => decide (s.returned = [⟨1, [], some 0⟩, ⟨1, [0], none⟩, ⟨1, [], some 1⟩])) (by decide)
  exact ⟨s, hrun, of_decide_eq_true hlast, alive_iff acts s hrun⟩

/-- `start` after a `thread_proc` that has ended on its own launches nothing and returns 1. -/
theorem not_alive_stale :
    ∃ s, (machine (Fin 1)).run (machine (Fin 1)).init
        [.thread (.create 0 true), .thread (.workerReturns 0), .thread (.create 0 true)] = some s ∧
      s.sys.launched = 1 ∧ s.sys.executing = [] ∧ ¬s.Truthful := by
  obtain ⟨s, hrun, hlast⟩ := Machine.exists_of_run_any (machine (Fin 1)) (machine (Fin 1)).init
    [.thread (.create 0 true), .thread (.workerReturns 0), .thread (.create 0 true)]
    (fun s => decide (s.sys.launched = 1) && decide (s.sys.executing = []) &&
      decide (⟨1, [], none⟩ ∈ s.returned)) (by decide)
  simp only [Bool.and_eq_true, decide_eq_true_eq] at hlast
  obtain ⟨⟨hlaunched, hnone⟩, hlie⟩ := hlast
  refine ⟨s, hrun, hlaunched, hnone, fun htruthful => ?_⟩
  obtain ⟨w, hw | hw⟩ := htruthful _ hlie rfl
  · cases hw
  · cases hw

end LiveSystem

end Pdk.Sync
