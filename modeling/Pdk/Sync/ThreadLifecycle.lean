import Mathlib.Data.Fintype.Basic
import Pdk.Sync.Thread

/-!
# The lifecycle of `Thread`

A `Thread` object is in one of four phases (`Phase`): down, up with one worker, joining that worker
in some `close_post`, or about to be reset by it. `closing_` is true in the last two, which keeps
`create` out, and in each phase at most one worker is executing.

Two promises of `close` depend on more than the phase. A `close()` that meets the shutdown of
another caller returns before the worker does (`closed_stopped_of`), and a `close()` whose two
halves are separated by a restart joins a worker that was never told to stop
(`moved_requested_of`).
-/

namespace Pdk.Sync

open Foundation

namespace ThreadSystem

variable {ι : Type*}

/-! ## Phases -/

/-- Inside `close_post`, past its first critical section. -/
def InPost : ThreadPc → Prop
  | .joins _ _ | .resets _ => True
  | _ => False

/-- At most the worker `w` is executing. -/
def AtMost (s : ThreadSystem ι) (w : ℕ) : Prop :=
  s.executing = [] ∨ s.executing = [w]

/-- The phases of the object. -/
inductive Phase (s : ThreadSystem ι) : Prop where
  | down (hopen : s.obj.closing = false) (hthread : s.obj.thread = none)
      (hnone : s.executing = []) (hpost : ∀ j, ¬InPost (s.pc j))
  | up (w : ℕ) (hopen : s.obj.closing = false) (hthread : s.obj.thread = some (some w))
      (hone : s.AtMost w) (hpost : ∀ j, ¬InPost (s.pc j))
  | joining (i : ι) (caller : Option (List ℕ)) (w : ℕ) (hclosing : s.obj.closing = true)
      (hthread : s.obj.thread = some none) (hone : s.AtMost w)
      (hpc : s.pc i = .joins caller (some w)) (honly : ∀ j, InPost (s.pc j) → j = i)
  | resetting (i : ι) (caller : Option (List ℕ)) (hclosing : s.obj.closing = true)
      (hthread : s.obj.thread = some none) (hnone : s.executing = [])
      (hpc : s.pc i = .resets caller) (honly : ∀ j, InPost (s.pc j) → j = i)

namespace Phase

variable {s s' : ThreadSystem ι}

theorem length_le_one (h : s.Phase) : s.executing.length ≤ 1 := by
  cases h with
  | down hopen hthread hnone hpost => simp [hnone]
  | up w hopen hthread hone hpost => rcases hone with hone | hone <;> simp [hone]
  | joining i caller w hclosing hthread hone hpc honly =>
    rcases hone with hone | hone <;> simp [hone]
  | resetting i caller hclosing hthread hnone hpc honly => simp [hnone]

/-- Nothing to join and no shutdown under way: the object is down. -/
theorem down_of_free (h : s.Phase) (hopen : s.obj.closing = false)
    (hfree : s.obj.joinable = false) : s.executing = [] ∧ ∀ j, ¬InPost (s.pc j) := by
  cases h with
  | down _ _ hnone hpost => exact ⟨hnone, hpost⟩
  | up w _ hthread _ _ => simp [Thread.joinable, hthread] at hfree
  | joining i caller w hclosing _ _ _ _ => simp [hopen] at hclosing
  | resetting i caller hclosing _ _ _ _ => simp [hopen] at hclosing

/-- No `jthread` at all: no worker is executing. -/
theorem executing_nil_of_thread (h : s.Phase) (hthread : s.obj.thread = none) :
    s.executing = [] := by
  cases h with
  | down _ _ hnone _ => exact hnone
  | up w _ hsome _ _ => simp [hthread] at hsome
  | joining i caller w _ hmoved _ _ _ => simp [hthread] at hmoved
  | resetting i caller _ hmoved _ _ _ => simp [hthread] at hmoved

/-- A caller in the join: it joins the only worker there is. -/
theorem of_joins (h : s.Phase) {i : ι} {caller : Option (List ℕ)} {worker : Option ℕ}
    (hpc : s.pc i = .joins caller worker) :
    (∃ w, worker = some w ∧ s.AtMost w) ∧ s.obj.closing = true ∧ s.obj.thread = some none ∧
      ∀ j, InPost (s.pc j) → j = i := by
  have hin : InPost (s.pc i) := by simp [hpc, InPost]
  cases h with
  | down _ _ _ hpost => exact absurd hin (hpost i)
  | up w _ _ _ hpost => exact absurd hin (hpost i)
  | joining j caller' w hclosing hthread hone hjoins honly =>
    obtain rfl : i = j := honly i hin
    rw [hpc] at hjoins
    cases hjoins
    exact ⟨⟨w, rfl, hone⟩, hclosing, hthread, honly⟩
  | resetting j caller' _ _ _ hresets honly =>
    obtain rfl : i = j := honly i hin
    simp [hpc] at hresets

/-- A caller after the join: no worker is left. -/
theorem of_resets (h : s.Phase) {i : ι} {caller : Option (List ℕ)}
    (hpc : s.pc i = .resets caller) :
    s.executing = [] ∧ ∀ j, InPost (s.pc j) → j = i := by
  have hin : InPost (s.pc i) := by simp [hpc, InPost]
  cases h with
  | down _ _ _ hpost => exact absurd hin (hpost i)
  | up w _ _ _ hpost => exact absurd hin (hpost i)
  | joining j caller' w _ _ _ hjoins honly =>
    obtain rfl : i = j := honly i hin
    simp [hpc] at hjoins
  | resetting j caller' _ _ hnone _ honly =>
    obtain rfl : i = j := honly i hin
    exact ⟨hnone, honly⟩

variable [DecidableEq ι]

/-- A step that starts and ends outside the locked window of `close_post`. -/
theorem quiet (h : s.Phase) (i : ι) (pc : ThreadPc)
    (hpc : s'.pc = Function.update s.pc i pc) (hold : ¬InPost (s.pc i)) (hnew : ¬InPost pc)
    (hthread : s'.obj.thread = s.obj.thread) (hclosing : s'.obj.closing = s.obj.closing)
    (hexec : s'.executing = s.executing) : s'.Phase := by
  have hpost : ∀ j, InPost (s'.pc j) → InPost (s.pc j) := by
    intro j hj
    rw [hpc] at hj
    by_cases hij : j = i
    · subst hij
      rw [Function.update_self] at hj
      exact absurd hj hnew
    · rwa [Function.update_of_ne hij] at hj
  have hkeep : ∀ j, InPost (s.pc j) → s'.pc j = s.pc j := by
    intro j hj
    have hij : j ≠ i := by
      rintro rfl
      exact hold hj
    rw [hpc, Function.update_of_ne hij]
  cases h with
  | down hopen hnone hidle hnobody =>
    exact .down (hclosing ▸ hopen) (hthread ▸ hnone) (hexec ▸ hidle)
      fun j hj => hnobody j (hpost j hj)
  | up w hopen hsome hone hnobody =>
    apply Phase.up w (hclosing ▸ hopen) (hthread ▸ hsome)
    · unfold AtMost
      rw [hexec]
      exact hone
    · exact fun j hj => hnobody j (hpost j hj)
  | joining j caller w hshut hmoved hone hjoins honly =>
    apply Phase.joining j caller w (hclosing ▸ hshut) (hthread ▸ hmoved)
    · unfold AtMost
      rw [hexec]
      exact hone
    · rw [hkeep j (by rw [hjoins]; trivial), hjoins]
    · exact fun k hk => honly k (hpost k hk)
  | resetting j caller hshut hmoved hnone hresets honly =>
    apply Phase.resetting j caller (hclosing ▸ hshut) (hthread ▸ hmoved) (hexec ▸ hnone)
    · rw [hkeep j (by rw [hresets]; trivial), hresets]
    · exact fun k hk => honly k (hpost k hk)

end Phase

variable [DecidableEq ι]

theorem finish_pc (s : ThreadSystem ι) (i : ι) (caller : Option (List ℕ)) :
    (s.finish i caller).pc = Function.update s.pc i .idle := by
  cases caller <;> rfl

theorem finish_obj (s : ThreadSystem ι) (i : ι) (caller : Option (List ℕ)) :
    (s.finish i caller).obj = s.obj := by
  cases caller <;> rfl

theorem finish_executing (s : ThreadSystem ι) (i : ι) (caller : Option (List ℕ)) :
    (s.finish i caller).executing = s.executing := by
  cases caller <;> rfl

theorem finish_launched (s : ThreadSystem ι) (i : ι) (caller : Option (List ℕ)) :
    (s.finish i caller).launched = s.launched := by
  cases caller <;> rfl

theorem finish_moved (s : ThreadSystem ι) (i : ι) (caller : Option (List ℕ)) :
    (s.finish i caller).moved = s.moved := by
  cases caller <;> rfl

omit [DecidableEq ι] in
theorem Enters.not_inPost {s : ThreadSystem ι} {a : ThreadAct ι} {i : ι}
    {caller : Option (List ℕ)} (h : Enters s a i caller) : ¬InPost (s.pc i) := by
  cases h with
  | alone i hpc => simp [hpc, InPost]
  | inClose i atCall hpc => simp [hpc, InPost]

/-- **Step lemma**: every step leads from a phase to a phase. -/
theorem phase_step {s s' : ThreadSystem ι} {a : ThreadAct ι} (h : s.Phase)
    (hstep : Stepped s a s') : s'.Phase := by
  cases hstep with
  | already i spawns hopen hjoinable => exact h
  | launches i hopen hfree =>
    obtain ⟨hnone, hpost⟩ := h.down_of_free hopen hfree
    apply Phase.up s.launched
    · unfold Thread.refresh
      split <;> exact hopen
    · rfl
    · exact .inr (by simp [hnone])
    · exact hpost
  | throws i hopen hfree =>
    obtain ⟨hnone, hpost⟩ := h.down_of_free hopen hfree
    apply Phase.down
    · unfold Thread.refresh
      split <;> exact hopen
    · rfl
    · exact hnone
    · exact hpost
  | calls i hpc =>
    exact h.quiet i (.closes s.executing) rfl (by simp [hpc, InPost]) (by simp [InPost]) rfl rfl rfl
  | requests i hpc =>
    exact h.quiet i (s.pc i) (Function.update_eq_self i s.pc).symm (by simp [hpc, InPost])
      (by simp [hpc, InPost]) rfl rfl rfl
  | requestsFor i atCall hpc =>
    exact h.quiet i (.between atCall) rfl (by simp [hpc, InPost]) (by simp [InPost]) rfl rfl rfl
  | turnsBack a i caller ha hwhy =>
    apply h.quiet i .idle (finish_pc s i caller) ha.not_inPost (by simp [InPost])
    · rw [finish_obj]
    · rw [finish_obj]
    · exact finish_executing s i caller
  | movesOut a i caller worker ha hopen hthread =>
    cases h with
    | down _ hnone _ _ => simp [hnone] at hthread
    | up w _ hsome hone hpost =>
      obtain rfl : some w = worker := by simpa [hsome] using hthread
      apply Phase.joining i caller w
      · rfl
      · rfl
      · exact hone
      · simp [goTo]
      · intro j hj
        by_contra hij
        simp only [goTo, Function.update_of_ne hij] at hj
        exact hpost j hj
    | joining j caller' w hclosing _ _ _ _ => simp [hopen] at hclosing
    | resetting j caller' hclosing _ _ _ _ => simp [hopen] at hclosing
  | joined i caller worker hpc hdone =>
    obtain ⟨⟨w, rfl, hone⟩, hclosing, hthread, honly⟩ := h.of_joins hpc
    -- the join has returned, so the worker has
    have hnone : s.executing = [] := by
      rcases hone with hone | hone
      · exact hone
      · exact absurd (by simp [hone]) (hdone w rfl)
    apply Phase.resetting i caller
    · exact hclosing
    · exact hthread
    · exact hnone
    · simp [goTo]
    · intro k hk
      by_contra hik
      simp only [goTo, Function.update_of_ne hik] at hk
      exact hik (honly k hk)
  | resets i caller hpc =>
    obtain ⟨hnone, honly⟩ := h.of_resets hpc
    apply Phase.down
    · rw [finish_obj]
      rfl
    · rw [finish_obj]
      rfl
    · rw [finish_executing]
      exact hnone
    · intro k hk
      rw [finish_pc] at hk
      by_cases hik : k = i
      · subst hik
        rw [Function.update_self] at hk
        exact hk
      · rw [Function.update_of_ne hik] at hk
        exact hik (honly k hk)
  | workerReturns w hw =>
    have hgone : ∀ v, s.AtMost v → AtMost { s with executing := s.executing.erase w } v := by
      intro v hone
      rcases hone with hone | hone
      · simp [hone] at hw
      · obtain rfl : w = v := by simpa [hone] using hw
        exact .inl (by simp [hone])
    cases h with
    | down _ _ hnone _ => simp [hnone] at hw
    | up v hopen hthread hone hpost => exact .up v hopen hthread (hgone v hone) hpost
    | joining i caller v hclosing hthread hone hpc honly =>
      exact .joining i caller v hclosing hthread (hgone v hone) hpc honly
    | resetting i caller _ _ hnone _ _ => simp [hnone] at hw

/-- Invocations are numbered upwards. -/
def Numbered (s : ThreadSystem ι) : Prop :=
  ∀ w ∈ s.executing, w < s.launched

theorem numbered_step {s s' : ThreadSystem ι} {a : ThreadAct ι} (h : s.Numbered)
    (hstep : Stepped s a s') : s'.Numbered := by
  cases hstep with
  | launches i hopen hfree =>
    intro w hw
    rcases List.mem_append.mp hw with hold | hnew
    · exact Nat.lt_succ_of_lt (h w hold)
    · obtain rfl : w = s.launched := by simpa using hnew
      exact Nat.lt_succ_self s.launched
  | turnsBack a i caller ha hwhy =>
    intro w hw
    rw [finish_executing] at hw
    rw [finish_launched]
    exact h w hw
  | resets i caller hpc =>
    intro w hw
    rw [finish_executing] at hw
    rw [finish_launched]
    exact h w hw
  | workerReturns w hw => exact fun v hv => h v (List.mem_of_mem_erase hv)
  | _ => exact h

theorem phase_of_run {acts : List (ThreadAct ι)} {s : ThreadSystem ι}
    (hrun : (machine ι).run (machine ι).init acts = some s) : s.Phase ∧ s.Numbered := by
  apply Machine.run_invariant (P := fun s : ThreadSystem ι => s.Phase ∧ s.Numbered) _ _ hrun
  · exact ⟨.down rfl rfl rfl fun _ => id, by rintro w ⟨⟩⟩
  · rintro s a s' ⟨hphase, hnum⟩ hstep
    have hstepped := stepped_of_step hstep
    exact ⟨phase_step hphase hstepped, numbered_step hnum hstepped⟩

/-! ## One worker, one stop source -/

/-- While a worker is executing the stop source is not replaced, and stop stays requested. -/
theorem stopSource_step {s s' : ThreadSystem ι} {a : ThreadAct ι} (h : s.Phase)
    (hstep : Stepped s a s') (hexec : s.executing ≠ []) :
    s'.obj.stopSource.id = s.obj.stopSource.id ∧
      (s.obj.doExit = true → s'.obj.doExit = true) := by
  cases hstep with
  | launches i hopen hfree => exact absurd (h.down_of_free hopen hfree).1 hexec
  | throws i hopen hfree => exact absurd (h.down_of_free hopen hfree).1 hexec
  | requests i hpc => exact ⟨rfl, fun _ => rfl⟩
  | requestsFor i atCall hpc => exact ⟨rfl, fun _ => rfl⟩
  | turnsBack a i caller ha hwhy =>
    rw [finish_obj]
    exact ⟨rfl, id⟩
  | resets i caller hpc =>
    rw [finish_obj]
    exact ⟨rfl, id⟩
  | _ => exact ⟨rfl, id⟩

/-- An invocation that has returned does not come back. -/
theorem not_executing_step {s s' : ThreadSystem ι} {a : ThreadAct ι} {w : ℕ}
    (h : w < s.launched ∧ w ∉ s.executing) (hstep : Stepped s a s') :
    w < s'.launched ∧ w ∉ s'.executing := by
  obtain ⟨hlt, hgone⟩ := h
  cases hstep with
  | launches i hopen hfree =>
    refine ⟨Nat.lt_succ_of_lt hlt, ?_⟩
    simp only [List.mem_append, List.mem_singleton, not_or]
    exact ⟨hgone, Nat.ne_of_lt hlt⟩
  | turnsBack a i caller ha hwhy =>
    rw [finish_executing, finish_launched]
    exact ⟨hlt, hgone⟩
  | resets i caller hpc =>
    rw [finish_executing, finish_launched]
    exact ⟨hlt, hgone⟩
  | workerReturns v hv => exact ⟨hlt, fun hw => hgone (List.mem_of_mem_erase hw)⟩
  | _ => exact ⟨hlt, hgone⟩

theorem launched_le_step {s s' : ThreadSystem ι} {a : ThreadAct ι} (hstep : Stepped s a s') :
    s.launched ≤ s'.launched := by
  cases hstep with
  | launches i hopen hfree => exact Nat.le_succ s.launched
  | turnsBack a i caller ha hwhy => exact Nat.le_of_eq (finish_launched s i caller).symm
  | resets i caller hpc =>
    rw [finish_launched]
  | _ => exact Nat.le_refl s.launched

/-- Along every run in which the worker `w` is executing at both ends, the stop source is the same
    and stop stays requested. -/
theorem stopSource_run {s s' : ThreadSystem ι} {acts : List (ThreadAct ι)} {w : ℕ}
    (h : s.Phase ∧ s.Numbered) (hrun : (machine ι).run s acts = some s')
    (hw : w ∈ s.executing) (hw' : w ∈ s'.executing) :
    s'.obj.stopSource.id = s.obj.stopSource.id ∧
      (s.obj.doExit = true → s'.obj.doExit = true) := by
  induction acts generalizing s with
  | nil =>
    cases hrun
    exact ⟨rfl, id⟩
  | cons a acts ih =>
    obtain ⟨t, ht, hrest⟩ := Machine.run_cons_eq_some.mp hrun
    have hstep := stepped_of_step ht
    have hsame := stopSource_step h.1 hstep (List.ne_nil_of_mem hw)
    by_cases hmid : w ∈ t.executing
    · have hlater := ih ⟨phase_step h.1 hstep, numbered_step h.2 hstep⟩ hrest hmid
      exact ⟨hlater.1.trans hsame.1, fun hexit => hlater.2 (hsame.2 hexit)⟩
    · -- `w` has returned in between, and its number is not given to another invocation
      have hgone := Machine.run_preserves (M := machine ι)
        (P := fun u => w < u.launched ∧ w ∉ u.executing)
        (fun u b v hu hv => not_executing_step hu (stepped_of_step hv))
        ⟨Nat.lt_of_lt_of_le (h.2 w hw) (launched_le_step hstep), hmid⟩ hrest
      exact absurd hw' hgone.2

/-- **A `Thread` object never runs two workers.** In every state that any interleaving of the calls
    reaches, at most one invocation of `thread_proc` is executing; no step replaces `stop_source_`
    while one is; and once `do_exit()` is true for a worker it stays true, on the same stop source,
    until that worker returns. -/
theorem thread_single_worker (acts : List (ThreadAct ι)) (s : ThreadSystem ι)
    (hrun : (machine ι).run (machine ι).init acts = some s) :
    s.executing.length ≤ 1 ∧
      (∀ a s', (machine ι).step s a = some s' → s.executing ≠ [] →
        s'.obj.stopSource.id = s.obj.stopSource.id) ∧
      ∀ w rest s', w ∈ s.executing → (machine ι).run s rest = some s' → w ∈ s'.executing →
        s.obj.doExit = true →
        s'.obj.doExit = true ∧ s'.obj.stopSource.id = s.obj.stopSource.id := by
  have h := phase_of_run hrun
  refine ⟨h.1.length_le_one, ?_, ?_⟩
  · exact fun a s' hstep hexec => (stopSource_step h.1 (stepped_of_step hstep) hexec).1
  · intro w rest s' hw hrest hw' hexit
    obtain ⟨hid, hkeeps⟩ := stopSource_run h hrest hw hw'
    exact ⟨hkeeps hexit, hid⟩

/-- A restart after a full shutdown, with a second closer that is between its two halves. -/
theorem thread_single_worker_restarted :
    ∃ s, (machine (Fin 3)).run (machine (Fin 3)).init
        [.create 0 true, .close 1, .next 1, .close 2, .next 2, .next 2, .workerReturns 0,
          .next 2, .next 2, .create 0 true] = some s ∧
      s.executing = [1] ∧ s.obj.stopSource = ⟨1, false⟩ ∧ s.executing.length ≤ 1 := by
  obtain ⟨s, hrun, hlast⟩ := Machine.exists_of_run_any (machine (Fin 3)) (machine (Fin 3)).init
    [.create 0 true, .close 1, .next 1, .close 2, .next 2, .next 2, .workerReturns 0,
      .next 2, .next 2, .create 0 true]
    (fun s => decide (s.executing = [1]) && decide (s.obj.stopSource = ⟨1, false⟩)) (by decide)
  simp only [Bool.and_eq_true, decide_eq_true_eq] at hlast
  exact ⟨s, hrun, hlast.1, hlast.2, (thread_single_worker _ s hrun).1⟩

/-! ## `close()` and the worker that was running -/

/-- When a `close()` call returned, the workers that were executing when it began had returned. -/
def StoppedOnClose (s : ThreadSystem ι) : Prop :=
  ∀ e ∈ s.closed, ∀ w ∈ e.atCall, w ∉ e.atReturn

/-- Inside `close()`, between its two halves. -/
def isBetween : ThreadPc → Bool
  | .between _ => true
  | _ => false

/-- The step is the `close_post` check of a `close()` call. -/
def entersPost (s : ThreadSystem ι) : ThreadAct ι → Bool
  | .next i => isBetween (s.pc i)
  | _ => false

/-- A `close()` call does not reach `close_post` while another caller is joining a worker that is
    still executing. -/
def NoOverlap (s : ThreadSystem ι) (a : ThreadAct ι) : Prop :=
  s.entersPost a = true → s.obj.closing = true → s.executing = []

instance (s : ThreadSystem ι) (a : ThreadAct ι) : Decidable (NoOverlap s a) :=
  inferInstanceAs (Decidable (_ → _ → _))

theorem stopped_of_finish {s t : ThreadSystem ι} {i : ι} {caller : Option (List ℕ)}
    (h : s.StoppedOnClose) (hclosed : t.closed = s.closed)
    (hnone : caller ≠ none → t.executing = []) : (t.finish i caller).StoppedOnClose := by
  cases caller with
  | none =>
    intro e he
    simp only [finish, goTo, hclosed] at he
    exact h e he
  | some atCall =>
    intro e he w hw
    simp only [finish, goTo, hclosed, List.mem_append, List.mem_singleton] at he
    rcases he with hold | rfl
    · exact h e hold w hw
    · simp [hnone nofun]

/-- **Step lemma**: outside an overlap, every `close()` that returns has stopped the worker. -/
theorem stopped_step {s s' : ThreadSystem ι} {a : ThreadAct ι} (hphase : s.Phase)
    (h : s.StoppedOnClose) (hok : NoOverlap s a) (hstep : Stepped s a s') :
    s'.StoppedOnClose := by
  cases hstep with
  | turnsBack a i caller ha hwhy =>
    apply stopped_of_finish h rfl
    intro hcaller
    cases ha with
    | alone i hpc => exact absurd rfl hcaller
    | inClose i atCall hpc =>
      rcases hwhy with hclosing | hthread
      · exact hok (by simp [entersPost, isBetween, hpc]) hclosing
      · exact hphase.executing_nil_of_thread hthread
  | resets i caller hpc =>
    apply stopped_of_finish
    · exact h
    · rfl
    · exact fun _ => (hphase.of_resets hpc).1
  | _ => exact h

/-- **`close()` means stopped, as long as closers do not overlap**: in every run in which no
    `close()` reaches its `close_post` while another caller is parked in the join of a worker that
    is still executing, every `close()` that returns finds the worker that was executing when it
    began returned. -/
theorem closed_stopped_of_noOverlap (acts : List (ThreadAct ι)) (s : ThreadSystem ι)
    (hrun : (machine ι).run (machine ι).init acts = some s)
    (hok : (machine ι).Along NoOverlap (machine ι).init acts) : s.StoppedOnClose := by
  have h := Machine.run_preserves_along (P := fun s : ThreadSystem ι => s.Phase ∧ s.StoppedOnClose)
    (M := machine ι) (s := (machine ι).init)
    (fun s a s' hs ha hstep =>
      ⟨phase_step hs.1 (stepped_of_step hstep), stopped_step hs.1 hs.2 ha (stepped_of_step hstep)⟩)
    ⟨.down rfl rfl rfl fun _ => id, by rintro e ⟨⟩⟩ hok hrun
  exact h.2

/-- A single closer: the worker is joined before `close()` returns. -/
theorem closed_stopped_of_noOverlap_single :
    ∃ s, (machine (Fin 2)).run (machine (Fin 2)).init
        [.create 0 true, .close 1, .next 1, .next 1, .workerReturns 0, .next 1, .next 1] = some s ∧
      s.closed = [⟨[0], []⟩] ∧ s.StoppedOnClose := by
  obtain ⟨s, hrun, hlast⟩ := Machine.exists_of_run_any (machine (Fin 2)) (machine (Fin 2)).init
    [.create 0 true, .close 1, .next 1, .next 1, .workerReturns 0, .next 1, .next 1]
    (fun s => decide (s.closed = [⟨[0], []⟩])) (by decide)
  exact ⟨s, hrun, of_decide_eq_true hlast, closed_stopped_of_noOverlap _ s hrun (by decide)⟩

/-- Two closers: the second one returns while the first one is still joining the worker. -/
theorem not_closed_stopped_two_closers :
    ∃ s, (machine (Fin 3)).run (machine (Fin 3)).init
        [.create 0 true, .close 1, .next 1, .next 1, .close 2, .next 2, .next 2] = some s ∧
      ¬s.StoppedOnClose := by
  obtain ⟨s, hrun, hlast⟩ := Machine.exists_of_run_any (machine (Fin 3)) (machine (Fin 3)).init
    [.create 0 true, .close 1, .next 1, .next 1, .close 2, .next 2, .next 2]
    (fun s => decide (s.closed = [⟨[0], [0]⟩])) (by decide)
  refine ⟨s, hrun, fun hstopped => ?_⟩
  rw [decide_eq_true_eq] at hlast
  exact hstopped ⟨[0], [0]⟩ (by simp [hlast]) 0 (by simp) (by simp)

/-! ## Workers that are joined have been told to stop -/

/-- Every `jthread` that was moved out to be joined belonged to a worker on whose stop source stop
    had been requested. -/
def ToldToStop (s : ThreadSystem ι) : Prop :=
  ∀ e ∈ s.moved, e.requested = true

/-- The step is a `create` that finds nothing to join and launches a worker. -/
def startsWorker (s : ThreadSystem ι) : ThreadAct ι → Bool
  | .create _ spawns => !s.obj.closing && !s.obj.joinable && spawns
  | _ => false

/-- `create` does not launch while a `close()` call is between `close_pre` and `close_post`. -/
def LaunchesApart (s : ThreadSystem ι) (a : ThreadAct ι) : Prop :=
  s.startsWorker a = true → ∀ j, isBetween (s.pc j) = false

instance [Fintype ι] (s : ThreadSystem ι) (a : ThreadAct ι) : Decidable (LaunchesApart s a) :=
  inferInstanceAs (Decidable (_ → ∀ _, _))

/-- The steps of `create`, of `close` and of the worker. -/
def isCloseOrCreate : ThreadAct ι → Bool
  | .closePre _ | .closePost _ => false
  | _ => true

/-- What `close_pre` has done lasts until `close_post`, which finds stop requested or nothing to
    join. -/
structure Warned (s : ThreadSystem ι) : Prop where
  between : ∀ j, isBetween (s.pc j) = true → s.obj.doExit = true ∨ s.obj.thread = none
  told : s.ToldToStop

/-- A caller moves to a point that is not between the two halves of `close`. -/
theorem Warned.between_of_goTo {s s' : ThreadSystem ι} (h : s.Warned) {i : ι} {pc : ThreadPc}
    (hpc : s'.pc = Function.update s.pc i pc) (hnot : isBetween pc = false)
    (hobj : s.obj.doExit = true ∨ s.obj.thread = none →
      s'.obj.doExit = true ∨ s'.obj.thread = none) :
    ∀ j, isBetween (s'.pc j) = true → s'.obj.doExit = true ∨ s'.obj.thread = none := by
  intro j hj
  rw [hpc] at hj
  by_cases hij : j = i
  · subst hij
    rw [Function.update_self, hnot] at hj
    cases hj
  · rw [Function.update_of_ne hij] at hj
    exact hobj (h.between j hj)

/-- **Step lemma**: apart from restarts in between, a `close()` that has requested stop finds it
    requested in `close_post`, unless there is nothing to join. -/
theorem warned_step {s s' : ThreadSystem ι} {a : ThreadAct ι} (h : s.Warned)
    (ha : isCloseOrCreate a = true) (hok : LaunchesApart s a) (hstep : Stepped s a s') :
    s'.Warned := by
  cases hstep with
  | already i spawns hopen hjoinable => exact h
  | launches i hopen hfree =>
    refine ⟨fun j hj => ?_, h.told⟩
    have hapart := hok (by simp [startsWorker, hopen, hfree]) j
    rw [hapart] at hj
    cases hj
  | throws i hopen hfree => exact ⟨fun _ _ => .inr rfl, h.told⟩
  | calls i hpc => exact ⟨h.between_of_goTo (i := i) rfl rfl id, h.told⟩
  | requests i hpc => cases ha
  | requestsFor i atCall hpc => exact ⟨fun _ _ => .inl rfl, h.told⟩
  | turnsBack a i caller hentry hwhy =>
    constructor
    · apply h.between_of_goTo (finish_pc s i caller) rfl
      rw [finish_obj]
      exact id
    · unfold ToldToStop
      rw [finish_moved]
      exact h.told
  | movesOut a i caller worker hentry hopen hthread =>
    -- there is a worker to join, so stop has been requested
    have hexit : s.obj.doExit = true ∨ s.obj.thread = none → s.obj.doExit = true := by
      intro hwarned
      refine hwarned.resolve_right fun hnone => ?_
      rw [hthread] at hnone
      cases hnone
    refine ⟨h.between_of_goTo (i := i) rfl rfl fun hwarned => .inl (hexit hwarned), ?_⟩
    intro e he
    rcases List.mem_append.mp he with hold | hnew
    · exact h.told e hold
    · obtain rfl : e = ⟨worker, s.obj.doExit⟩ := by simpa using hnew
      cases hentry with
      | alone i hpc => cases ha
      | inClose i atCall hpc => exact hexit (h.between i (by simp [hpc, isBetween]))
  | joined i caller worker hpc hdone =>
    exact ⟨h.between_of_goTo (i := i) rfl rfl id, h.told⟩
  | resets i caller hpc =>
    constructor
    · have hidle := finish_pc { s with obj := s.obj.reset } i caller
      have hobj := finish_obj { s with obj := s.obj.reset } i caller
      refine h.between_of_goTo hidle rfl fun _ => .inr ?_
      rw [hobj]
      rfl
    · unfold ToldToStop
      rw [finish_moved]
      exact h.told
  | workerReturns w hw => exact ⟨h.between, h.told⟩

/-- **Every joined worker was told to stop, as long as restarts keep apart from closers**: in every
    run of `create` and `close` in which `create` launches no worker while some `close()` is
    between its `close_pre` and its `close_post`, stop has been requested for every worker that
    `close_post` moves out to join it. -/
theorem moved_requested_of_launchesApart (acts : List (ThreadAct ι))
    (hacts : ∀ a ∈ acts, isCloseOrCreate a = true) (s : ThreadSystem ι)
    (hrun : (machine ι).run (machine ι).init acts = some s)
    (hok : (machine ι).Along LaunchesApart (machine ι).init acts) : s.ToldToStop := by
  have hboth := Machine.along_and (Machine.along_of_forall hacts (machine ι).init) hok
  have h := Machine.run_preserves_along (P := Warned) (M := machine ι) (s := (machine ι).init)
    (fun s a s' hs ha hstep => warned_step hs ha.1 ha.2 (stepped_of_step hstep))
    ⟨nofun, by rintro e ⟨⟩⟩ hboth hrun
  exact h.told

/-- Two closers and a restart after both have returned. -/
theorem moved_requested_of_launchesApart_restart :
    ∃ s, (machine (Fin 3)).run (machine (Fin 3)).init
        [.create 0 true, .close 1, .next 1, .close 2, .next 2, .next 2, .next 1, .workerReturns 0,
          .next 2, .next 2, .create 0 true, .close 1, .next 1, .next 1] = some s ∧
      s.moved = [⟨some 0, true⟩, ⟨some 1, true⟩] ∧ s.ToldToStop := by
  obtain ⟨s, hrun, hlast⟩ := Machine.exists_of_run_any (machine (Fin 3)) (machine (Fin 3)).init
    [.create 0 true, .close 1, .next 1, .close 2, .next 2, .next 2, .next 1, .workerReturns 0,
      .next 2, .next 2, .create 0 true, .close 1, .next 1, .next 1]
    (fun s => decide (s.moved = [⟨some 0, true⟩, ⟨some 1, true⟩])) (by decide)
  exact ⟨s, hrun, of_decide_eq_true hlast,
    moved_requested_of_launchesApart _ (by decide) s hrun (by decide)⟩

/-- A closer pauses between its two halves while another one closes and a third one restarts. -/
theorem not_moved_requested_restart :
    ∃ s, (machine (Fin 3)).run (machine (Fin 3)).init
        [.create 0 true, .close 1, .next 1, .close 2, .next 2, .next 2, .workerReturns 0, .next 2,
          .next 2, .create 0 true, .next 1] = some s ∧
      ¬s.ToldToStop := by
  obtain ⟨s, hrun, hlast⟩ := Machine.exists_of_run_any (machine (Fin 3)) (machine (Fin 3)).init
    [.create 0 true, .close 1, .next 1, .close 2, .next 2, .next 2, .workerReturns 0, .next 2,
      .next 2, .create 0 true, .next 1]
    (fun s => decide (s.moved = [⟨some 0, true⟩, ⟨some 1, false⟩])) (by decide)
  refine ⟨s, hrun, fun htold => ?_⟩
  rw [decide_eq_true_eq] at hlast
  have hnever := htold ⟨some 1, false⟩ (by simp [hlast])
  cases hnever

end ThreadSystem

end Pdk.Sync
