import Pdk.Sync.GlobalTimerAgreement

/-!
# Each timer ends in one way

A timer is pending between the start and the end: `pending` is its record, as the map and the
memory have it. In every run with numbers that fit, a timer that was started was stopped, or its
event was posted, or it is pending (`Balanced`). The balance is kept by each step because a
scan posts one event for each timer that it ends (`countP_postings`), and a record of the list is
the record of one place only.
-/

namespace Pdk.Sync

open Foundation

namespace GlobalTimer

variable {O P : Type*} [DecidableEq O] [DecidableEq P]
variable {t t' : GlobalTimer O P} {ntv : TimeVal} {events : List (O × EventInfo)}

/-- The record of a timer that was started and has not ended. -/
def pending (t : GlobalTimer O P) (obj : O) (nWhich : CInt) : Option (TimeSpec O) :=
  (t.timerMap.value obj nWhich).bind t.live.lookup

/-- The event of a timer. -/
def isDone (obj : O) (nWhich : CInt) : TimerOutcome O → Bool
  | .posted o e => decide (o = obj ∧ e.type = ciTimerDone ∧ (e.subtype : ℤ) = nWhich.val)
  | _ => false

theorem isDone_timerEvent (obj : O) (nWhich : CInt) (spec : TimeSpec O) (ntv : TimeVal) :
    isDone obj nWhich (.posted spec.obj (timerEvent spec ntv)) = true ↔
      spec.obj = obj ∧ ofUint8 spec.nWhich = nWhich := by
  have hval : (ofUint8 spec.nWhich).val = spec.nWhich.toNat := rfl
  rw [isDone, decide_eq_true_iff, Subtype.ext_iff, hval]
  constructor
  · intro ⟨hobj, _, hwhich⟩
    exact ⟨hobj, hwhich⟩
  · intro ⟨hobj, hwhich⟩
    exact ⟨hobj, rfl, hwhich⟩

theorem pending_of_value (h : t.Registered) {obj : O} {nWhich : CInt} {p : P}
    (hvalue : t.timerMap.value obj nWhich = some p) :
    ∃ spec, t.live.lookup p = some spec ∧ t.pending obj nWhich = some spec := by
  obtain ⟨-, spec, hspec, -⟩ := h.mapped obj nWhich p hvalue
  exact ⟨spec, hspec, by rw [pending, hvalue, Option.bind_some, hspec]⟩

theorem pending_isSome (h : t.Registered) (obj : O) (nWhich : CInt) :
    (t.pending obj nWhich).isSome = (t.timerMap.value obj nWhich).isSome := by
  cases hvalue : t.timerMap.value obj nWhich with
  | none => rw [pending, hvalue, Option.bind_none]; rfl
  | some p =>
    obtain ⟨spec, -, hpending⟩ := pending_of_value h hvalue
    rw [hpending]
    rfl

/-! ## The events of a scan -/

/-- **A scan posts one event for each timer that it ends.** -/
theorem countP_postings (h : t.Registered) {kept : List P}
    (hscanned : Scanned ntv t t.timerList kept events t') (obj : O) (nWhich : CInt) :
    (TimerSystem.postings events).countP (isDone obj nWhich) =
      ((t.timerMap.value obj nWhich).any (t.due ntv)).toNat := by
  have hplaces : (TimerSystem.postings events).countP (isDone obj nWhich) =
      t.timerList.countP fun p => decide (t.timerMap.value obj nWhich = some p) && t.due ntv p := by
    rw [TimerSystem.postings, List.countP_map, hscanned.events_eq, List.countP_filterMap,
      List.countP_filter]
    apply List.countP_congr
    intro p hp
    obtain ⟨spec, hspec, -⟩ := h.listed p hp
    have hdone := isDone_timerEvent obj nWhich spec ntv
    rw [← h.value_iff hp hspec] at hdone
    simp only [eventOf, hspec, Option.map_some, Option.getD_some, Function.comp, Bool.and_eq_true,
      decide_eq_true_iff, hdone]
  rw [hplaces]
  cases hvalue : t.timerMap.value obj nWhich with
  | none => simp
  | some p =>
    obtain ⟨hp, -⟩ := h.mapped obj nWhich p hvalue
    have hone : t.timerList.countP (fun q => decide (some p = some q) && t.due ntv q) =
        t.timerList.countP fun q => decide (q = p) && t.due ntv p := by
      apply List.countP_congr
      intro q _
      by_cases hq : q = p
      · subst hq
        simp
      · have hpq : ¬p = q := fun heq => hq heq.symm
        simp [hq, hpq]
    rw [hone, Option.any_some]
    cases t.due ntv p with
    | false => simp
    | true =>
      have hcount := List.count_eq_one_of_mem h.nodup hp
      rw [List.count_eq_countP] at hcount
      simp only [Bool.and_true, Bool.toNat_true]
      rw [← hcount]
      exact List.countP_congr fun q _ => by simp

/-- The timers behind a scan. -/
theorem value_scanned (h : t.Registered) {kept : List P}
    (hscanned : Scanned ntv t t.timerList kept events t') (obj : O) (nWhich : CInt) :
    t'.timerMap.value obj nWhich =
      (t.timerMap.value obj nWhich).filter fun p => !t.due ntv p := by
  rw [hscanned.value_eq]
  cases hvalue : t.timerMap.value obj nWhich with
  | none => rfl
  | some p =>
    obtain ⟨hp, -⟩ := h.mapped obj nWhich p hvalue
    simp only [Option.filter, hp, true_and, Bool.decide_eq_true]

/-- What a scan is for. -/
structure ScanContract (t : GlobalTimer O P) (ntv : TimeVal) (events : List (O × EventInfo))
    (t' : GlobalTimer O P) : Prop where
  -- one event for each pending timer whose term has elapsed
  posts : ∀ obj nWhich, (TimerSystem.postings events).countP (isDone obj nWhich) =
    ((t.pending obj nWhich).any fun spec => decide (spec.Elapsed ntv)).toNat
  -- no other event
  only : ∀ e ∈ events, ∃ nWhich spec, t.pending e.1 nWhich = some spec ∧ spec.Elapsed ntv ∧
    e.2 = timerEvent spec ntv
  -- the others are pending with the same record
  pending : ∀ obj nWhich, t'.pending obj nWhich =
    (t.pending obj nWhich).filter fun spec => !decide (spec.Elapsed ntv)
  -- in the order in which they were
  order : t'.timerList = t.timerList.filter fun p => !t.due ntv p

theorem scanContract (h : t.Registered)
    (hscanned : Scanned ntv t t.timerList t'.timerList events t') : ScanContract t ntv events t' := by
  refine ⟨?_, ?_, ?_, hscanned.kept_eq⟩
  · intro obj nWhich
    rw [countP_postings h hscanned]
    cases hvalue : t.timerMap.value obj nWhich with
    | none => rw [pending, hvalue]; rfl
    | some p =>
      obtain ⟨spec, hspec, hpending⟩ := pending_of_value h hvalue
      rw [hpending, Option.any_some, Option.any_some, due, hspec, Option.any_some]
  · intro e he
    rw [hscanned.events_eq, List.mem_filterMap] at he
    obtain ⟨p, hp, hevent⟩ := he
    obtain ⟨hlisted, hdue⟩ := List.mem_filter.mp hp
    obtain ⟨spec, hspec, hvalue⟩ := h.listed p hlisted
    rw [eventOf, hspec, Option.map_some] at hevent
    rw [due, hspec] at hdue
    cases hevent
    refine ⟨ofUint8 spec.nWhich, spec, ?_, of_decide_eq_true hdue, rfl⟩
    rw [pending, hvalue, Option.bind_some, hspec]
  · intro obj nWhich
    rw [pending, value_scanned h hscanned]
    cases hvalue : t.timerMap.value obj nWhich with
    | none => rw [pending, hvalue]; rfl
    | some p =>
      obtain ⟨hp, -⟩ := h.mapped obj nWhich p hvalue
      obtain ⟨spec, hspec, hpending⟩ := pending_of_value h hvalue
      have hdue : t.due ntv p = decide (spec.Elapsed ntv) := by rw [due, hspec, Option.any_some]
      have hlive := hscanned.live_eq p
      rw [hpending]
      simp only [Option.filter, hdue]
      by_cases helapsed : spec.Elapsed ntv
      · simp [helapsed]
      · rw [if_neg (by simp [hdue, helapsed]), hspec] at hlive
        simp [helapsed, hlive]

end GlobalTimer

/-! ## Runs -/

namespace TimerSystem

open GlobalTimer

variable {O P : Type*} [DecidableEq O] [DecidableEq P]
variable {s s' : TimerSystem O P} {a : TimerAction O P} {acts : List (TimerAction O P)}

/-- Starts, events and stops of a timer, and whether it is pending. -/
def Balanced (s : TimerSystem O P) (obj : O) (nWhich : CInt) : Prop :=
  s.log.count (.started obj nWhich true) =
    s.log.countP (isDone obj nWhich) + s.log.count (.stopped obj nWhich true) +
      (s.timer.timerMap.value obj nWhich).isSome.toNat

omit [DecidableEq P] in
/-- The log of a step that does not concern the timer, or that had no effect. -/
theorem Balanced.skip {obj : O} {nWhich : CInt} (h : s.Balanced obj nWhich)
    {timer : GlobalTimer O P} {outcome : TimerOutcome O}
    (hvalue : timer.timerMap.value obj nWhich = s.timer.timerMap.value obj nWhich)
    (hstarted : outcome ≠ .started obj nWhich true) (hstopped : outcome ≠ .stopped obj nWhich true)
    (hposted : isDone obj nWhich outcome = false) : (s.after timer [outcome]).Balanced obj nWhich := by
  rw [Balanced] at h ⊢
  simp only [after, List.count_append, List.countP_append, List.count_singleton,
    List.countP_singleton, hvalue, beq_eq_false_iff_ne.mpr hstarted,
    beq_eq_false_iff_ne.mpr hstopped, hposted]
  simpa using h

/-- **Each step keeps the balance of each timer.** -/
theorem balanced_step (h : s.Sound) (hstep : s.step a = some s') {obj : O} {nWhich : CInt}
    (hbalanced : s.Balanced obj nWhich) : s'.Balanced obj nWhich := by
  obtain ⟨hreg, hdefined⟩ := h
  rcases step_cases hreg hdefined hstep with ⟨obj', msecs, nWhich', tv, p, q, rfl, hvalue, rfl⟩ |
    ⟨obj', msecs, nWhich', tv, p, rfl, hnone, hfresh, rfl⟩ | ⟨obj', nWhich', rfl, hnone, rfl⟩ |
    ⟨obj', nWhich', p, rfl, hvalue, rfl⟩ | ⟨ntv, events, timer, rfl, hreg', hscanned, rfl⟩
  · exact hbalanced.skip rfl (by simp) (by simp) rfl
  · rw [addElement_new hnone]
    by_cases hplace : (obj, nWhich) = (obj', nWhich')
    · -- the timer was not pending, and is now
      obtain ⟨rfl, rfl⟩ := Prod.mk.inj hplace
      rw [Balanced, hnone] at hbalanced
      simp [Balanced, after, isDone, OrderedMap.value_store_self, hbalanced]
    · refine hbalanced.skip (OrderedMap.value_store_of_ne _ hplace) ?_ (by simp) rfl
      intro heq
      cases heq
      exact hplace rfl
  · exact hbalanced.skip rfl (by simp) (by simp) rfl
  · by_cases hplace : (obj, nWhich) = (obj', nWhich')
    · -- the timer was pending, and is not now
      obtain ⟨rfl, rfl⟩ := Prod.mk.inj hplace
      rw [Balanced, hvalue] at hbalanced
      simp [Balanced, after, isDone, GlobalTimer.drop, OrderedMap.value_discard_self, hbalanced]
      omega
    · refine hbalanced.skip (OrderedMap.value_discard_of_ne _ hplace) (by simp) ?_ rfl
      intro heq
      cases heq
      exact hplace rfl
  · have hposted := countP_postings hreg hscanned obj nWhich
    have hvalue := value_scanned hreg hscanned obj nWhich
    have hstarts : (postings events).count (.started obj nWhich true) = 0 := by
      rw [List.count_eq_zero]
      simp [postings]
    have hstops : (postings events).count (.stopped obj nWhich true) = 0 := by
      rw [List.count_eq_zero]
      simp [postings]
    rw [Balanced] at hbalanced ⊢
    simp only [after, List.count_append, List.countP_append, hstarts, hstops, hposted, hvalue,
      hbalanced]
    cases s.timer.timerMap.value obj nWhich with
    | none => simp
    | some p =>
      cases hdue : s.timer.due ntv p with
      | false => simp [Option.filter, hdue]
      | true =>
        simp [Option.filter, hdue]
        omega

/-- What `GlobalTimer` promises about its timers. -/
structure Contract (s : TimerSystem O P) : Prop where
  defined : s.undefined = false
  -- each successful start is accounted for
  balance : ∀ obj nWhich, s.log.count (.started obj nWhich true) =
    s.log.countP (isDone obj nWhich) + s.log.count (.stopped obj nWhich true) +
      if (s.timer.pending obj nWhich).isSome then 1 else 0
  start : ∀ obj msecs nWhich tv p,
    (s.timer.addElement obj msecs nWhich tv p).1 = (s.timer.pending obj nWhich).isNone
  stop : ∀ obj nWhich, ∃ timer,
    s.timer.removeElement obj nWhich = some ((s.timer.pending obj nWhich).isSome, timer)
  scan : ∀ ntv, ∃ events timer, s.timer.scan ntv = some (events, timer) ∧
    ScanContract s.timer ntv events timer
  noEmpty : ∀ obj whichMap, s.timer.timerMap.lookup obj = some whichMap → whichMap.entries ≠ []

/-- **Each timer ends in exactly one way**, in every run of starts, stops and scans. -/
theorem timer_contract (hacts : ∀ a ∈ acts, a.InRange)
    (hrun : machine.run initial acts = some s) : s.Contract := by
  have hinv : s.Sound ∧ ∀ obj nWhich, s.Balanced obj nWhich := by
    refine Machine.run_preserves_along
      (P := fun s => s.Sound ∧ ∀ obj nWhich, s.Balanced obj nWhich) ?_ ?_
      (Machine.along_of_forall hacts initial) hrun
    · intro t a t' ht ha hstep
      exact ⟨sound_step ht.1 ha hstep, fun obj nWhich => balanced_step ht.1 hstep (ht.2 obj nWhich)⟩
    · exact ⟨sound_initial, fun _ _ => rfl⟩
  obtain ⟨⟨hreg, hdefined⟩, hbalanced⟩ := hinv
  refine ⟨hdefined, ?_, ?_, ?_, ?_, hreg.noEmpty⟩
  · intro obj nWhich
    rw [hbalanced obj nWhich, pending_isSome hreg]
    cases s.timer.timerMap.value obj nWhich <;> rfl
  · intro obj msecs nWhich tv p
    cases hvalue : s.timer.timerMap.value obj nWhich with
    | none => rw [addElement_new hvalue, pending, hvalue]; rfl
    | some q =>
      obtain ⟨spec, -, hpending⟩ := pending_of_value hreg hvalue
      rw [addElement_running hvalue, hpending]
      rfl
  · intro obj nWhich
    cases hvalue : s.timer.timerMap.value obj nWhich with
    | none => exact ⟨s.timer, by rw [removeElement_none hvalue, pending, hvalue]; rfl⟩
    | some p =>
      obtain ⟨spec, hspec, hpending⟩ := pending_of_value hreg hvalue
      exact ⟨_, by rw [removeElement_some hvalue hspec, hpending]; rfl⟩
  · intro ntv
    obtain ⟨events, timer, hscan, -, hscanned⟩ := scan_spec hreg ntv
    exact ⟨events, timer, hscan, scanContract hreg hscanned⟩

/-- A timer is started, started again, stopped, and started again. -/
theorem timer_contract_restart :
    let acts : List (TimerAction ℕ ℕ) :=
      [.startTimer 0 ⟨100, by decide⟩ ⟨7, by decide⟩ ⟨0, 0⟩ 0,
        .startTimer 0 ⟨100, by decide⟩ ⟨7, by decide⟩ ⟨0, 5000⟩ 1,
        .stopTimer 0 ⟨7, by decide⟩, .startTimer 0 ⟨200, by decide⟩ ⟨7, by decide⟩ ⟨0, 9000⟩ 0]
    (∀ a ∈ acts, a.InRange) ∧ ∃ s, machine.run initial acts = some s ∧ s.Contract := by
  intro acts
  have hacts : ∀ a ∈ acts, a.InRange := by
    simp [acts, TimerAction.InRange, Fits]
  exact ⟨hacts, _, rfl, timer_contract hacts rfl⟩

end TimerSystem

end Pdk.Sync
