import Pdk.Pool.PgPool

/-!
# Guards and the threads that work on them

The bookkeeping of the guards of a `PgConnectionPool`, independent of the connections: a thread
finds the guards it is working on as it left them, because no other thread touches them, and a
guard counts as handed over exactly while some thread is inside its `release`. Its pointer is still
set then, and may even dangle after a rebuild, but it is cleared before anybody can use the guard
again.
-/

namespace Pdk.Pool

/-! ## Guards and the threads that work on them -/

section Slots

variable {Ptr γ ι : Type*}

/-- The thread is inside the `release` of the guard in `g`. -/
def PgPc.Releases (g : γ) : PgPc Ptr γ → Prop
  | .releasing k _ => k.target = g
  | _ => False

/-- The storage that `i` is working on during `PgGuard::release`. -/
def PgThen.Owns (i : ι) (slots : γ → GuardSlot Ptr ι) : PgThen γ → Prop
  | .destroys g => ∃ guard, slots g = ⟨some guard, some i, true⟩
  | .assigns dst src => dst ≠ src ∧ (∃ guard, slots dst = ⟨some guard, some i, true⟩) ∧
      ∃ o, slots src = ⟨some o, some i, false⟩

/-- The storage that `i` is working on. -/
def PgPc.Owns (i : ι) (slots : γ → GuardSlot Ptr ι) : PgPc Ptr γ → Prop
  | .idle => True
  | .waited _ g | .popped _ g _ => slots g = ⟨none, some i, false⟩
  | .releasing k _ => k.Owns i slots

/-- Both pointers of a guard are set, or none is. -/
def Paired (slots : γ → GuardSlot Ptr ι) : Prop :=
  ∀ g guard, (slots g).guard = some guard → guard.conn.isSome = guard.pool

/-- Only storage that nobody else is working on is changed. -/
def Frames (i : ι) (slots slots' : γ → GuardSlot Ptr ι) : Prop :=
  ∀ g j, (slots g).user = some j → j ≠ i → slots' g = slots g

theorem frames_refl (i : ι) (slots : γ → GuardSlot Ptr ι) : Frames i slots slots :=
  fun _ _ _ _ => rfl

theorem frames_update [DecidableEq γ] {i : ι} {slots slots' : γ → GuardSlot Ptr ι} {g : γ}
    {slot : GuardSlot Ptr ι} (h : Frames i slots slots')
    (huser : ∀ j, (slots g).user = some j → j = i) :
    Frames i slots (Function.update slots' g slot) := by
  intro g' j hj hne
  have hg : g' ≠ g := by
    rintro rfl
    exact hne (huser j hj)
  rw [Function.update_of_ne hg]
  exact h g' j hj hne

theorem paired_update [DecidableEq γ] {slots : γ → GuardSlot Ptr ι} {g : γ}
    {slot : GuardSlot Ptr ι} (h : Paired slots)
    (hslot : ∀ guard, slot.guard = some guard → guard.conn.isSome = guard.pool) :
    Paired (Function.update slots g slot) := by
  intro g' guard hguard
  by_cases hg : g' = g
  · subst hg
    rw [Function.update_self] at hguard
    exact hslot guard hguard
  · rw [Function.update_of_ne hg] at hguard
    exact h g' guard hguard

theorem handed_of_update [DecidableEq γ] {slots : γ → GuardSlot Ptr ι} {g g' : γ}
    {slot : GuardSlot Ptr ι} (hslot : slot.handed = false)
    (h : (Function.update slots g slot g').handed = true) :
    g' ≠ g ∧ (slots g').handed = true := by
  by_cases hg : g' = g
  · subst hg
    rw [Function.update_self, hslot] at h
    cases h
  · rw [Function.update_of_ne hg] at h
    exact ⟨hg, h⟩

theorem PgPc.Owns.frame {i j : ι} {slots slots' : γ → GuardSlot Ptr ι} {pc : PgPc Ptr γ}
    (h : pc.Owns j slots) (hframe : Frames i slots slots') (hne : j ≠ i) : pc.Owns j slots' := by
  cases pc with
  | idle => exact h
  | waited op g =>
    simp only [PgPc.Owns] at h ⊢
    rw [hframe g j (by rw [h]) hne]
    exact h
  | popped op g conn =>
    simp only [PgPc.Owns] at h ⊢
    rw [hframe g j (by rw [h]) hne]
    exact h
  | releasing k phase =>
    cases k with
    | destroys g =>
      obtain ⟨guard, hguard⟩ := h
      exact ⟨guard, by rw [hframe g j (by rw [hguard]) hne, hguard]⟩
    | assigns dst src =>
      obtain ⟨hds, ⟨guard, hguard⟩, o, ho⟩ := h
      refine ⟨hds, ⟨guard, ?_⟩, o, ?_⟩
      · rw [hframe dst j (by rw [hguard]) hne, hguard]
      · rw [hframe src j (by rw [ho]) hne, ho]

end Slots

namespace PgSystem

variable {Ptr γ ι : Type*}

/-- The bookkeeping of the guards: every thread finds the storage it is working on as it left it, a
    guard counts as handed over exactly while some thread is inside its `release`, and the two
    pointers of a guard go together. -/
structure Orderly (s : PgSystem Ptr γ ι) : Prop where
  owns : ∀ i, (s.pc i).Owns i s.slots
  handed : ∀ g, (s.slots g).handed = true → ∃ i, (s.pc i).Releases g
  paired : Paired s.slots

namespace Orderly

variable {s s' : PgSystem Ptr γ ι}

/-- The storage of a guard whose `release` is running. -/
theorem slot_of_releases (h : s.Orderly) {i : ι} {g : γ} (hi : (s.pc i).Releases g) :
    ∃ guard, s.slots g = ⟨some guard, some i, true⟩ := by
  have howns := h.owns i
  match hpc : s.pc i with
  | .releasing (.destroys g') phase =>
    rw [hpc] at hi howns
    obtain rfl : g' = g := hi
    exact howns
  | .releasing (.assigns dst src) phase =>
    rw [hpc] at hi howns
    obtain rfl : dst = g := hi
    exact howns.2.1
  | .idle => simp [hpc, PgPc.Releases] at hi
  | .waited op g' => simp [hpc, PgPc.Releases] at hi
  | .popped op g' conn => simp [hpc, PgPc.Releases] at hi

theorem handed_iff (h : s.Orderly) (g : γ) :
    (s.slots g).handed = true ↔ ∃ i, (s.pc i).Releases g := by
  constructor
  · exact h.handed g
  · rintro ⟨i, hi⟩
    obtain ⟨guard, hguard⟩ := h.slot_of_releases hi
    rw [hguard]

/-- Nobody is inside the `release` of a guard at rest. -/
theorem not_handed (h : s.Orderly) {g : γ} (huser : (s.slots g).user = none) :
    (s.slots g).handed = false := by
  by_contra hhanded
  obtain ⟨i, hi⟩ := h.handed g (by simpa using hhanded)
  obtain ⟨guard, hguard⟩ := h.slot_of_releases hi
  rw [hguard] at huser
  cases huser

/-- A step of `i` that changes only storage at rest or its own. -/
theorem of_local [DecidableEq ι] (h : s.Orderly) (i : ι) (pc : PgPc Ptr γ)
    (hpc : s'.pc = Function.update s.pc i pc) (hframe : Frames i s.slots s'.slots)
    (howns : pc.Owns i s'.slots)
    (hhanded : ∀ g, (s'.slots g).handed = true →
      pc.Releases g ∨ ((s.slots g).handed = true ∧ ¬(s.pc i).Releases g))
    (hpaired : Paired s'.slots) : s'.Orderly := by
  constructor
  · intro j
    rw [hpc]
    by_cases hij : j = i
    · subst hij
      rw [Function.update_self]
      exact howns
    · rw [Function.update_of_ne hij]
      exact (h.owns j).frame hframe hij
  · intro g hg
    rcases hhanded g hg with hnow | ⟨hold, hother⟩
    · exact ⟨i, by rw [hpc, Function.update_self]; exact hnow⟩
    · obtain ⟨j, hj⟩ := h.handed g hold
      have hij : j ≠ i := by
        rintro rfl
        exact hother hj
      exact ⟨j, by rw [hpc, Function.update_of_ne hij]; exact hj⟩
  · exact hpaired

/-- A step inside `PgConnectionPool::release` touches no guard. -/
theorem advance [DecidableEq ι] (h : s.Orderly) {i : ι} {k : PgThen γ} {phase phase' : PgPhase Ptr}
    (hpc : s.pc i = .releasing k phase) (hslots : s'.slots = s.slots)
    (hpc' : s'.pc = Function.update s.pc i (.releasing k phase')) : s'.Orderly := by
  have howns := h.owns i
  rw [hpc] at howns
  apply h.of_local i _ hpc'
  · rw [hslots]
    exact frames_refl i s.slots
  · rw [hslots]
    exact howns
  · intro g hg
    rw [hslots] at hg
    by_cases htarget : k.target = g
    · exact .inl htarget
    · exact .inr ⟨hg, by simpa [hpc, PgPc.Releases] using htarget⟩
  · rw [hslots]
    exact h.paired

/-- Moving the pointers of a guard at rest into another place. -/
theorem paired_transfer [DecidableEq γ] (h : s.Orderly) {dst src : γ} {o : PgGuard Ptr}
    (ho : (s.slots src).guard = some o) : Paired (s.transfer dst src o).slots := by
  apply paired_update
  · apply paired_update h.paired
    rintro guard ⟨⟩
    rfl
  · rintro guard ⟨⟩
    exact h.paired src o ho

theorem handed_of_transfer [DecidableEq γ] {dst src g : γ} {o : PgGuard Ptr}
    (hg : ((s.transfer dst src o).slots g).handed = true) :
    g ≠ dst ∧ (s.slots g).handed = true := by
  obtain ⟨hdst, hrest⟩ := handed_of_update rfl hg
  exact ⟨hdst, (handed_of_update rfl hrest).2⟩

end Orderly

variable [DecidableEq Ptr] [DecidableEq γ] [DecidableEq ι]

theorem orderly_step {s s' : PgSystem Ptr γ ι} (h : s.Orderly) (hstep : Stepped s s') :
    s'.Orderly := by
  cases hstep with
  | fails i op hwait => exact ⟨h.owns, h.handed, h.paired⟩
  | stays => exact h
  | waits i op g sem hidle huser hguard hwait =>
    apply h.of_local i (.waited op g) rfl
    · exact frames_update (frames_refl i _) (by simp [huser])
    · simp [PgPc.Owns, goTo, setSlot]
    · intro g' hg'
      exact .inr ⟨(handed_of_update rfl hg').2, by simp [hidle, PgPc.Releases]⟩
    · exact paired_update h.paired nofun
  | pops i op g conn rest hpc hpool =>
    have howns := h.owns i
    rw [hpc] at howns
    exact h.of_local i (.popped op g conn) rfl (frames_refl i _) howns
      (fun g' hg' => .inr ⟨hg', by simp [hpc, PgPc.Releases]⟩) h.paired
  | delivers i op g conn hpc =>
    have howns := h.owns i
    rw [hpc] at howns
    simp only [PgPc.Owns] at howns
    apply h.of_local i .idle rfl
    · exact frames_update (frames_refl i _) (by simp [howns])
    · trivial
    · intro g' hg'
      exact .inr ⟨(handed_of_update rfl hg').2, by simp [hpc, PgPc.Releases]⟩
    · apply paired_update h.paired
      rintro guard ⟨⟩
      rfl
  | transfers i dst src o hidle hne hdst hnull hsrc hguard =>
    apply h.of_local i .idle
    · rw [← hidle, Function.update_eq_self]
      rfl
    · exact frames_update (frames_update (frames_refl i _) (by simp [hsrc])) (by simp [hdst])
    · trivial
    · intro g' hg'
      exact .inr ⟨(Orderly.handed_of_transfer hg').2, by simp [hidle, PgPc.Releases]⟩
    · exact h.paired_transfer hguard
  | destroysNull i g guard hidle huser hguard hnull =>
    apply h.of_local i .idle
    · rw [← hidle, Function.update_eq_self]
      rfl
    · exact frames_update (frames_refl i _) (by simp [huser])
    · trivial
    · intro g' hg'
      exact .inr ⟨(handed_of_update rfl hg').2, by simp [hidle, PgPc.Releases]⟩
    · exact paired_update h.paired nofun
  | handsOver i g guard conn hidle huser hguard hconn =>
    apply h.of_local i (.releasing (.destroys g) (.validates conn)) rfl
    · exact frames_update (frames_refl i _) (by simp [PgThen.target, huser])
    · exact ⟨guard, by simp [handOver, goTo, setSlot, PgThen.target]⟩
    · intro g' hg'
      by_cases hgg : g = g'
      · exact .inl hgg
      · simp only [handOver, goTo, setSlot, PgThen.target] at hg'
        rw [Function.update_of_ne (Ne.symm hgg)] at hg'
        exact .inr ⟨hg', by simp [hidle, PgPc.Releases]⟩
    · apply paired_update h.paired
      rintro _ ⟨⟩
      exact h.paired g guard hguard
  | handsOverFor i dst src guard o conn hidle hne huser hguard hsrc ho hconn =>
    apply h.of_local i (.releasing (.assigns dst src) (.validates conn)) rfl
    · exact frames_update (frames_update (frames_refl i _) (by simp [hsrc]))
        (by simp [PgThen.target, huser])
    · refine ⟨hne, ⟨guard, ?_⟩, o, ?_⟩
      · simp [handOver, goTo, setSlot, PgThen.target]
      · simp [handOver, goTo, setSlot, PgThen.target, hne.symm]
    · intro g' hg'
      by_cases hgg : dst = g'
      · exact .inl hgg
      · simp only [handOver, goTo, setSlot, PgThen.target] at hg'
        rw [Function.update_of_ne (Ne.symm hgg)] at hg'
        exact .inr ⟨(handed_of_update rfl hg').2, by simp [hidle, PgPc.Releases]⟩
    · apply paired_update
      · apply paired_update h.paired
        rintro _ ⟨⟩
        exact h.paired src o ho
      · rintro _ ⟨⟩
        exact h.paired dst guard hguard
  | validates i k conn o hpc hfresh => exact h.advance hpc rfl rfl
  | pushes i k conn hpc => exact h.advance hpc rfl rfl
  | signals i k hpc => exact h.advance hpc rfl rfl
  | clears i g hpc =>
    have howns := h.owns i
    rw [hpc] at howns
    obtain ⟨guard, hguard⟩ := howns
    apply h.of_local i .idle rfl
    · exact frames_update (frames_refl i _) (by simp [hguard])
    · trivial
    · intro g' hg'
      obtain ⟨hne, hold⟩ := handed_of_update rfl hg'
      exact .inr ⟨hold, by simpa [hpc, PgPc.Releases, PgThen.target] using hne.symm⟩
    · exact paired_update h.paired nofun
  | assigns i dst src o hpc ho =>
    have howns := h.owns i
    rw [hpc] at howns
    obtain ⟨hne, ⟨guard, hguard⟩, o', ho'⟩ := howns
    apply h.of_local i .idle rfl
    · exact frames_update (frames_update (frames_refl i _) (by simp [ho'])) (by simp [hguard])
    · trivial
    · intro g' hg'
      obtain ⟨hdst, hold⟩ := Orderly.handed_of_transfer hg'
      exact .inr ⟨hold, by simpa [hpc, PgPc.Releases, PgThen.target] using hdst.symm⟩
    · exact h.paired_transfer ho

end PgSystem

end Pdk.Pool
