import Mathlib.Data.List.Induction
import Mathlib.Data.Option.Basic
import Mathlib.Tactic.Common

/-!
# Labelled machines and their runs

A machine is an initial state and a partial step function: `step s a = none` says that the
action `a` is not enabled in `s`. A run is a list of actions executed from left to right, so
quantifying over all lists of actions is quantifying over all interleavings.

## Contents

- `Machine.run`: execution of a list of actions
- `Machine.run_invariant`: what holds initially and is kept by every step holds in every run
- `Machine.run_history`: the same for a property that relates the state to the actions so far
- `Machine.run_rank`: actions of a kind can only be taken as often as a rank allows
- `Machine.run_spends_along`: a run has at most as many actions of a kind as a budget allows
- `Machine.Along`: a condition met by every step of a run, and `run_preserves_along`
- `Machine.throughout_iff_along`: a property that holds in every state of a run exactly when every
  step of it meets a condition
- `Machine.throughout_and_along`: the same for a property that shows a broken condition later
- `Machine.trace_refinement`: every trace of a machine is a trace of a more abstract one
-/

namespace Foundation

/-- A partial, labelled, deterministic machine. Nondeterminism is part of the label. -/
structure Machine (σ : Type*) (α : Type*) where
  /-- The state in which every run starts. -/
  init : σ
  /-- One atomic step; `none` when the action is not enabled. -/
  step : σ → α → Option σ

namespace Machine

variable {σ τ α β : Type*}

/-- Execute the actions from left to right; `none` as soon as one is not enabled. -/
def run (M : Machine σ α) (s : σ) (acts : List α) : Option σ :=
  acts.foldlM M.step s

/-! ## Executing lists of actions -/

@[simp]
theorem run_nil (M : Machine σ α) (s : σ) : M.run s [] = some s := rfl

@[simp]
theorem run_cons (M : Machine σ α) (s : σ) (a : α) (acts : List α) :
    M.run s (a :: acts) = (M.step s a).bind (M.run · acts) := rfl

theorem run_append (M : Machine σ α) (s : σ) (as bs : List α) :
    M.run s (as ++ bs) = (M.run s as).bind (M.run · bs) := by
  simp only [run, List.foldlM_append]
  rfl

/-- A run with a first action factors through the state after that action. -/
theorem run_cons_eq_some {M : Machine σ α} {s s' : σ} {a : α} {acts : List α} :
    M.run s (a :: acts) = some s' ↔ ∃ t, M.step s a = some t ∧ M.run t acts = some s' := by
  rw [run_cons, Option.bind_eq_some_iff]

/-- A run factors through the state between any two of its parts. -/
theorem run_append_eq_some {M : Machine σ α} {s s' : σ} {as bs : List α} :
    M.run s (as ++ bs) = some s' ↔ ∃ t, M.run s as = some t ∧ M.run t bs = some s' := by
  rw [run_append, Option.bind_eq_some_iff]

/-- A run with a last action factors through the state before that action. -/
theorem run_concat_eq_some {M : Machine σ α} {s s' : σ} {a : α} {acts : List α} :
    M.run s (acts ++ [a]) = some s' ↔ ∃ t, M.run s acts = some t ∧ M.step t a = some s' := by
  rw [run_append_eq_some]
  simp

/-- A concrete run can be executed and its last state tested. -/
theorem exists_of_run_any (M : Machine σ α) (s : σ) (acts : List α) (p : σ → Bool)
    (h : (M.run s acts).any p = true) : ∃ s', M.run s acts = some s' ∧ p s' = true := by
  cases hrun : M.run s acts with
  | none =>
    rw [hrun] at h
    cases h
  | some s' =>
    rw [hrun] at h
    exact ⟨s', rfl, h⟩

/-! ## Invariants -/

/-- A property kept by every step is kept by every run. -/
theorem run_preserves {M : Machine σ α} {P : σ → Prop}
    (hstep : ∀ s a s', P s → M.step s a = some s' → P s')
    {s s' : σ} {acts : List α} (hs : P s) (hrun : M.run s acts = some s') : P s' := by
  induction acts generalizing s with
  | nil =>
    cases hrun
    exact hs
  | cons a acts ih =>
    obtain ⟨t, ht, hrest⟩ := run_cons_eq_some.mp hrun
    exact ih (hstep s a t hs ht) hrest

/-- **Invariant rule**: a property of the initial state that every step keeps holds in
    every state that a run reaches. -/
theorem run_invariant {M : Machine σ α} {P : σ → Prop} (hinit : P M.init)
    (hstep : ∀ s a s', P s → M.step s a = some s' → P s')
    {s : σ} {acts : List α} (hrun : M.run M.init acts = some s) : P s :=
  run_preserves hstep hinit hrun

/-- **History rule**: an invariant that also speaks about the actions executed so far. -/
theorem run_history {M : Machine σ α} {P : List α → σ → Prop} (hinit : P [] M.init)
    (hstep : ∀ acts s a s', P acts s → M.step s a = some s' → P (acts ++ [a]) s')
    {s : σ} {acts : List α} (hrun : M.run M.init acts = some s) : P acts s := by
  induction acts using List.reverseRecOn generalizing s with
  | nil =>
    cases hrun
    exact hinit
  | append_singleton acts a ih =>
    obtain ⟨t, ht, hlast⟩ := run_concat_eq_some.mp hrun
    exact hstep acts t a s (ih ht) hlast

/-- **Rank rule**: if every action of a kind lowers a rank, as long as it is not zero, and no
    action raises it, then a run lowers it at least by the number of its actions of that kind. -/
theorem run_rank {M : Machine σ α} {P : σ → Prop} (rank : σ → ℕ) (kind : α → Bool)
    (hstep : ∀ s a s', P s → M.step s a = some s' → P s' ∧ rank s' ≤ rank s - (kind a).toNat)
    {s s' : σ} {acts : List α} (hs : P s) (hrun : M.run s acts = some s') :
    rank s' ≤ rank s - acts.countP kind := by
  induction acts generalizing s with
  | nil =>
    cases hrun
    exact Nat.le_refl _
  | cons a acts ih =>
    obtain ⟨t, ht, hrest⟩ := run_cons_eq_some.mp hrun
    obtain ⟨hPt, hle⟩ := hstep s a t hs ht
    have hlater := ih hPt hrest
    have hcount : (a :: acts).countP kind = acts.countP kind + (kind a).toNat := by
      cases hkind : kind a <;> simp [hkind]
    omega

/-! ## Runs whose steps all meet a condition -/

/-- `M.Along ok s acts`: every step of the run of `acts` from `s` is taken in a state in
    which `ok` allows its action. -/
def Along (M : Machine σ α) (ok : σ → α → Prop) : σ → List α → Prop
  | _, [] => True
  | s, a :: acts => ok s a ∧ ∀ t, M.step s a = some t → M.Along ok t acts

@[simp]
theorem along_nil (M : Machine σ α) (ok : σ → α → Prop) (s : σ) : M.Along ok s [] := trivial

theorem along_cons {M : Machine σ α} {ok : σ → α → Prop} {s : σ} {a : α} {acts : List α} :
    M.Along ok s (a :: acts) ↔ ok s a ∧ ∀ t, M.step s a = some t → M.Along ok t acts := Iff.rfl

/-- A condition that can be tested can be tested along a run. -/
instance decidableAlong (M : Machine σ α) (ok : σ → α → Prop) [∀ s a, Decidable (ok s a)] :
    ∀ (s : σ) (acts : List α), Decidable (M.Along ok s acts)
  | s, [] => isTrue (along_nil M ok s)
  | s, a :: acts =>
    match hstep : M.step s a with
    | none => decidable_of_iff (ok s a)
        ⟨fun h => ⟨h, fun t ht => by rw [hstep] at ht; cases ht⟩, And.left⟩
    | some t =>
      have := decidableAlong M ok t acts
      decidable_of_iff (ok s a ∧ M.Along ok t acts)
        ⟨fun h => ⟨h.1, fun u hu => by rw [hstep] at hu; cases hu; exact h.2⟩,
          fun h => ⟨h.1, h.2 t hstep⟩⟩

/-- Two conditions that hold along a run. -/
theorem along_and {M : Machine σ α} {ok ok' : σ → α → Prop} {s : σ} {acts : List α}
    (h : M.Along ok s acts) (h' : M.Along ok' s acts) :
    M.Along (fun s a => ok s a ∧ ok' s a) s acts := by
  induction acts generalizing s with
  | nil => exact along_nil M _ s
  | cons a acts ih => exact ⟨⟨h.1, h'.1⟩, fun t ht => ih (h.2 t ht) (h'.2 t ht)⟩

/-- A weaker condition holds along the same runs. -/
theorem along_mono {M : Machine σ α} {ok ok' : σ → α → Prop} (hweak : ∀ s a, ok s a → ok' s a)
    {s : σ} {acts : List α} (h : M.Along ok s acts) : M.Along ok' s acts := by
  induction acts generalizing s with
  | nil => exact along_nil M _ s
  | cons a acts ih => exact ⟨hweak s a h.1, fun t ht => ih (h.2 t ht)⟩

/-- Two conditions that agree on the steps of a run hold along it together. -/
theorem along_congr {M : Machine σ α} {ok ok' : σ → α → Prop}
    (hagree : ∀ s a s', M.step s a = some s' → (ok s a ↔ ok' s a)) {s s' : σ} {acts : List α}
    (hrun : M.run s acts = some s') : M.Along ok s acts ↔ M.Along ok' s acts := by
  induction acts generalizing s with
  | nil => exact iff_of_true (along_nil M ok s) (along_nil M ok' s)
  | cons a acts ih =>
    obtain ⟨t, ht, hrest⟩ := run_cons_eq_some.mp hrun
    rw [along_cons, along_cons, hagree s a t ht]
    refine and_congr_right fun _ => forall_congr' fun u => imp_congr_right fun hu => ?_
    rw [ht] at hu
    cases hu
    exact ih hrest

/-- A condition on the actions alone holds along every run of such actions. -/
theorem along_of_forall {M : Machine σ α} {ok : α → Prop} {acts : List α}
    (h : ∀ a ∈ acts, ok a) (s : σ) : M.Along (fun _ a => ok a) s acts := by
  induction acts generalizing s with
  | nil => exact along_nil M _ s
  | cons a acts ih =>
    have hrest : ∀ b ∈ acts, ok b := fun b hb => h b (List.mem_cons_of_mem a hb)
    exact ⟨h a List.mem_cons_self, fun t _ => ih hrest t⟩

theorem along_iff_forall {M : Machine σ α} {ok : α → Prop} {s s' : σ} {acts : List α}
    (hrun : M.run s acts = some s') : M.Along (fun _ a => ok a) s acts ↔ ∀ a ∈ acts, ok a := by
  refine ⟨?_, fun h => along_of_forall h s⟩
  induction acts generalizing s with
  | nil => exact fun _ => nofun
  | cons a acts ih =>
    obtain ⟨t, ht, hrest⟩ := run_cons_eq_some.mp hrun
    intro ⟨hnow, hlater⟩ b hb
    rcases List.mem_cons.mp hb with rfl | hb
    · exact hnow
    · exact ih hrest (hlater t ht) b hb

/-- A property kept by every allowed step is kept by every run of allowed steps. -/
theorem run_preserves_along {M : Machine σ α} {P : σ → Prop} {ok : σ → α → Prop}
    (hstep : ∀ s a s', P s → ok s a → M.step s a = some s' → P s')
    {s s' : σ} {acts : List α} (hs : P s) (hok : M.Along ok s acts)
    (hrun : M.run s acts = some s') : P s' := by
  induction acts generalizing s with
  | nil =>
    cases hrun
    exact hs
  | cons a acts ih =>
    obtain ⟨hnow, hlater⟩ := along_cons.mp hok
    obtain ⟨t, ht, hrest⟩ := run_cons_eq_some.mp hrun
    exact ih (hstep s a t hs hnow ht) (hlater t ht) hrest

/-- **Budget rule**: if every allowed action of a kind costs one unit of a budget and no allowed action
    adds to it, then a run of allowed actions has at most as many of that kind as the budget holds. -/
theorem run_spends_along {M : Machine σ α} {P : σ → Prop} {ok : σ → α → Prop} (budget : σ → ℕ)
    (kind : α → Bool)
    (hstep : ∀ s a s', P s → ok s a → M.step s a = some s' →
      P s' ∧ budget s' + (kind a).toNat ≤ budget s)
    {s s' : σ} {acts : List α} (hs : P s) (hok : M.Along ok s acts)
    (hrun : M.run s acts = some s') : budget s' + acts.countP kind ≤ budget s := by
  induction acts generalizing s with
  | nil =>
    cases hrun
    exact Nat.le_refl _
  | cons a acts ih =>
    obtain ⟨hnow, hlater⟩ := along_cons.mp hok
    obtain ⟨t, ht, hrest⟩ := run_cons_eq_some.mp hrun
    obtain ⟨hPt, hle⟩ := hstep s a t hs hnow ht
    have htail := ih hPt (hlater t ht) hrest
    have hcount : (a :: acts).countP kind = acts.countP kind + (kind a).toNat := by
      cases hkind : kind a <;> simp [hkind]
    omega

/-- The budget rule without a condition on the actions. -/
theorem run_spends {M : Machine σ α} {P : σ → Prop} (budget : σ → ℕ) (kind : α → Bool)
    (hstep : ∀ s a s', P s → M.step s a = some s' → P s' ∧ budget s' + (kind a).toNat ≤ budget s)
    {s s' : σ} {acts : List α} (hs : P s) (hrun : M.run s acts = some s') :
    budget s' + acts.countP kind ≤ budget s :=
  run_spends_along (P := P) budget kind (fun s a s' h (_ : True) hnext => hstep s a s' h hnext) hs
    (along_of_forall (fun _ _ => trivial) s) hrun

/-- `M.Throughout P s acts`: `P` holds in every state of the run of `acts` from `s`. -/
def Throughout (M : Machine σ α) (P : σ → Prop) (s : σ) (acts : List α) : Prop :=
  ∀ before after t, acts = before ++ after → M.run s before = some t → P t

theorem throughout_cons {M : Machine σ α} {P : σ → Prop} {s t : σ} {a : α} {acts : List α}
    (hstep : M.step s a = some t) :
    M.Throughout P s (a :: acts) ↔ P s ∧ M.Throughout P t acts := by
  constructor
  · intro h
    refine ⟨h [] (a :: acts) s rfl rfl, ?_⟩
    intro before after u hsplit hrun
    refine h (a :: before) after u (by rw [hsplit]; rfl) ?_
    rw [run_cons, hstep]
    exact hrun
  · intro ⟨hs, hrest⟩ before after u hsplit hrun
    cases before with
    | nil =>
      cases hrun
      exact hs
    | cons b before =>
      obtain ⟨rfl, hacts⟩ := List.cons.inj hsplit
      rw [run_cons, hstep] at hrun
      exact hrest before after u hacts hrun

/-- A property that an invariant gives holds throughout a run whose steps all meet the condition
    under which they keep the invariant. -/
theorem throughout_of_along {M : Machine σ α} {I P : σ → Prop} {ok : σ → α → Prop}
    (hgood : ∀ s, I s → P s) (hkeep : ∀ s a s', I s → ok s a → M.step s a = some s' → I s')
    {s : σ} {acts : List α} (hs : I s) (hok : M.Along ok s acts) : M.Throughout P s acts := by
  induction acts generalizing s with
  | nil =>
    intro before after t hsplit ht
    obtain ⟨rfl, -⟩ := List.append_eq_nil_iff.mp hsplit.symm
    cases ht
    exact hgood s hs
  | cons a acts ih =>
    intro before after u hsplit hrun
    cases before with
    | nil =>
      cases hrun
      exact hgood s hs
    | cons b before =>
      obtain ⟨rfl, hacts⟩ := List.cons.inj hsplit
      obtain ⟨t, ht, hrest⟩ := run_cons_eq_some.mp hrun
      exact ih (hkeep s a t hs hok.1 ht) (hok.2 t ht) before after u hacts hrest

/-- **Exactness rule**: the steps that meet a condition keep an invariant, and those that do not
    break a property which the invariant gives. Then the property holds throughout a run exactly
    when every step of the run meets the condition. -/
theorem throughout_iff_along {M : Machine σ α} {I P : σ → Prop} {ok : σ → α → Prop}
    (hgood : ∀ s, I s → P s) (hkeep : ∀ s a s', I s → ok s a → M.step s a = some s' → I s')
    (hbreak : ∀ s a s', I s → ¬ok s a → M.step s a = some s' → ¬P s')
    {s s' : σ} {acts : List α} (hs : I s) (hrun : M.run s acts = some s') :
    M.Throughout P s acts ↔ M.Along ok s acts := by
  refine ⟨?_, throughout_of_along hgood hkeep hs⟩
  induction acts generalizing s with
  | nil => exact fun _ => along_nil M ok s
  | cons a acts ih =>
    obtain ⟨t, ht, hrest⟩ := run_cons_eq_some.mp hrun
    rw [throughout_cons ht, along_cons]
    intro ⟨_, hlater⟩
    have hok : ok s a := by
      by_contra hnot
      exact hbreak s a t hs hnot ht (hlater [] acts t rfl rfl)
    have halong := ih (hkeep s a t hs hok ht) hrest hlater
    refine ⟨hok, ?_⟩
    intro u hu
    rw [ht] at hu
    cases hu
    exact halong

/-- A property that a step keeps exactly if the step meets a condition is kept by a run exactly if
    all its steps do. -/
theorem run_iff_along {M : Machine σ α} {I Q : σ → Prop} {ok : σ → α → Prop}
    (hinv : ∀ s a s', I s → M.step s a = some s' → I s')
    (hstep : ∀ s a s', I s → M.step s a = some s' → (Q s' ↔ Q s ∧ ok s a))
    {s s' : σ} {acts : List α} (hs : I s) (hrun : M.run s acts = some s') :
    Q s' ↔ Q s ∧ M.Along ok s acts := by
  induction acts generalizing s with
  | nil =>
    cases hrun
    exact (and_iff_left (along_nil M ok _)).symm
  | cons a acts ih =>
    obtain ⟨t, ht, hrest⟩ := run_cons_eq_some.mp hrun
    rw [ih (hinv s a t hs ht) hrest, hstep s a t hs ht, and_assoc, along_cons]
    refine and_congr_right fun _ => and_congr_right fun _ => ⟨fun h u hu => ?_, fun h => h t ht⟩
    rw [ht] at hu
    cases hu
    exact h

/-- **Delayed exactness**: `P` shows what `Q` promises, at the latest in a last state in which the
    two are the same. -/
theorem throughout_and_along {M : Machine σ α} {I P Q : σ → Prop} {ok : σ → α → Prop}
    (hgood : ∀ s, Q s → P s) (hinv : ∀ s a s', I s → M.step s a = some s' → I s')
    (hstep : ∀ s a s', I s → M.step s a = some s' → (Q s' ↔ Q s ∧ ok s a))
    {s s' : σ} {acts : List α} (hs : I s) (hq : Q s) (hrun : M.run s acts = some s') :
    (M.Along ok s acts → M.Throughout P s acts) ∧
      ((P s' → Q s') → M.Throughout P s acts → M.Along ok s acts) := by
  constructor
  · exact throughout_of_along (I := fun s => I s ∧ Q s) (fun s h => hgood s h.2)
      (fun s a t h hok ht => ⟨hinv s a t h.1 ht, (hstep s a t h.1 ht).mpr ⟨h.2, hok⟩⟩) ⟨hs, hq⟩
  · intro hlast hthroughout
    have hend := hlast (hthroughout acts [] s' (List.append_nil acts).symm hrun)
    exact ((run_iff_along hinv hstep hs hrun).mp hend).2

theorem throughout_iff_of_step_iff {M : Machine σ α} {I Q : σ → Prop} {ok : σ → α → Prop}
    (hinv : ∀ s a s', I s → M.step s a = some s' → I s')
    (hstep : ∀ s a s', I s → M.step s a = some s' → (Q s' ↔ Q s ∧ ok s a))
    {s s' : σ} {acts : List α} (hs : I s) (hq : Q s) (hrun : M.run s acts = some s') :
    M.Throughout Q s acts ↔ M.Along ok s acts := by
  obtain ⟨henough, hneeded⟩ := throughout_and_along (fun _ h => h) hinv hstep hs hq hrun
  exact ⟨hneeded id, henough⟩

/-! ## Refinement -/

/-- **Trace refinement**: if every step of `M` extends the recorded trace by actions that
    `N` can execute between the abstractions of the two states, then the whole trace of a
    run of `M` is a run of `N`. `Inv` is an invariant of `M` that the simulation may use. -/
theorem trace_refinement {M : Machine σ α} {N : Machine τ β} (abs : σ → τ)
    (trace : σ → List β) (Inv : σ → Prop)
    (hinv : Inv M.init) (hpres : ∀ s a s', Inv s → M.step s a = some s' → Inv s')
    (habs : abs M.init = N.init) (htrace : trace M.init = [])
    (hsim : ∀ s a s', Inv s → M.step s a = some s' →
      ∃ bs, trace s' = trace s ++ bs ∧ N.run (abs s) bs = some (abs s'))
    {s : σ} {acts : List α} (hrun : M.run M.init acts = some s) :
    N.run N.init (trace s) = some (abs s) := by
  suffices h : Inv s ∧ N.run N.init (trace s) = some (abs s) from h.2
  refine run_invariant (P := fun s => Inv s ∧ N.run N.init (trace s) = some (abs s)) ?_ ?_ hrun
  · exact ⟨hinv, by rw [htrace, habs, run_nil]⟩
  · rintro s a s' ⟨hs, hN⟩ hstep
    obtain ⟨bs, htr, hbs⟩ := hsim s a s' hs hstep
    refine ⟨hpres s a s' hs hstep, ?_⟩
    rw [htr, run_append_eq_some]
    exact ⟨abs s, hN, hbs⟩

end Machine

end Foundation
