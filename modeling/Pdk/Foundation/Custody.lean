import Mathlib.Logic.Function.Basic
import Pdk.Foundation.Descriptors

/-!
# Custody of descriptors

Objects that hold descriptors of one table. There is custody if the open descriptors are those that
are held, each by one object: none is lost, and none is closed under somebody else's hands.

## Contents

- `Custody`
- `Custody.congr`, `Custody.gain`, `Custody.drop`: the steps that keep it
- `not_custody_of_overwritten`: an object that takes a descriptor without giving back the one it has
-/

namespace Foundation

variable {α ι : Type*}

/-- The open descriptors are those that are held, each by one object. -/
structure Custody (t : Descriptors α) (hold : ι → Option ℕ) : Prop where
  held : ∀ fd, (t.lookup fd).isSome ↔ ∃ i, hold i = some fd
  single : ∀ i j fd, hold i = some fd → hold j = some fd → i = j

namespace Custody

variable {t t' : Descriptors α} {hold : ι → Option ℕ} {i : ι} {fd : ℕ}

theorem nil : Custody ([] : Descriptors α) (fun _ : ι => none) :=
  ⟨fun _ => ⟨fun h => (by cases h), fun h => h.elim fun _ hi => (by cases hi)⟩,
    fun _ _ _ h => (by cases h)⟩

/-- The objects behind the descriptors do not matter. -/
theorem congr (h : Custody t hold) (hopen : ∀ fd, (t'.lookup fd).isSome = (t.lookup fd).isSome) :
    Custody t' hold := by
  refine ⟨fun fd => ?_, h.single⟩
  rw [hopen fd]
  exact h.held fd

variable [DecidableEq ι]

/-- An object without a descriptor gets one that was free. -/
theorem gain (h : Custody t hold) (hi : hold i = none) (hfree : t.lookup fd = none)
    (hopen : ∀ f, (t'.lookup f).isSome ↔ f = fd ∨ (t.lookup f).isSome) :
    Custody t' (Function.update hold i (some fd)) := by
  have hnew : ∀ j f, Function.update hold i (some fd) j = some f →
      j = i ∧ f = fd ∨ j ≠ i ∧ hold j = some f ∧ f ≠ fd := by
    intro j f hj
    by_cases hji : j = i
    · rw [hji, Function.update_self] at hj
      exact .inl ⟨hji, (Option.some.inj hj).symm⟩
    · rw [Function.update_of_ne hji] at hj
      refine .inr ⟨hji, hj, ?_⟩
      rintro rfl
      have hopen' := (h.held f).mpr ⟨j, hj⟩
      rw [hfree] at hopen'
      cases hopen'
  refine ⟨fun f => ?_, fun j j' f hj hj' => ?_⟩
  · rw [hopen f, h.held f]
    constructor
    · rintro (rfl | ⟨j, hj⟩)
      · exact ⟨i, Function.update_self ..⟩
      · refine ⟨j, ?_⟩
        have hji : j ≠ i := by
          rintro rfl
          rw [hi] at hj
          cases hj
        rw [Function.update_of_ne hji]
        exact hj
    · rintro ⟨j, hj⟩
      rcases hnew j f hj with ⟨-, hf⟩ | ⟨-, hold', -⟩
      · exact .inl hf
      · exact .inr ⟨j, hold'⟩
  · rcases hnew j f hj with ⟨hji, hf⟩ | ⟨-, hold', hne⟩
    · rcases hnew j' f hj' with ⟨hji', -⟩ | ⟨-, -, hne'⟩
      · rw [hji, hji']
      · exact absurd hf hne'
    · rcases hnew j' f hj' with ⟨-, hf'⟩ | ⟨-, hold'', -⟩
      · exact absurd hf' hne
      · exact h.single j j' f hold' hold''

/-- An object gives its descriptor back. -/
theorem drop (h : Custody t hold) (hi : hold i = some fd)
    (hopen : ∀ f, (t'.lookup f).isSome ↔ f ≠ fd ∧ (t.lookup f).isSome) :
    Custody t' (Function.update hold i none) := by
  have hold' : ∀ j f, Function.update hold i none j = some f → j ≠ i ∧ hold j = some f := by
    intro j f hj
    have hji : j ≠ i := by
      rintro rfl
      rw [Function.update_self] at hj
      cases hj
    rw [Function.update_of_ne hji] at hj
    exact ⟨hji, hj⟩
  refine ⟨fun f => ?_, fun j j' f hj hj' => h.single j j' f (hold' j f hj).2 (hold' j' f hj').2⟩
  rw [hopen f, h.held f]
  constructor
  · rintro ⟨hne, j, hj⟩
    have hji : j ≠ i := by
      rintro rfl
      rw [hi] at hj
      exact hne (Option.some.inj hj).symm
    exact ⟨j, by rw [Function.update_of_ne hji]; exact hj⟩
  · rintro ⟨j, hj⟩
    obtain ⟨hji, hf⟩ := hold' j f hj
    refine ⟨?_, j, hf⟩
    rintro rfl
    exact hji (h.single j i f hf hi)

/-- The descriptor that an object held is lost when it takes another one. -/
theorem not_custody_of_overwritten (h : Custody t hold) {fd' : ℕ} (hi : hold i = some fd)
    (hne : fd' ≠ fd) (hopen : (t'.lookup fd).isSome) :
    ¬Custody t' (Function.update hold i (some fd')) := by
  intro h'
  obtain ⟨j, hj⟩ := (h'.held fd).mp hopen
  by_cases hji : j = i
  · rw [hji, Function.update_self] at hj
    exact hne (Option.some.inj hj)
  · rw [Function.update_of_ne hji] at hj
    exact hji (h.single j i fd hj hi)

end Custody

end Foundation
