import Mathlib.Data.Fintype.Card
import Mathlib.Data.Fintype.Pi
import Mathlib.Algebra.BigOperators.Group.Finset.Basic
import Mathlib.Algebra.BigOperators.Ring.Finset
import Mathlib.Tactic.Common

/-!
# Counting the threads at a program point

The control state of a finite family of threads is a function `f : ι → σ`. `tally p f` counts
the threads whose state satisfies `p`. A step of one thread is `Function.update f i a`, and
`tally_update` says what it does to every count, so that a counting invariant becomes a linear
equation per step.
-/

namespace Foundation

variable {ι σ : Type*} [Fintype ι]

/-- The number of threads whose state satisfies `p`. -/
def tally (p : σ → Bool) (f : ι → σ) : ℕ :=
  (Finset.univ.filter fun i => p (f i) = true).card

/-! ## Emptiness -/

theorem tally_eq_zero_iff {p : σ → Bool} {f : ι → σ} :
    tally p f = 0 ↔ ∀ i, p (f i) = false := by
  simp [tally, Finset.filter_eq_empty_iff]

theorem tally_pos_iff {p : σ → Bool} {f : ι → σ} :
    0 < tally p f ↔ ∃ i, p (f i) = true := by
  simp [tally, Finset.card_pos, Finset.filter_nonempty_iff]

theorem tally_pos {p : σ → Bool} {f : ι → σ} {i : ι} (h : p (f i) = true) : 0 < tally p f :=
  tally_pos_iff.mpr ⟨i, h⟩

@[simp]
theorem tally_const {p : σ → Bool} {a : σ} (h : p a = false) :
    tally p (fun _ : ι => a) = 0 :=
  tally_eq_zero_iff.mpr fun _ => h

/-! ## One thread moves -/

variable [DecidableEq ι]

/-- **Step rule for counts**: moving thread `i` to state `a` trades its old contribution
    for its new one. -/
theorem tally_update (p : σ → Bool) (f : ι → σ) (i : ι) (a : σ) :
    tally p (Function.update f i a) + (p (f i)).toNat = tally p f + (p a).toNat := by
  have hsplit : ∀ g : ι → σ, tally p g =
      (p (g i)).toNat + ∑ j ∈ Finset.univ.erase i, (p (g j)).toNat := by
    intro g
    have hsum : tally p g = ∑ j, (p (g j)).toNat := by
      rw [tally, Finset.card_filter]
      exact Finset.sum_congr rfl fun j _ => by cases p (g j) <;> simp
    rw [hsum, ← Finset.add_sum_erase _ _ (Finset.mem_univ i)]
  have hrest : ∑ j ∈ Finset.univ.erase i, (p (Function.update f i a j)).toNat =
      ∑ j ∈ Finset.univ.erase i, (p (f j)).toNat := by
    refine Finset.sum_congr rfl fun j hj => ?_
    rw [Function.update_of_ne (Finset.ne_of_mem_erase hj)]
  rw [hsplit (Function.update f i a), hsplit f, hrest, Function.update_self]
  omega

/-- A thread that enters the counted states adds one. -/
theorem tally_update_enter {p : σ → Bool} {f : ι → σ} {i : ι} {a : σ}
    (hold : p (f i) = false) (hnew : p a = true) :
    tally p (Function.update f i a) = tally p f + 1 := by
  simpa [hold, hnew] using tally_update p f i a

/-- A thread that leaves the counted states takes one away. -/
theorem tally_update_leave {p : σ → Bool} {f : ι → σ} {i : ι} {a : σ}
    (hold : p (f i) = true) (hnew : p a = false) :
    tally p (Function.update f i a) + 1 = tally p f := by
  simpa [hold, hnew] using tally_update p f i a

/-- A thread that stays inside or outside the counted states changes nothing. -/
theorem tally_update_keep {p : σ → Bool} {f : ι → σ} {i : ι} {a : σ}
    (h : p a = p (f i)) : tally p (Function.update f i a) = tally p f := by
  simpa [h] using tally_update p f i a

end Foundation
