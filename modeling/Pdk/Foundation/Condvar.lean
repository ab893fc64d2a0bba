import Pdk.Foundation.Tally

/-!
# Condition variables

A condition variable is seen through the control states of the threads: a thread is parked on
it, or it has been awakened and has not yet re-acquired the mutex. `notifyOne` moves some parked
waiter (which one is a choice) to the awakened ones, and does nothing when there is none;
`notifyAll` moves all.

`NoLostWakeup supply` is the counting invariant behind "no lost wakeup": as long as somebody is
parked, every unit of supply has an awakened thread on its way to it. One rule per kind of step
keeps it.
-/

namespace Foundation

variable {ι σ : Type*}

/-- How control states relate to one condition variable. -/
structure Condvar (σ : Type*) where
  /-- Waiting on the variable. -/
  parked : σ → Bool
  /-- Notified, timed out or spuriously awakened, and about to re-acquire the mutex. -/
  awake : σ → Bool
  /-- The state of a waiter after it has been awakened. -/
  wake : σ → σ
  parked_wake : ∀ a, parked a = true → parked (wake a) = false
  awake_wake : ∀ a, parked a = true → awake (wake a) = true
  /-- A waiter is not parked and awake at once. -/
  awake_of_parked : ∀ a, parked a = true → awake a = false

namespace Condvar

/-- `notify_all`. -/
def notifyAll (cv : Condvar σ) (f : ι → σ) : ι → σ :=
  fun i => if cv.parked (f i) then cv.wake (f i) else f i

variable {cv : Condvar σ} {f g : ι → σ} {supply : ℕ}

/-- After `notify_all` nobody is parked. -/
theorem parked_notifyAll (cv : Condvar σ) (f : ι → σ) (i : ι) :
    cv.parked (cv.notifyAll f i) = false := by
  simp only [notifyAll]
  split
  · rename_i hi
    exact cv.parked_wake _ hi
  · rename_i hi
    simpa using hi

/-- `notify_all` respects a predicate that waking respects. -/
theorem pred_notifyAll (cv : Condvar σ) (f : ι → σ) {p : σ → Bool}
    (hp : ∀ a, cv.parked a = true → p (cv.wake a) = p a) (i : ι) :
    p (cv.notifyAll f i) = p (f i) := by
  simp only [notifyAll]
  split
  · rename_i hi
    exact hp _ hi
  · rfl

/-! ## The counting invariant -/

section Counting

variable [Fintype ι]

/-- Nobody sleeps while there is something to wake up for: if a thread is parked, there are at
    least as many awakened threads as units of supply. -/
def NoLostWakeup (cv : Condvar σ) (supply : ℕ) (f : ι → σ) : Prop :=
  0 < tally cv.parked f → supply ≤ tally cv.awake f

/-- Without supply there is nothing to miss. -/
theorem noLostWakeup_zero : cv.NoLostWakeup 0 f := fun _ => Nat.zero_le _

/-- With nobody parked there is nobody to miss it. -/
theorem noLostWakeup_of_none (h : tally cv.parked f = 0) : cv.NoLostWakeup supply f := by
  intro hpos
  rw [h] at hpos
  cases hpos

/-- Supply may shrink. -/
theorem NoLostWakeup.mono {supply' : ℕ} (h : cv.NoLostWakeup supply f) (hle : supply' ≤ supply) :
    cv.NoLostWakeup supply' f :=
  fun hpos => hle.trans (h hpos)

/-- A step that changes neither count keeps the invariant. -/
theorem NoLostWakeup.congr (h : cv.NoLostWakeup supply f)
    (hparked : tally cv.parked g = tally cv.parked f)
    (hawake : tally cv.awake g = tally cv.awake f) : cv.NoLostWakeup supply g := by
  intro hpos
  rw [hawake]
  exact h (hparked ▸ hpos)

end Counting

/-! ## Notifying one waiter -/

section Notify

variable [Fintype ι] [DecidableEq ι]

/-- `notify_one`: `w` is the waiter that is awakened, `none` when nobody is parked. -/
def notifyOne (cv : Condvar σ) (f : ι → σ) (w : Option ι) : Option (ι → σ) :=
  match w with
  | some j => if cv.parked (f j) then some (Function.update f j (cv.wake (f j))) else none
  | none => if tally cv.parked f = 0 then some f else none

/-- A notification either finds nobody, or moves one parked waiter. -/
theorem notifyOne_cases {w : Option ι} (h : cv.notifyOne f w = some g) :
    (tally cv.parked f = 0 ∧ g = f) ∨
      ∃ j, cv.parked (f j) = true ∧ g = Function.update f j (cv.wake (f j)) := by
  cases w with
  | none =>
    simp only [notifyOne] at h
    split at h
    · rename_i hnone
      cases h
      exact .inl ⟨hnone, rfl⟩
    · cases h
  | some j =>
    simp only [notifyOne] at h
    split at h
    · rename_i hj
      cases h
      exact .inr ⟨j, hj, rfl⟩
    · cases h

/-- A notification does not change how many satisfy a predicate that waking respects. -/
theorem tally_notifyOne {p : σ → Bool} {w : Option ι}
    (hp : ∀ a, cv.parked a = true → p (cv.wake a) = p a) (h : cv.notifyOne f w = some g) :
    tally p g = tally p f := by
  rcases notifyOne_cases h with ⟨-, rfl⟩ | ⟨j, hj, rfl⟩
  · rfl
  · exact tally_update_keep (hp _ hj)

/-! ## Rules for the counting invariant -/

/-- A thread that has nothing to do with the variable may move freely. -/
theorem NoLostWakeup.update (h : cv.NoLostWakeup supply f) {i : ι} {a : σ}
    (hparked : cv.parked a = cv.parked (f i)) (hawake : cv.awake a = cv.awake (f i)) :
    cv.NoLostWakeup supply (Function.update f i a) :=
  h.congr (tally_update_keep hparked) (tally_update_keep hawake)

/-- Waking a parked thread moves one unit between the two counts. -/
theorem tally_wake {j : ι} (hj : cv.parked (f j) = true) :
    tally cv.parked (Function.update f j (cv.wake (f j))) + 1 = tally cv.parked f ∧
      tally cv.awake (Function.update f j (cv.wake (f j))) = tally cv.awake f + 1 :=
  ⟨tally_update_leave hj (cv.parked_wake _ hj),
   tally_update_enter (cv.awake_of_parked _ hj) (cv.awake_wake _ hj)⟩

/-- **Wake rule**: a parked thread may wake up at any time. -/
theorem NoLostWakeup.wake (h : cv.NoLostWakeup supply f) {j : ι} (hj : cv.parked (f j) = true) :
    cv.NoLostWakeup supply (Function.update f j (cv.wake (f j))) := by
  intro hpos
  obtain ⟨hparked, hawake⟩ := tally_wake hj
  have hbefore := h (by omega)
  omega

/-- **Produce rule**: a new unit of supply comes with a notification. -/
theorem NoLostWakeup.produce (h : cv.NoLostWakeup supply f) {w : Option ι}
    (hw : cv.notifyOne f w = some g) : cv.NoLostWakeup (supply + 1) g := by
  rcases notifyOne_cases hw with ⟨hnone, rfl⟩ | ⟨j, hj, rfl⟩
  · exact noLostWakeup_of_none hnone
  · intro hpos
    obtain ⟨hparked, hawake⟩ := tally_wake hj
    have hbefore := h (by omega)
    omega

/-- **Consume rule**: a thread that is not parked, awakened or not, takes a unit of supply and
    leaves. -/
theorem NoLostWakeup.consume (h : cv.NoLostWakeup (supply + 1) f) {i : ι} {a : σ}
    (hold : cv.parked (f i) = false) (hparked : cv.parked a = false) :
    cv.NoLostWakeup supply (Function.update f i a) := by
  intro hpos
  rw [tally_update_keep (hparked.trans hold.symm)] at hpos
  have hbefore := h hpos
  -- at most one awakened thread is gone
  have hup := tally_update cv.awake f i a
  have hle := Bool.toNat_le (cv.awake (f i))
  omega

end Notify

end Condvar

end Foundation
