import Mathlib.Data.List.Basic
import Mathlib.Tactic.Common

/-!
# Tables of descriptors

A descriptor is an index into a table whose slots may be free. A new object is put into the lowest
free slot, as POSIX has it for file descriptors; a released slot is free again. Two tables say the
same if they agree on every descriptor (`Agree`): a table may have free slots at its end.

## Contents

- `Descriptors`: `lookup`, `lowestFree`, `alloc`, `modify`, `release`
- `lookup_alloc`, `lookup_modify`, `lookup_release`: what the operations do to every descriptor
- `Agree.release_alloc`: an object that was put into the table and taken out again leaves no trace
-/

namespace Foundation

/-- The slots from descriptor 0 on. -/
abbrev Descriptors (α : Type*) : Type _ := List (Option α)

namespace Descriptors

variable {α : Type*}

/-- The object behind a descriptor, if the descriptor is open. -/
def lookup (t : Descriptors α) (fd : ℕ) : Option α :=
  t[fd]?.join

def lowestFree : Descriptors α → ℕ
  | [] => 0
  | none :: _ => 0
  | some _ :: t => lowestFree t + 1

/-- Put an object into the lowest free slot. -/
def alloc (a : α) : Descriptors α → Descriptors α
  | [] => [some a]
  | none :: t => some a :: t
  | some b :: t => some b :: alloc a t

/-- An operation on the object behind a descriptor. -/
def modify (t : Descriptors α) (fd : ℕ) (f : α → α) : Descriptors α :=
  List.modify t fd (Option.map f)

def release (t : Descriptors α) (fd : ℕ) : Descriptors α :=
  t.set fd none

/-- The same descriptors are open, with the same objects behind them. -/
def Agree (t t' : Descriptors α) : Prop :=
  ∀ fd, lookup t fd = lookup t' fd

/-! ## What the operations do -/

theorem lookup_lowestFree (t : Descriptors α) : lookup t (lowestFree t) = none := by
  induction t with
  | nil => rfl
  | cons slot t ih =>
    cases slot with
    | none => rfl
    | some b => exact ih

theorem lookup_alloc (t : Descriptors α) (a : α) (fd : ℕ) :
    lookup (alloc a t) fd = if fd = lowestFree t then some a else lookup t fd := by
  induction t generalizing fd with
  | nil => cases fd <;> simp [alloc, lowestFree, lookup]
  | cons slot t ih =>
    cases slot with
    | none => cases fd <;> simp [alloc, lowestFree, lookup]
    | some b =>
      cases fd with
      | zero => simp [alloc, lowestFree, lookup]
      | succ fd => simpa [alloc, lowestFree, lookup] using ih fd

theorem lookup_modify (t : Descriptors α) (fd : ℕ) (f : α → α) (fd' : ℕ) :
    lookup (modify t fd f) fd' = if fd' = fd then (lookup t fd').map f else lookup t fd' := by
  rw [lookup, modify, List.getElem?_modify]
  by_cases h : fd' = fd
  · rw [if_pos h, h, lookup]
    cases t[fd]? <;> simp
  · have hne : fd ≠ fd' := Ne.symm h
    rw [if_neg h, lookup]
    simp [hne]

theorem lookup_release (t : Descriptors α) (fd fd' : ℕ) :
    lookup (release t fd) fd' = if fd' = fd then none else lookup t fd' := by
  rw [lookup, release, List.getElem?_set]
  by_cases h : fd' = fd
  · rw [if_pos h, if_pos h.symm]
    split <;> rfl
  · rw [if_neg h, if_neg (Ne.symm h), lookup]

/-! ## Tables that say the same -/

namespace Agree

variable {t t' t'' : Descriptors α}

theorem refl (t : Descriptors α) : Agree t t :=
  fun _ => rfl

theorem trans (h : Agree t t') (h' : Agree t' t'') : Agree t t'' :=
  fun fd => (h fd).trans (h' fd)

/-- The operations on one descriptor are undone by its release. -/
theorem release_modify (t : Descriptors α) (fd : ℕ) (f : α → α) :
    Agree (release (modify t fd f) fd) (release t fd) := by
  intro fd'
  rw [lookup_release, lookup_release, lookup_modify]
  split <;> rfl

/-- A new object that is released again leaves no trace. -/
theorem release_alloc (t : Descriptors α) (a : α) : Agree (release (alloc a t) (lowestFree t)) t := by
  intro fd
  rw [lookup_release, lookup_alloc]
  by_cases h : fd = lowestFree t
  · rw [if_pos h, h, lookup_lowestFree]
  · rw [if_neg h, if_neg h]

end Agree

end Descriptors

end Foundation
