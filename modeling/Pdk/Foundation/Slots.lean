import Mathlib.Data.List.Basic
import Mathlib.Tactic.Common

/-!
# A list in numbered slots

The items of a list stand in the slots 0, 1, …, and one slot is left free. Moving the item in front
of the free slot into it moves the free slot one place to the front; when it has arrived at the first
slot, there is room for a new item before all others. This is how files `name.1`, `name.2`, … are
renamed to make room for a new `name.1`.

## Contents

- `gapped`: the slots with one of them free
- `gapped_move`: the effect of one move
- `flatMap_gapped`: what is read from the slots, the last one first
-/

namespace Foundation

variable {α β : Type*}

/-- What is in slot `j` when the items of `l` stand in the slots and slot `gap` is left free. -/
def gapped (l : List α) (gap j : ℕ) : Option α :=
  if j < gap then l[j]? else if j = gap then none else l[j - 1]?

/-- With the free slot behind the items, item `j` is in slot `j`. -/
theorem gapped_of_length_le {l : List α} {gap : ℕ} (h : l.length ≤ gap) (j : ℕ) :
    gapped l gap j = l[j]? := by
  unfold gapped
  split
  · rfl
  · rename_i hj
    rw [List.getElem?_eq_none (by omega : l.length ≤ j)]
    split
    · rfl
    · exact List.getElem?_eq_none (by omega)

theorem gapped_self (l : List α) (gap : ℕ) : gapped l gap gap = none := by
  simp [gapped]

theorem gapped_of_lt (l : List α) {gap j : ℕ} (h : j < gap) : gapped l gap j = l[j]? :=
  if_pos h

theorem mem_of_gapped {l : List α} {gap j : ℕ} {x : α} (h : gapped l gap j = some x) : x ∈ l := by
  unfold gapped at h
  split at h
  · exact List.mem_of_getElem? h
  · split at h
    · cases h
    · exact List.mem_of_getElem? h

/-- A new item in front of all others. -/
theorem gapped_zero_succ (l : List α) (j : ℕ) : gapped l 0 (j + 1) = l[j]? := by
  simp [gapped]

/-- **One move**: the item in front of the free slot goes into it. -/
theorem gapped_move (l : List α) (gap j : ℕ) :
    gapped l gap j =
      if j = gap + 1 then l[gap]? else if j = gap then none else gapped l (gap + 1) j := by
  unfold gapped
  split
  · rw [if_neg (by omega), if_neg (by omega), if_pos (by omega)]
  · split
    · rw [if_neg (by omega)]
    · split
      · rename_i hj
        rw [hj, Nat.add_sub_cancel]
      · rw [if_neg (by omega)]

/-! ## Reading the slots -/

theorem gapped_succ_succ (x : α) (l : List α) (gap j : ℕ) :
    gapped (x :: l) (gap + 1) (j + 1) = gapped l gap j := by
  unfold gapped
  by_cases hlt : j < gap
  · rw [if_pos hlt, if_pos (by omega), List.getElem?_cons_succ]
  · rw [if_neg hlt, if_neg (by omega)]
    by_cases heq : j = gap
    · rw [if_pos heq, if_pos (by omega)]
    · obtain ⟨k, rfl⟩ : ∃ k, j = k + 1 := ⟨j - 1, by omega⟩
      rw [if_neg heq, if_neg (by omega)]
      simp

theorem filterMap_getElem? (l : List α) (n : ℕ) (h : l.length ≤ n) :
    (List.range n).filterMap (fun j => l[j]?) = l := by
  induction l generalizing n with
  | nil => simp
  | cons x l ih =>
    obtain ⟨n, rfl⟩ : ∃ m, n = m + 1 := ⟨n - 1, by simp only [List.length_cons] at h; omega⟩
    rw [List.range_succ_eq_map, List.filterMap_cons_some (b := x) (by simp), List.filterMap_map]
    exact congrArg (x :: ·) (ih n (by simpa using h))

/-- The slots hold the list, if there is room for it and for the free slot. -/
theorem filterMap_gapped (l : List α) (gap n : ℕ) (h : l.length < n ∨ l.length ≤ n ∧ n ≤ gap) :
    (List.range n).filterMap (gapped l gap) = l := by
  induction gap generalizing l n with
  | zero =>
    cases n with
    | zero =>
      have hnil : l.length = 0 := by omega
      rw [List.length_eq_zero_iff.mp hnil]
      rfl
    | succ n =>
      rw [List.range_succ_eq_map, List.filterMap_cons_none (gapped_self l 0), List.filterMap_map]
      calc (List.range n).filterMap (fun j => gapped l 0 (j + 1))
          = (List.range n).filterMap (fun j => l[j]?) := by simp only [gapped_zero_succ]
        _ = l := filterMap_getElem? l n (by omega)
  | succ gap ih =>
    cases l with
    | nil =>
      simp [gapped_of_length_le]
    | cons x l =>
      simp only [List.length_cons] at h
      obtain ⟨n, rfl⟩ : ∃ m, n = m + 1 := ⟨n - 1, by omega⟩
      rw [List.range_succ_eq_map, List.filterMap_cons_some (b := x) (by simp [gapped]),
        List.filterMap_map]
      calc x :: (List.range n).filterMap (fun j => gapped (x :: l) (gap + 1) (j + 1))
          = x :: (List.range n).filterMap (gapped l gap) := by simp only [gapped_succ_succ]
        _ = x :: l := by rw [ih l n (by omega)]

/-- Reading lists from the slots, the last slot first, and nothing from free slots. -/
theorem flatMap_gapped (l : List (List β)) (gap n : ℕ)
    (h : l.length < n ∨ l.length ≤ n ∧ n ≤ gap) :
    (List.range n).reverse.flatMap (fun j => (gapped l gap j).getD []) = l.reverse.flatten := by
  have hread : ∀ (js : List ℕ) (f : ℕ → Option (List β)),
      js.flatMap (fun j => (f j).getD []) = (js.filterMap f).flatten := by
    intro js f
    induction js with
    | nil => rfl
    | cons j js ih =>
      cases hj : f j with
      | none => simp [hj, ih]
      | some x => simp [hj, ih]
  rw [hread, List.filterMap_reverse, filterMap_gapped l gap n h]

end Foundation
