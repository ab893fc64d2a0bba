import Mathlib.Data.List.Nodup
import Mathlib.Logic.Function.Basic
import Mathlib.Tactic.Common

/-!
# Singly linked nodes in a heap

A heap maps the identities of the live nodes to nodes, and every node has a link to another one or to
none. `Segment` says which nodes are passed on the way from one pointer to another.

## Contents

- `Segment`: the nodes between two pointers, `segment_append` and the frame rule `Segment.frame`
- `Segment.attach`: linking a last node behind a segment
- `Segment.next_mem`: links do not lead out of a complete list
-/

namespace Foundation

variable {ι ν : Type*} {next : ν → Option ι} {heap heap' : ι → Option ν}

/-- Following the links from `p` one passes the nodes `ids` and arrives at `q`. -/
def Segment (next : ν → Option ι) (heap : ι → Option ν) : Option ι → List ι → Option ι → Prop
  | p, [], q => p = q
  | p, i :: ids, q => p = some i ∧ ∃ n, heap i = some n ∧ Segment next heap (next n) ids q

theorem segment_append {p q : Option ι} {ids ids' : List ι} :
    Segment next heap p (ids ++ ids') q ↔
      ∃ m, Segment next heap p ids m ∧ Segment next heap m ids' q := by
  induction ids generalizing p with
  | nil => simp [Segment]
  | cons i ids ih =>
    simp only [List.cons_append, Segment, ih]
    constructor
    · rintro ⟨hp, n, hn, m, hfirst, hsecond⟩
      exact ⟨m, ⟨hp, n, hn, hfirst⟩, hsecond⟩
    · rintro ⟨m, ⟨hp, n, hn, hfirst⟩, hsecond⟩
      exact ⟨hp, n, hn, m, hfirst, hsecond⟩

namespace Segment

variable {p q : Option ι} {ids : List ι}

/-- **Frame rule**: a heap in which the passed nodes have the same links has the same segment. -/
theorem frame (h : Segment next heap p ids q)
    (hsame : ∀ i ∈ ids, (heap' i).map next = (heap i).map next) : Segment next heap' p ids q := by
  induction ids generalizing p with
  | nil => exact h
  | cons i ids ih =>
    obtain ⟨hp, n, hn, hrest⟩ := h
    have hlink := hsame i List.mem_cons_self
    rw [hn, Option.map_some, Option.map_eq_some_iff] at hlink
    obtain ⟨n', hn', hnext⟩ := hlink
    refine ⟨hp, n', hn', ?_⟩
    rw [hnext]
    exact ih hrest fun j hj => hsame j (List.mem_cons_of_mem i hj)

theorem live (h : Segment next heap p ids q) {i : ι} (hi : i ∈ ids) : ∃ n, heap i = some n := by
  induction ids generalizing p with
  | nil => cases hi
  | cons j ids ih =>
    obtain ⟨-, n, hn, hrest⟩ := h
    rcases List.mem_cons.mp hi with rfl | hi
    · exact ⟨n, hn⟩
    · exact ih hrest hi

/-- A segment that ends with a node arrives where the node's link leads. -/
theorem concat {t : ι} (h : Segment next heap p (ids ++ [t]) q) :
    Segment next heap p ids (some t) ∧ ∃ n, heap t = some n ∧ next n = q := by
  obtain ⟨m, hids, hm, n, hn, hq⟩ := segment_append.mp h
  subst hm
  exact ⟨hids, n, hn, hq⟩

/-- **A node is linked behind a segment.** Whether it is a new one or was taken from somewhere else
    does not matter, as long as it is not a node of the segment. -/
theorem attach {t i : ι} {n m : ν} (h : Segment next heap p ids (some t))
    (hsame : ∀ j ∈ ids, (heap' j).map next = (heap j).map next) (ht : heap' t = some n)
    (hlink : next n = some i) (hi : heap' i = some m) (hend : next m = none) :
    Segment next heap' p (ids ++ [t] ++ [i]) none := by
  refine segment_append.mpr ⟨some i, segment_append.mpr ⟨some t, h.frame hsame, ?_⟩, ?_⟩
  · exact ⟨rfl, n, ht, hlink⟩
  · exact ⟨rfl, m, hi, hend⟩

/-- The link of a node of a complete list leads to a node of the list or nowhere. -/
theorem next_mem (h : Segment next heap p ids none) {i : ι} {n : ν} (hi : i ∈ ids)
    (hn : heap i = some n) : ∀ j, next n = some j → j ∈ ids := by
  induction ids generalizing p with
  | nil => cases hi
  | cons k ids ih =>
    obtain ⟨-, m, hm, hrest⟩ := h
    intro j hj
    rcases List.mem_cons.mp hi with rfl | hi
    · rw [hm] at hn
      cases hn
      cases ids with
      | nil =>
        rw [hj] at hrest
        cases hrest
      | cons k' ids =>
        obtain ⟨hfirst, -⟩ := hrest
        rw [hj] at hfirst
        cases hfirst
        exact List.mem_cons_of_mem i List.mem_cons_self
    · exact List.mem_cons_of_mem k (ih hrest hi j hj)

/-- A complete list contains the node it starts with. -/
theorem start_mem {i : ι} (h : Segment next heap (some i) ids none) : i ∈ ids := by
  cases ids with
  | nil => cases h
  | cons j ids =>
    cases h.1
    exact List.mem_cons_self

/-- A list that starts nowhere is empty. -/
theorem eq_nil (h : Segment next heap none ids q) : ids = [] := by
  cases ids with
  | nil => rfl
  | cons i ids => cases h.1

end Segment

end Foundation
