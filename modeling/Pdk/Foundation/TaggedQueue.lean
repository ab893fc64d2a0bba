import Mathlib.Data.List.Basic
import Mathlib.Tactic.Common

/-!
# Queues of tagged messages

One queue that several readers share: a message carries a tag, and a reader takes the first message
with the tag it asks for. Seen through one tag the queue is a FIFO (`ofTag_of_receive`), and a reader
of one tag does not disturb the others (`ofTag_of_receive_ne`).
-/

namespace Foundation

/-- The messages from the oldest on, each with its tag. -/
abbrev TaggedQueue (τ α : Type*) : Type _ := List (τ × α)

namespace TaggedQueue

variable {τ α : Type*} [DecidableEq τ]

/-- Take the first message with the tag `t`. -/
def receive (t : τ) : TaggedQueue τ α → Option (α × TaggedQueue τ α)
  | [] => none
  | (u, a) :: q =>
    if u = t then some (a, q) else (receive t q).map fun r => (r.1, (u, a) :: r.2)

/-- The messages with the tag `t`, in order. -/
def ofTag (t : τ) (q : TaggedQueue τ α) : List α :=
  q.filterMap fun m => if m.1 = t then some m.2 else none

@[simp]
theorem ofTag_nil (t : τ) : ofTag t ([] : TaggedQueue τ α) = [] := rfl

theorem ofTag_append (t : τ) (q q' : TaggedQueue τ α) :
    ofTag t (q ++ q') = ofTag t q ++ ofTag t q' :=
  List.filterMap_append

@[simp]
theorem ofTag_cons_self (t : τ) (a : α) (q : TaggedQueue τ α) :
    ofTag t ((t, a) :: q) = a :: ofTag t q := by
  simp [ofTag]

theorem ofTag_cons_of_ne {t u : τ} (h : u ≠ t) (a : α) (q : TaggedQueue τ α) :
    ofTag t ((u, a) :: q) = ofTag t q := by
  simp [ofTag, h]

/-- A reader takes the first of the messages with its tag. -/
theorem ofTag_of_receive {t : τ} {a : α} {q q' : TaggedQueue τ α}
    (h : receive t q = some (a, q')) : ofTag t q = a :: ofTag t q' := by
  induction q generalizing q' with
  | nil => cases h
  | cons m q ih =>
    obtain ⟨u, b⟩ := m
    rw [receive] at h
    split at h
    · rename_i htag
      cases h
      rw [htag, ofTag_cons_self]
    · rename_i htag
      obtain ⟨r, hr, heq⟩ := Option.map_eq_some_iff.mp h
      cases heq
      rw [ofTag_cons_of_ne htag, ofTag_cons_of_ne htag, ih hr]

/-- The messages with other tags stay where they are. -/
theorem ofTag_of_receive_ne {t u : τ} {a : α} {q q' : TaggedQueue τ α}
    (h : receive t q = some (a, q')) (hne : t ≠ u) : ofTag u q = ofTag u q' := by
  induction q generalizing q' with
  | nil => cases h
  | cons m q ih =>
    obtain ⟨v, b⟩ := m
    rw [receive] at h
    split at h
    · rename_i htag
      cases h
      rw [htag, ofTag_cons_of_ne hne]
    · obtain ⟨r, hr, heq⟩ := Option.map_eq_some_iff.mp h
      cases heq
      by_cases htag : v = u
      · rw [htag, ofTag_cons_self, ofTag_cons_self, ih hr]
      · rw [ofTag_cons_of_ne htag, ofTag_cons_of_ne htag, ih hr]

/-- What a reader takes was in the queue, and so was what it leaves. -/
theorem mem_of_receive {t : τ} {a : α} {q q' : TaggedQueue τ α} (h : receive t q = some (a, q')) :
    (t, a) ∈ q ∧ ∀ m ∈ q', m ∈ q := by
  induction q generalizing q' with
  | nil => cases h
  | cons m q ih =>
    obtain ⟨u, b⟩ := m
    rw [receive] at h
    split at h
    · rename_i htag
      cases h
      rw [htag]
      exact ⟨List.mem_cons_self, fun m hm => List.mem_cons_of_mem _ hm⟩
    · obtain ⟨r, hr, heq⟩ := Option.map_eq_some_iff.mp h
      cases heq
      obtain ⟨hmem, hrest⟩ := ih hr
      refine ⟨List.mem_cons_of_mem _ hmem, fun m hm => ?_⟩
      rcases List.mem_cons.mp hm with rfl | hm
      · exact List.mem_cons_self
      · exact List.mem_cons_of_mem _ (hrest m hm)

/-- A reader waits exactly as long as there is no message with its tag. -/
theorem receive_eq_none_iff {t : τ} {q : TaggedQueue τ α} : receive t q = none ↔ ofTag t q = [] := by
  induction q with
  | nil => exact iff_of_true rfl rfl
  | cons m q ih =>
    obtain ⟨u, b⟩ := m
    rw [receive]
    by_cases htag : u = t
    · rw [if_pos htag, htag, ofTag_cons_self]
      exact iff_of_false (Option.some_ne_none _) (List.cons_ne_nil _ _)
    · rw [if_neg htag, ofTag_cons_of_ne htag, Option.map_eq_none_iff]
      exact ih

end TaggedQueue

end Foundation
