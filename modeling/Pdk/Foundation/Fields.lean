import Mathlib.Data.List.Basic
import Mathlib.Data.List.TakeWhile
import Mathlib.Tactic.Common

/-!
# Delimited texts

A text is a list of fields with one delimiter between neighbours (`List.splitOnP`); a field may be
empty. `strtok_r` sees less than that: it skips the delimiters in front of a token, so that a loop
over it finds the fields that are not empty, without a trace of the others (`tokens_eq`).

## Contents

- `strtok`, `tokens`
- `occupied`: the fields that are not empty; none of them is left in a text of delimiters only
- `tokens_eq`: the loop over `strtok` finds the occupied fields
-/

namespace Foundation

variable {α : Type*} {isDelim : α → Bool}

/-- One call of `strtok_r`: the token, and what is left behind the delimiter that ended it. -/
def strtok (isDelim : α → Bool) (text : List α) : Option (List α × List α) :=
  match text.dropWhile isDelim with
  | [] => none
  | c :: rest =>
    some ((c :: rest).takeWhile fun x => !isDelim x,
      ((c :: rest).dropWhile fun x => !isDelim x).tail)

/-- The loop `while (token)`, with a bound on the number of its iterations. -/
def tokensWithin (isDelim : α → Bool) : ℕ → List α → List (List α)
  | 0, _ => []
  | fuel + 1, text =>
    match strtok isDelim text with
    | none => []
    | some (token, rest) => token :: tokensWithin isDelim fuel rest

/-- What the loop finds: each token takes at least one character. -/
def tokens (isDelim : α → Bool) (text : List α) : List (List α) :=
  tokensWithin isDelim text.length text

/-- The fields that are not empty. -/
def occupied (isDelim : α → Bool) (text : List α) : List (List α) :=
  (text.splitOnP isDelim).filter fun field => !field.isEmpty

/-! ## Occupied fields -/

@[simp]
theorem occupied_nil : occupied isDelim ([] : List α) = [] := by
  simp [occupied]

/-- A delimiter in front opens no field that counts. -/
theorem occupied_cons_delim {c : α} (hc : isDelim c = true) (text : List α) :
    occupied isDelim (c :: text) = occupied isDelim text := by
  simp [occupied, List.splitOnP_cons_eq_if_modifyHead, hc]

/-- A delimiter ends a field and opens the next one. -/
theorem occupied_append_delim (text : List α) {sep : α} (hsep : isDelim sep = true) (rest : List α) :
    occupied isDelim (text ++ sep :: rest) = occupied isDelim text ++ occupied isDelim rest := by
  rw [occupied, List.splitOnP_append_cons _ _ hsep, List.filter_append]
  rfl

theorem occupied_dropWhile (text : List α) :
    occupied isDelim (text.dropWhile isDelim) = occupied isDelim text := by
  induction text with
  | nil => rfl
  | cons c text ih =>
    by_cases hc : isDelim c = true
    · rw [List.dropWhile_cons_of_pos hc, ih, occupied_cons_delim hc]
    · rw [List.dropWhile_cons_of_neg hc]

/-- A text without delimiters is one field. -/
theorem occupied_word {word : List α} (hword : ∀ c ∈ word, isDelim c = false) (hne : word ≠ []) :
    occupied isDelim word = [word] := by
  rw [occupied, List.splitOnP_eq_singleton hword]
  simp [hne]

theorem occupied_word_append {word : List α} (hword : ∀ c ∈ word, isDelim c = false)
    (hne : word ≠ []) {sep : α} (hsep : isDelim sep = true) (rest : List α) :
    occupied isDelim (word ++ sep :: rest) = word :: occupied isDelim rest := by
  rw [occupied_append_delim word hsep, occupied_word hword hne]
  rfl

theorem ne_nil_of_mem_occupied {text field : List α} (h : field ∈ occupied isDelim text) :
    field ≠ [] := by
  have hfield := (List.mem_filter.mp h).2
  simpa using hfield

/-- A field has characters of the text only, and no delimiter. -/
theorem mem_of_mem_splitOnP {text field : List α} (h : field ∈ text.splitOnP isDelim) :
    ∀ c ∈ field, c ∈ text ∧ isDelim c = false := by
  induction text generalizing field with
  | nil =>
    rw [List.splitOnP_nil, List.mem_singleton] at h
    simp [h]
  | cons d text ih =>
    intro c hc
    rw [List.splitOnP_cons_eq_if_modifyHead] at h
    by_cases hd : isDelim d = true
    · rw [if_pos hd] at h
      rcases List.mem_cons.mp h with rfl | htext
      · cases hc
      · exact ⟨List.mem_cons_of_mem _ (ih htext c hc).1, (ih htext c hc).2⟩
    · rw [if_neg hd] at h
      obtain ⟨first, others, hfields⟩ :=
        List.exists_cons_of_ne_nil (List.splitOnP_ne_nil isDelim text)
      rw [hfields] at ih h
      rcases List.mem_cons.mp h with rfl | hothers
      · rcases List.mem_cons.mp hc with rfl | hfirst
        · exact ⟨List.mem_cons_self, Bool.eq_false_iff.mpr hd⟩
        · have hmem := ih List.mem_cons_self c hfirst
          exact ⟨List.mem_cons_of_mem _ hmem.1, hmem.2⟩
      · have hmem := ih (List.mem_cons_of_mem _ hothers) c hc
        exact ⟨List.mem_cons_of_mem _ hmem.1, hmem.2⟩

theorem mem_of_mem_occupied {text field : List α} (h : field ∈ occupied isDelim text) :
    ∀ c ∈ field, c ∈ text ∧ isDelim c = false :=
  mem_of_mem_splitOnP (List.mem_filter.mp h).1

/-- A text without occupied fields is made of delimiters. -/
theorem occupied_eq_nil_iff {text : List α} :
    occupied isDelim text = [] ↔ ∀ c ∈ text, isDelim c = true := by
  induction text with
  | nil => simp
  | cons c text ih =>
    by_cases hc : isDelim c = true
    · rw [occupied_cons_delim hc, ih, List.forall_mem_cons]
      exact ⟨fun h => ⟨hc, h⟩, fun h => h.2⟩
    · have hne : occupied isDelim (c :: text) ≠ [] := by
        obtain ⟨first, others, hfields⟩ :=
          List.exists_cons_of_ne_nil (List.splitOnP_ne_nil isDelim text)
        simp [occupied, List.splitOnP_cons_eq_if_modifyHead, hc, hfields]
      exact ⟨fun h => absurd h hne, fun h => absurd (h c List.mem_cons_self) hc⟩

/-! ## The loop over `strtok` -/

/-- The character at which dropping stopped. -/
theorem eq_false_of_dropWhile_eq_cons {p : α → Bool} {text rest : List α} {c : α}
    (h : text.dropWhile p = c :: rest) : p c = false := by
  have hne : text.dropWhile p ≠ [] := by
    rw [h]
    exact List.cons_ne_nil _ _
  have hhead := List.head_dropWhile_not p hne
  simpa [h] using hhead

/-- `strtok` finds the first occupied field, and the others are those of what is left. -/
theorem strtok_cases (isDelim : α → Bool) (text : List α) :
    (strtok isDelim text = none ∧ occupied isDelim text = []) ∨
      ∃ token rest, strtok isDelim text = some (token, rest) ∧ rest.length < text.length ∧
        occupied isDelim text = token :: occupied isDelim rest := by
  rw [← occupied_dropWhile text]
  have hlen := List.length_dropWhile_le isDelim text
  cases hskip : text.dropWhile isDelim with
  | nil => exact .inl ⟨by rw [strtok, hskip], occupied_nil⟩
  | cons c rest =>
    rw [hskip] at hlen
    have hc := eq_false_of_dropWhile_eq_cons hskip
    refine .inr ⟨_, _, by rw [strtok, hskip], ?_, ?_⟩
    · rw [List.dropWhile_cons_of_pos (by rw [hc]; rfl), List.length_tail]
      have hrest := List.length_dropWhile_le (fun x => !isDelim x) rest
      rw [List.length_cons] at hlen
      omega
    · have hword : ∀ x ∈ (c :: rest).takeWhile fun x => !isDelim x, isDelim x = false := by
        intro x hx
        simpa using List.mem_takeWhile_imp hx
      have hne : ((c :: rest).takeWhile fun x => !isDelim x) ≠ [] := by
        rw [List.takeWhile_cons_of_pos (by rw [hc]; rfl)]
        exact List.cons_ne_nil _ _
      conv_lhs => rw [← List.takeWhile_append_dropWhile (p := fun x => !isDelim x) (l := c :: rest)]
      -- what is behind the token is nothing, or begins with a delimiter
      cases hbehind : (c :: rest).dropWhile fun x => !isDelim x with
      | nil => rw [List.append_nil, occupied_word hword hne, List.tail_nil, occupied_nil]
      | cons sep behind =>
        have hsep : isDelim sep = true := by
          simpa using eq_false_of_dropWhile_eq_cons hbehind
        rw [occupied_word_append hword hne hsep, List.tail_cons]

/-- The tokens of a text are its occupied fields. -/
theorem tokens_eq (isDelim : α → Bool) (text : List α) :
    tokens isDelim text = occupied isDelim text := by
  have hwithin : ∀ (fuel : ℕ) (text : List α), text.length ≤ fuel →
      tokensWithin isDelim fuel text = occupied isDelim text := by
    intro fuel
    induction fuel with
    | zero =>
      intro text hlen
      rw [List.length_eq_zero_iff.mp (Nat.le_zero.mp hlen), occupied_nil]
      rfl
    | succ fuel ih =>
      intro text hlen
      rw [tokensWithin]
      rcases strtok_cases isDelim text with ⟨hnone, hnil⟩ | ⟨token, rest, hsome, hlt, hcons⟩
      · rw [hnone, hnil]
      · rw [hsome, hcons]
        dsimp only
        rw [ih rest (by omega)]
  exact hwithin text.length text (Nat.le_refl _)

end Foundation
