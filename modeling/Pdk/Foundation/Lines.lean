import Mathlib.Data.List.Basic
import Mathlib.Tactic.Common

/-!
# Reading a text with `fgets`

`fgets` with room for `n` characters takes characters up to and including the next newline, but at
most `n` of them. A loop over `fgets` therefore sees a text as a list of chunks (`chunks`), which are
its lines as long as no line is longer than the room.

## Contents

- `fgets`, `chunks`
- `chunks_cons`: the loop, one call at a time
- `chunks_line_append`: a newline ends a chunk, so that the lines of a text are read one by one
- `chunks_short`, `chunks_long`: the chunks of one line
- `chunks_last`: a last line without a newline
- `mem_chunks`: what a chunk can be
-/

namespace Foundation

variable {α : Type*} [DecidableEq α] {newline : α} {n : ℕ}

/-- One call: the characters that were taken, and what is left of the text. -/
def fgets (newline : α) : ℕ → List α → List α × List α
  | 0, text => ([], text)
  | _ + 1, [] => ([], [])
  | n + 1, c :: text =>
    if c = newline then ([c], text)
    else (c :: (fgets newline n text).1, (fgets newline n text).2)

/-- The loop `while (fgets(...))`, with a bound on the number of its iterations. -/
def chunksWithin (newline : α) (n : ℕ) : ℕ → List α → List (List α)
  | 0, _ => []
  | _ + 1, [] => []
  | fuel + 1, c :: text =>
    (fgets newline n (c :: text)).1 :: chunksWithin newline n fuel (fgets newline n (c :: text)).2

/-- What the loop reads: each call takes at least one character. -/
def chunks (newline : α) (n : ℕ) (text : List α) : List (List α) :=
  chunksWithin newline n text.length text

/-! ## The loop -/

theorem length_fgets_lt (newline : α) (hn : 0 < n) (c : α) (text : List α) :
    (fgets newline n (c :: text)).2.length < (c :: text).length := by
  have hle : ∀ (n : ℕ) (text : List α), (fgets newline n text).2.length ≤ text.length := by
    intro n text
    induction n generalizing text with
    | zero => exact Nat.le_refl _
    | succ n ih =>
      cases text with
      | nil => exact Nat.le_refl _
      | cons d text =>
        rw [fgets]
        have htext := ih text
        split
        · exact Nat.le_succ _
        · exact Nat.le_succ_of_le htext
  obtain ⟨m, rfl⟩ : ∃ m, n = m + 1 := ⟨n - 1, by omega⟩
  rw [fgets]
  have htext := hle m text
  split
  · exact Nat.lt_succ_self _
  · exact Nat.lt_succ_of_le htext

/-- More fuel than characters changes nothing. -/
theorem chunksWithin_eq (hn : 0 < n) (fuel : ℕ) (text : List α) (hfuel : text.length ≤ fuel) :
    chunksWithin newline n fuel text = chunks newline n text := by
  induction fuel using Nat.strongRecOn generalizing text with
  | _ fuel ih =>
    cases text with
    | nil => cases fuel <;> rfl
    | cons c text =>
      have hlt := length_fgets_lt newline hn c text
      rw [List.length_cons] at hfuel hlt
      obtain ⟨m, rfl⟩ : ∃ m, fuel = m + 1 := ⟨fuel - 1, by omega⟩
      rw [chunks, List.length_cons, chunksWithin, chunksWithin, ih m (by omega) _ (by omega),
        ih text.length (by omega) _ (by omega)]

@[simp]
theorem chunks_nil : chunks newline n ([] : List α) = [] := rfl

/-- One iteration of the loop. -/
theorem chunks_cons (hn : 0 < n) (c : α) (text : List α) :
    chunks newline n (c :: text) =
      (fgets newline n (c :: text)).1 :: chunks newline n (fgets newline n (c :: text)).2 := by
  have hlt := length_fgets_lt newline hn c text
  rw [List.length_cons] at hlt
  rw [chunks, List.length_cons, chunksWithin, chunksWithin_eq hn _ _ (by omega)]

/-! ## Lines -/

/-- A line that fits is taken with its newline. -/
theorem fgets_short {line : List α} (hline : newline ∉ line) (hlen : line.length < n)
    (text : List α) : fgets newline n (line ++ newline :: text) = (line ++ [newline], text) := by
  induction line generalizing n with
  | nil =>
    obtain ⟨m, rfl⟩ : ∃ m, n = m + 1 := ⟨n - 1, by simp at hlen; omega⟩
    simp [fgets]
  | cons c line ih =>
    rw [List.length_cons] at hlen
    obtain ⟨m, rfl⟩ : ∃ m, n = m + 1 := ⟨n - 1, by omega⟩
    have hc : ¬c = newline := fun h => hline (h ▸ List.mem_cons_self)
    have hrest := ih (n := m) (fun h => hline (List.mem_cons_of_mem c h)) (by omega)
    rw [List.cons_append, fgets, if_neg hc, hrest]
    rfl

/-- Of a line that does not fit, as much is taken as there is room for. -/
theorem fgets_long {line : List α} (hline : newline ∉ line) (hlen : n ≤ line.length)
    (text : List α) : fgets newline n (line ++ text) = (line.take n, line.drop n ++ text) := by
  induction n generalizing line with
  | zero => rfl
  | succ m ih =>
    cases line with
    | nil => cases hlen
    | cons c line =>
      have hc : ¬c = newline := fun h => hline (h ▸ List.mem_cons_self)
      have hrest := ih (fun h => hline (List.mem_cons_of_mem c h)) (Nat.le_of_succ_le_succ hlen)
      rw [List.cons_append, fgets, if_neg hc, hrest]
      rfl

/-- The chunk of a line that fits. -/
theorem chunks_short {line : List α} (hline : newline ∉ line) (hlen : line.length < n)
    (text : List α) :
    chunks newline n (line ++ newline :: text) = (line ++ [newline]) :: chunks newline n text := by
  have hn : 0 < n := by omega
  have hfgets := fgets_short hline hlen text
  cases line with
  | nil =>
    rw [List.nil_append] at hfgets ⊢
    rw [chunks_cons hn, hfgets]
  | cons c line =>
    rw [List.cons_append] at hfgets ⊢
    rw [chunks_cons hn, hfgets]

/-- The first chunk of a line that does not fit. -/
theorem chunks_long (hn : 0 < n) {line : List α} (hline : newline ∉ line) (hlen : n ≤ line.length)
    (text : List α) :
    chunks newline n (line ++ text) = line.take n :: chunks newline n (line.drop n ++ text) := by
  have hfgets := fgets_long hline hlen text
  cases line with
  | nil =>
    rw [List.length_nil] at hlen
    omega
  | cons c line =>
    rw [List.cons_append] at hfgets ⊢
    rw [chunks_cons hn, hfgets]

/-- A last line that fits and has no newline is taken as it is. -/
theorem fgets_last {line : List α} (hline : newline ∉ line) (hlen : line.length ≤ n) :
    fgets newline n line = (line, []) := by
  induction line generalizing n with
  | nil => cases n <;> rfl
  | cons c line ih =>
    rw [List.length_cons] at hlen
    obtain ⟨m, rfl⟩ : ∃ m, n = m + 1 := ⟨n - 1, by omega⟩
    have hc : ¬c = newline := fun h => hline (h ▸ List.mem_cons_self)
    have hrest := ih (n := m) (fun h => hline (List.mem_cons_of_mem c h)) (by omega)
    rw [fgets, if_neg hc, hrest]

/-- The chunk of a last line that fits and has no newline. -/
theorem chunks_last {line : List α} (hline : newline ∉ line) (hne : line ≠ [])
    (hlen : line.length ≤ n) : chunks newline n line = [line] := by
  have hfgets := fgets_last hline hlen
  cases line with
  | nil => exact absurd rfl hne
  | cons c line =>
    have hn : 0 < n := Nat.lt_of_lt_of_le (Nat.succ_pos _) hlen
    rw [chunks_cons hn, hfgets, chunks_nil]

/-- **Lines are read one by one**: no chunk goes over a newline. -/
theorem chunks_line_append (hn : 0 < n) {line : List α} (hline : newline ∉ line) (text : List α) :
    chunks newline n (line ++ newline :: text) =
      chunks newline n (line ++ [newline]) ++ chunks newline n text := by
  obtain ⟨k, hk⟩ : ∃ k, line.length = k := ⟨_, rfl⟩
  induction k using Nat.strongRecOn generalizing line with
  | _ k ih =>
    by_cases hlen : line.length < n
    · rw [chunks_short hline hlen, chunks_short hline hlen, chunks_nil]
      rfl
    · have hdrop : newline ∉ line.drop n := fun h => hline (List.mem_of_mem_drop h)
      have hshorter : (line.drop n).length < k := by
        rw [List.length_drop]
        omega
      rw [chunks_long hn hline (by omega), chunks_long hn hline (by omega),
        ih _ hshorter hdrop rfl]
      rfl

/-- A chunk is a piece of a line, with or without its newline. -/
theorem fgets_fst_cases (newline : α) (n : ℕ) (text : List α) :
    ∃ piece, newline ∉ piece ∧
      (((fgets newline n text).1 = piece ∧ piece.length ≤ n) ∨
        ((fgets newline n text).1 = piece ++ [newline] ∧ piece.length < n)) := by
  induction n generalizing text with
  | zero => exact ⟨[], List.not_mem_nil, .inl ⟨rfl, Nat.le_refl _⟩⟩
  | succ n ih =>
    cases text with
    | nil => exact ⟨[], List.not_mem_nil, .inl ⟨rfl, Nat.zero_le _⟩⟩
    | cons c text =>
      rw [fgets]
      by_cases hc : c = newline
      · rw [if_pos hc]
        exact ⟨[], List.not_mem_nil, .inr ⟨by rw [hc]; rfl, Nat.succ_pos n⟩⟩
      · rw [if_neg hc]
        obtain ⟨piece, hpiece, hcase⟩ := ih text
        refine ⟨c :: piece, ?_, ?_⟩
        · intro hmem
          rcases List.mem_cons.mp hmem with h | h
          · exact hc h.symm
          · exact hpiece h
        · rcases hcase with ⟨heq, hlen⟩ | ⟨heq, hlen⟩
          · exact .inl ⟨by rw [heq], Nat.succ_le_succ hlen⟩
          · exact .inr ⟨by rw [heq]; rfl, Nat.succ_lt_succ hlen⟩

theorem mem_chunks {text chunk : List α} (h : chunk ∈ chunks newline n text) :
    ∃ piece, newline ∉ piece ∧
      ((chunk = piece ∧ piece.length ≤ n) ∨ (chunk = piece ++ [newline] ∧ piece.length < n)) := by
  have hwithin : ∀ (fuel : ℕ) (text : List α), chunk ∈ chunksWithin newline n fuel text →
      ∃ text', chunk = (fgets newline n text').1 := by
    intro fuel
    induction fuel with
    | zero => nofun
    | succ fuel ih =>
      intro text hmem
      cases text with
      | nil => cases hmem
      | cons c text =>
        rw [chunksWithin] at hmem
        rcases List.mem_cons.mp hmem with heq | hlater
        · exact ⟨_, heq⟩
        · exact ih _ hlater
  obtain ⟨text', rfl⟩ := hwithin _ _ h
  exact fgets_fst_cases newline n text'

end Foundation
