import Mathlib.Data.Nat.ModEq
import Mathlib.Data.List.Basic
import Mathlib.Logic.Function.Basic
import Mathlib.Tactic.Common

/-!
# Circular buffers as lists

A circular buffer of `c` slots is seen through `slot : ℕ → Option T`, which gives the value of
an occupied slot and `none` for a free one. `Ring.Represents slot c start xs` says that the
occupied slots, read from `start` with wrap-around, hold exactly the list `xs`, and that every
other slot is free. Enqueueing at the end and dequeueing at the start keep it.
-/

namespace Foundation.Ring

variable {T : Type*}

/-! ## Indices -/

/-- Two offsets below the capacity that reach the same slot are equal. -/
theorem offset_injective {c start i j : ℕ} (hi : i < c) (hj : j < c)
    (h : (start + i) % c = (start + j) % c) : i = j := by
  have hmod : i ≡ j [MOD c] := Nat.ModEq.add_left_cancel' start h
  exact Nat.ModEq.eq_of_lt_of_lt hmod hi hj

/-- Every slot is reached by exactly one offset; this one is it. -/
theorem offset_index {c start k : ℕ} (hstart : start < c) (hk : k < c) :
    (start + (k + c - start) % c) % c = k := by
  have hshift : start + (k + c - start) = k + c := by omega
  rw [Nat.add_mod_mod, hshift, Nat.add_mod_right, Nat.mod_eq_of_lt hk]

/-- The distance from the start to the end is the number of entries. -/
theorem distance_end {c start n : ℕ} (hstart : start < c) (hn : n < c) :
    ((start + n) % c + c - start) % c = n := by
  have hend : (start + n) % c < c := Nat.mod_lt _ (by omega)
  exact offset_injective (Nat.mod_lt _ (by omega)) hn (offset_index hstart hend)

/-- Advancing the index past the last of `n` entries. -/
theorem succ_index (c start n : ℕ) : ((start + n) % c + 1) % c = (start + (n + 1)) % c := by
  rw [Nat.mod_add_mod, Nat.add_assoc]

/-- Advancing the index of the first entry shifts all offsets by one. -/
theorem index_succ (c start i : ℕ) : ((start + 1) % c + i) % c = (start + (i + 1)) % c := by
  rw [Nat.mod_add_mod, Nat.add_assoc, Nat.add_comm 1 i]

/-- With one slot sacrificed, equal indices mean an empty ring. -/
theorem end_eq_start_iff {c start n : ℕ} (hstart : start < c) (hn : n < c) :
    start = (start + n) % c ↔ n = 0 := by
  constructor
  · intro h
    have h0 : (start + n) % c = (start + 0) % c := by
      rw [Nat.add_zero, Nat.mod_eq_of_lt hstart]
      exact h.symm
    exact offset_injective hn (by omega) h0
  · rintro rfl
    rw [Nat.add_zero, Nat.mod_eq_of_lt hstart]

/-- With one slot sacrificed, the end is right behind the start exactly in a full ring. -/
theorem next_end_eq_start_iff {c start n : ℕ} (hstart : start < c) (hn : n < c) :
    ((start + n) % c + 1) % c = start ↔ n + 1 = c := by
  rw [succ_index]
  constructor
  · intro h
    rcases Nat.lt_or_ge (n + 1) c with hlt | hge
    · have hzero := (end_eq_start_iff hstart hlt).mp h.symm
      omega
    · omega
  · rintro rfl
    rw [Nat.add_mod_right, Nat.mod_eq_of_lt hstart]

/-! ## Representation -/

/-- The ring of `c` slots that starts at `start` holds exactly the list `xs`. -/
structure Represents (slot : ℕ → Option T) (c start : ℕ) (xs : List T) : Prop where
  /-- The list fits into the ring. -/
  fits : xs.length ≤ c
  /-- The `i`-th slot from the start holds the `i`-th entry, or is free past the end. -/
  cell : ∀ i, i < c → slot ((start + i) % c) = xs[i]?

/-- The entries found by reading `n` slots from `start`. -/
def contents (slot : ℕ → Option T) (c start n : ℕ) : List T :=
  (List.range n).filterMap fun i => slot ((start + i) % c)

namespace Represents

variable {slot : ℕ → Option T} {c start : ℕ} {xs : List T}

/-- A ring whose slots are all free holds the empty list. -/
theorem nil (h : ∀ k, slot k = none) : Represents slot c start [] :=
  ⟨Nat.zero_le c, fun i _ => by rw [h, List.getElem?_nil]⟩

/-- A slot is occupied exactly when its offset is below the number of entries. -/
theorem occupied_iff (h : Represents slot c start xs) {i : ℕ} (hi : i < c) :
    (slot ((start + i) % c)).isSome = true ↔ i < xs.length := by
  rw [h.cell i hi]
  simp

/-- The first entry is in the first slot. -/
theorem front {x : T} (h : Represents slot c start (x :: xs)) (hstart : start < c) :
    slot start = some x := by
  have h0 := h.cell 0 (by omega)
  rwa [Nat.add_zero, Nat.mod_eq_of_lt hstart] at h0

/-- **Enqueue**: filling the slot behind the last entry appends to the list. -/
theorem enqueue (h : Represents slot c start xs) (hroom : xs.length < c) (v : T) :
    Represents (Function.update slot ((start + xs.length) % c) (some v)) c start
      (xs ++ [v]) := by
  refine ⟨by rw [List.length_append]; exact hroom, fun i hi => ?_⟩
  by_cases hlast : i = xs.length
  · subst hlast
    rw [Function.update_self, List.getElem?_concat_length]
  · have hne : (start + i) % c ≠ (start + xs.length) % c :=
      fun heq => hlast (offset_injective hi hroom heq)
    rw [Function.update_of_ne hne, h.cell i hi]
    rcases Nat.lt_or_ge i xs.length with hlt | hge
    · rw [List.getElem?_append_left hlt]
    · rw [List.getElem?_eq_none hge, List.getElem?_eq_none]
      rw [List.length_append, List.length_singleton]
      omega

/-- **Dequeue**: freeing the first slot and advancing the start removes the first entry. -/
theorem dequeue {x : T} (h : Represents slot c start (x :: xs)) (hstart : start < c) :
    Represents (Function.update slot start none) c ((start + 1) % c) xs := by
  have hlen : xs.length + 1 ≤ c := h.fits
  refine ⟨by omega, fun i hi => ?_⟩
  rw [index_succ]
  by_cases hwrap : i + 1 = c
  · -- the offset that wraps all the way round is the slot just freed
    rw [hwrap, Nat.add_mod_right, Nat.mod_eq_of_lt hstart, Function.update_self,
      List.getElem?_eq_none (by omega)]
  · have hlt : i + 1 < c := by omega
    have hne : (start + (i + 1)) % c ≠ start := by
      intro heq
      have hzero := (end_eq_start_iff hstart hlt).mp heq.symm
      omega
    rw [Function.update_of_ne hne, h.cell (i + 1) hlt, List.getElem?_cons_succ]

/-- Reading the occupied slots in order gives back the list. -/
theorem contents_eq (h : Represents slot c start xs) :
    contents slot c start xs.length = xs := by
  -- the first `n` slots give the first `n` entries
  have hfirst : ∀ n ≤ xs.length, contents slot c start n = xs.take n := by
    intro n hn
    induction n with
    | zero => rfl
    | succ n ih =>
      have hlt : n < xs.length := hn
      have hcell := h.cell n (lt_of_lt_of_le hlt h.fits)
      rw [contents, List.range_succ, List.filterMap_append, ← contents, ih (by omega),
        List.take_add_one]
      simp [hcell, List.getElem?_eq_getElem hlt]
  rw [hfirst _ le_rfl, List.take_length]

end Represents

end Foundation.Ring
