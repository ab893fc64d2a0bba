import Mathlib.Data.List.Basic
import Mathlib.Tactic.Common

/-!
# Buffered writers

A buffered writer keeps the items it was given until they no longer fit into its buffer, and then
passes them on in one write; a block that is larger than the whole buffer enlarges it. The length of
a write is a counter that wraps around at `limit`, so that a write of `limit` items or more passes
on the remainder only.

## Contents

- `BufferedWriter.apply`, `BufferedWriter.run`: blocks and explicit flushes
- `BufferedWriter.Fits`: at every flush fewer than `limit` items are pending, as a condition on the
  lengths of the blocks
- `BufferedWriter.written_run_iff`: nothing is lost exactly when `Fits` holds
-/

namespace Foundation

variable {α : Type*}

/-- What a buffered writer is asked to do. -/
inductive WriterOp (α : Type*) where
  | block (xs : List α)
  | flush

/-- The items that an operation passes to the writer. -/
def WriterOp.items : WriterOp α → List α
  | .block xs => xs
  | .flush => []

structure BufferedWriter (α : Type*) where
  -- the capacity of the buffer
  size : ℕ
  pending : List α
  written : List α

namespace BufferedWriter

variable {limit : ℕ}

/-- Pass on what is pending. -/
def flush (limit : ℕ) (b : BufferedWriter α) : BufferedWriter α :=
  { b with
    pending := []
    written := b.written ++ b.pending.take (b.pending.length % limit) }

/-- The capacity after a block of `n` items that did not fit behind the pending ones. -/
def grow (size n : ℕ) : ℕ :=
  if n > size then n * 2 else size

def apply (limit : ℕ) (b : BufferedWriter α) : WriterOp α → BufferedWriter α
  | .flush => b.flush limit
  | .block xs =>
    if b.pending.length + xs.length ≤ b.size then { b with pending := b.pending ++ xs }
    else { b.flush limit with size := grow b.size xs.length, pending := xs }

def run (limit : ℕ) (b : BufferedWriter α) (ops : List (WriterOp α)) : BufferedWriter α :=
  ops.foldl (apply limit) b

/-- With `cur` items pending in a buffer of the given size, fewer than `limit` items are pending
    whenever the operations, and a last flush after them, flush the buffer. -/
def Fits (limit : ℕ) : ℕ → ℕ → List (WriterOp α) → Prop
  | _, cur, [] => cur < limit
  | size, cur, .flush :: ops => cur < limit ∧ Fits limit size 0 ops
  | size, cur, .block xs :: ops =>
    if cur + xs.length ≤ size then Fits limit size (cur + xs.length) ops
    else cur < limit ∧ Fits limit (grow size xs.length) xs.length ops

/-- All items of a list of operations, in order. -/
def items (ops : List (WriterOp α)) : List α :=
  ops.flatMap WriterOp.items

@[simp]
theorem items_nil : items ([] : List (WriterOp α)) = [] := rfl

@[simp]
theorem items_cons (op : WriterOp α) (ops : List (WriterOp α)) :
    items (op :: ops) = op.items ++ items ops := rfl

/-! ## Nothing is lost -/

/-- A write of fewer than `limit` items passes on all of them. -/
theorem flush_written_of_lt {b : BufferedWriter α} (h : b.pending.length < limit) :
    (b.flush limit).written = b.written ++ b.pending := by
  rw [flush, Nat.mod_eq_of_lt h, List.take_length]

/-- As long as every write is short enough, the items come out in order. -/
theorem written_run_of_fits (b : BufferedWriter α) (ops : List (WriterOp α))
    (h : Fits limit b.size b.pending.length ops) :
    ((b.run limit ops).flush limit).written = b.written ++ b.pending ++ items ops := by
  induction ops generalizing b with
  | nil =>
    rw [items_nil, List.append_nil]
    exact flush_written_of_lt h
  | cons op ops ih =>
    cases op with
    | flush =>
      obtain ⟨hcur, hrest⟩ := h
      have hflushed := ih (b.flush limit) hrest
      rw [flush_written_of_lt hcur] at hflushed
      simpa [run, apply, flush, WriterOp.items] using hflushed
    | block xs =>
      rw [Fits] at h
      by_cases hroom : b.pending.length + xs.length ≤ b.size
      · rw [if_pos hroom] at h
        have hrest := ih { b with pending := b.pending ++ xs } (by simpa using h)
        simpa [run, apply, hroom, WriterOp.items] using hrest
      · rw [if_neg hroom] at h
        obtain ⟨hcur, hrest⟩ := h
        have hflushed := ih { b.flush limit with size := grow b.size xs.length, pending := xs } hrest
        rw [flush_written_of_lt hcur] at hflushed
        simpa [run, apply, hroom, WriterOp.items] using hflushed

/-! ## What is lost -/

theorem length_flush_written (limit : ℕ) (b : BufferedWriter α) :
    (b.flush limit).written.length = b.written.length + b.pending.length % limit := by
  have hle := Nat.mod_le b.pending.length limit
  simp [flush, hle]

/-- A writer never passes on more than it was given, and less if one of its writes is too long. -/
theorem length_written_run (hlimit : 0 < limit) (b : BufferedWriter α) (ops : List (WriterOp α)) :
    ((b.run limit ops).flush limit).written.length ≤
        b.written.length + b.pending.length + (items ops).length ∧
      (¬Fits limit b.size b.pending.length ops →
        ((b.run limit ops).flush limit).written.length <
          b.written.length + b.pending.length + (items ops).length) := by
  induction ops generalizing b with
  | nil =>
    have hlen := length_flush_written limit b
    have hle := Nat.mod_le b.pending.length limit
    simp only [run, List.foldl_nil, items_nil, List.length_nil, Fits]
    refine ⟨by omega, fun hlong => ?_⟩
    have hlt := Nat.mod_lt b.pending.length hlimit
    omega
  | cons op ops ih =>
    have hlen := length_flush_written limit b
    have hle := Nat.mod_le b.pending.length limit
    have hlt := Nat.mod_lt b.pending.length hlimit
    cases op with
    | flush =>
      obtain ⟨hall, hlost⟩ := ih (b.flush limit)
      have hpending : (b.flush limit).pending.length = 0 := rfl
      simp only [run, List.foldl_cons, apply, items_cons, WriterOp.items, List.nil_append] at *
      refine ⟨by omega, fun hnot => ?_⟩
      by_cases hcur : b.pending.length < limit
      · have hrest := hlost fun hfits => hnot ⟨hcur, hfits⟩
        omega
      · omega
    | block xs =>
      by_cases hroom : b.pending.length + xs.length ≤ b.size
      · obtain ⟨hall, hlost⟩ := ih { b with pending := b.pending ++ xs }
        simp only [run, List.foldl_cons, apply, hroom, if_true, items_cons, WriterOp.items,
          List.length_append, Fits] at *
        refine ⟨by omega, fun hnot => ?_⟩
        have hrest := hlost hnot
        omega
      · obtain ⟨hall, hlost⟩ := ih { b.flush limit with size := grow b.size xs.length, pending := xs }
        simp only [run, List.foldl_cons, apply, hroom, if_false, items_cons, WriterOp.items,
          List.length_append, Fits] at *
        refine ⟨by omega, fun hnot => ?_⟩
        by_cases hcur : b.pending.length < limit
        · have hrest := hlost fun hfits => hnot ⟨hcur, hfits⟩
          omega
        · omega

/-- **Exactness of a buffered writer**: what it has passed on after a last flush is everything it
    was given exactly when none of its writes is too long. -/
theorem written_run_iff (hlimit : 0 < limit) (b : BufferedWriter α) (ops : List (WriterOp α)) :
    ((b.run limit ops).flush limit).written = b.written ++ b.pending ++ items ops ↔
      Fits limit b.size b.pending.length ops := by
  constructor
  · intro heq
    by_contra hnot
    have hlost := (length_written_run hlimit b ops).2 hnot
    rw [heq] at hlost
    simp only [List.length_append] at hlost
    omega
  · exact written_run_of_fits b ops

/-! ## Small blocks -/

/-- Blocks of less than half the limit never make the buffer so large that a write is too long. -/
theorem fits_of_small (ops : List (WriterOp α)) {size cur : ℕ} (hsize : size < limit)
    (hcur : cur ≤ size) (hsmall : ∀ xs, WriterOp.block xs ∈ ops → xs.length * 2 < limit) :
    Fits limit size cur ops := by
  induction ops generalizing size cur with
  | nil => exact Nat.lt_of_le_of_lt hcur hsize
  | cons op ops ih =>
    have hrest : ∀ xs, WriterOp.block xs ∈ ops → xs.length * 2 < limit :=
      fun xs hxs => hsmall xs (List.mem_cons_of_mem op hxs)
    cases op with
    | flush => exact ⟨Nat.lt_of_le_of_lt hcur hsize, ih hsize (Nat.zero_le _) hrest⟩
    | block xs =>
      have hxs := hsmall xs List.mem_cons_self
      rw [Fits]
      split
      · rename_i hroom
        exact ih hsize hroom hrest
      · refine ⟨Nat.lt_of_le_of_lt hcur hsize, ih ?_ ?_ hrest⟩
        · unfold grow
          split <;> omega
        · unfold grow
          split <;> omega

end BufferedWriter

end Foundation
