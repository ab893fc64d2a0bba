import Pdk.Foundation.BufferedWriter

/-!
# Buffered writers over a device that takes less

A buffered writer whose device may take fewer items than it is offered. Every write consumes one
outcome of a list; behind its end, the device takes everything. The writer forgets what the device
has not taken. What the device has and what is pending are together all the items exactly when every
write was taken as a whole (`Accepted`, `content_run_iff`).
-/

namespace Foundation

variable {α : Type*}

structure ShortWriter (α : Type*) where
  size : ℕ
  pending : List α
  written : List α
  -- what the device takes of the writes to come, at most
  outcomes : List ℕ

namespace ShortWriter

variable {limit : ℕ}

/-- The number of items of which the device takes `n` pending ones. -/
def takes (limit : ℕ) (outcomes : List ℕ) (n : ℕ) : ℕ :=
  min (outcomes.headD (n % limit)) (n % limit)

/-- The outcomes after `n` pending items were flushed: with nothing pending, the device is not
    asked. -/
def rest (outcomes : List ℕ) (n : ℕ) : List ℕ :=
  if n = 0 then outcomes else outcomes.tail

def flush (limit : ℕ) (b : ShortWriter α) : ShortWriter α :=
  { b with
    pending := []
    written := b.written ++ b.pending.take (takes limit b.outcomes b.pending.length)
    outcomes := rest b.outcomes b.pending.length }

def apply (limit : ℕ) (b : ShortWriter α) : WriterOp α → ShortWriter α
  | .flush => b.flush limit
  | .block xs =>
    if b.pending.length + xs.length ≤ b.size then { b with pending := b.pending ++ xs }
    else
      { b.flush limit with
        size := BufferedWriter.grow b.size xs.length
        pending := xs }

def run (limit : ℕ) (b : ShortWriter α) (ops : List (WriterOp α)) : ShortWriter α :=
  ops.foldl (apply limit) b

/-- The items that are not lost. -/
def content (b : ShortWriter α) : List α :=
  b.written ++ b.pending

/-- With `cur` items pending in a buffer of the given size, every write of the operations is taken as
    a whole. -/
def Accepted (limit : ℕ) : ℕ → ℕ → List ℕ → List (WriterOp α) → Prop
  | _, _, _, [] => True
  | size, cur, outcomes, .flush :: ops =>
    takes limit outcomes cur = cur ∧ Accepted limit size 0 (rest outcomes cur) ops
  | size, cur, outcomes, .block xs :: ops =>
    if cur + xs.length ≤ size then Accepted limit size (cur + xs.length) outcomes ops
    else
      takes limit outcomes cur = cur ∧
        Accepted limit (BufferedWriter.grow size xs.length) xs.length (rest outcomes cur) ops

theorem takes_le (limit : ℕ) (outcomes : List ℕ) (n : ℕ) : takes limit outcomes n ≤ n :=
  Nat.le_trans (Nat.min_le_right _ _) (Nat.mod_le _ _)

@[simp]
theorem run_cons (b : ShortWriter α) (op : WriterOp α) (ops : List (WriterOp α)) :
    b.run limit (op :: ops) = (b.apply limit op).run limit ops :=
  rfl

theorem run_append (b : ShortWriter α) (ops ops' : List (WriterOp α)) :
    b.run limit (ops ++ ops') = (b.run limit ops).run limit ops' :=
  List.foldl_append

/-- What is accepted is accepted so far. -/
theorem Accepted.of_append {size cur : ℕ} {outcomes : List ℕ} {ops ops' : List (WriterOp α)}
    (h : Accepted limit size cur outcomes (ops ++ ops')) : Accepted limit size cur outcomes ops := by
  induction ops generalizing size cur outcomes with
  | nil => trivial
  | cons op ops ih =>
    cases op with
    | flush => exact ⟨h.1, ih h.2⟩
    | block xs =>
      rw [List.cons_append, Accepted] at h
      rw [Accepted]
      by_cases hroom : cur + xs.length ≤ size
      · rw [if_pos hroom] at h ⊢
        exact ih h
      · rw [if_neg hroom] at h ⊢
        exact ⟨h.1, ih h.2⟩

/-! ## Nothing is lost -/

theorem content_flush_of_taken {b : ShortWriter α}
    (h : takes limit b.outcomes b.pending.length = b.pending.length) :
    (b.flush limit).content = b.content := by
  simp [flush, content, h]

/-- Nothing is lost as long as every write is taken as a whole. -/
theorem content_run_of_accepted (b : ShortWriter α) (ops : List (WriterOp α))
    (h : Accepted limit b.size b.pending.length b.outcomes ops) :
    (b.run limit ops).content = b.content ++ BufferedWriter.items ops := by
  induction ops generalizing b with
  | nil => exact (List.append_nil _).symm
  | cons op ops ih =>
    rw [run_cons, BufferedWriter.items_cons]
    cases op with
    | flush =>
      have hrest := ih (b.flush limit) h.2
      rw [content_flush_of_taken h.1] at hrest
      exact hrest
    | block xs =>
      rw [Accepted] at h
      rw [apply]
      by_cases hroom : b.pending.length + xs.length ≤ b.size
      · rw [if_pos hroom] at h ⊢
        rw [ih { b with pending := b.pending ++ xs } (by simpa using h)]
        simp [content, WriterOp.items]
      · rw [if_neg hroom] at h ⊢
        have hflushed := content_flush_of_taken h.1
        rw [ih _ h.2]
        simp only [content, flush, List.append_nil] at hflushed ⊢
        rw [hflushed, WriterOp.items, List.append_assoc]

/-! ## What is lost -/

/-- A flush loses what the device does not take. -/
theorem length_content_flush (limit : ℕ) (b : ShortWriter α) :
    (b.flush limit).content.length + b.pending.length =
      b.content.length + takes limit b.outcomes b.pending.length := by
  have hle := takes_le limit b.outcomes b.pending.length
  simp only [flush, content, List.length_append, List.length_take, List.length_nil]
  omega

/-- What was lost does not come back. -/
theorem length_content_run (limit : ℕ) (b : ShortWriter α) (ops : List (WriterOp α)) :
    (b.run limit ops).content.length ≤ b.content.length + (BufferedWriter.items ops).length ∧
      (¬Accepted limit b.size b.pending.length b.outcomes ops →
        (b.run limit ops).content.length <
          b.content.length + (BufferedWriter.items ops).length) := by
  induction ops generalizing b with
  | nil => exact ⟨Nat.le_refl _, fun hnot => absurd trivial hnot⟩
  | cons op ops ih =>
    have hlen := length_content_flush limit b
    have hle := takes_le limit b.outcomes b.pending.length
    rw [run_cons, BufferedWriter.items_cons, List.length_append]
    cases op with
    | flush =>
      obtain ⟨hall, hlost⟩ := ih (b.flush limit)
      simp only [apply, WriterOp.items, List.length_nil]
      refine ⟨by omega, fun hnot => ?_⟩
      by_cases htaken : takes limit b.outcomes b.pending.length = b.pending.length
      · have hrest := hlost (fun hacc => hnot ⟨htaken, hacc⟩)
        omega
      · omega
    | block xs =>
      rw [Accepted, apply]
      by_cases hroom : b.pending.length + xs.length ≤ b.size
      · rw [if_pos hroom, if_pos hroom]
        obtain ⟨hall, hlost⟩ := ih { b with pending := b.pending ++ xs }
        simp only [content, List.length_append, WriterOp.items] at *
        refine ⟨by omega, fun hnot => ?_⟩
        have hrest := hlost hnot
        omega
      · rw [if_neg hroom, if_neg hroom]
        obtain ⟨hall, hlost⟩ := ih { b.flush limit with
          size := BufferedWriter.grow b.size xs.length
          pending := xs }
        simp only [content, flush, List.length_append, WriterOp.items, List.length_nil] at *
        refine ⟨by omega, fun hnot => ?_⟩
        by_cases htaken : takes limit b.outcomes b.pending.length = b.pending.length
        · have hrest := hlost (fun hacc => hnot ⟨htaken, hacc⟩)
          omega
        · omega

/-- **Exactness over a device that takes less.** -/
theorem content_run_iff (b : ShortWriter α) (ops : List (WriterOp α)) :
    (b.run limit ops).content = b.content ++ BufferedWriter.items ops ↔
      Accepted limit b.size b.pending.length b.outcomes ops := by
  constructor
  · intro heq
    by_contra hnot
    have hlost := (length_content_run limit b ops).2 hnot
    rw [heq, List.length_append] at hlost
    exact Nat.lt_irrefl _ hlost
  · exact content_run_of_accepted b ops

end ShortWriter

end Foundation
