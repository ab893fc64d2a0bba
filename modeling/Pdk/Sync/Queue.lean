import Mathlib.Data.Int.Notation
import Mathlib.Tactic.Common

/-!
# `Queue<T>`

The bounded queue of `include/jthread.hpp` behind every event queue. Its members are used under
`mutex_` only, so that each operation is one critical section; waiting on `cv_get_` belongs to the
caller's program points.
-/

namespace Pdk.Sync

/-- The members of `Queue<T>` that its operations read. `scratch_` is the return value of `get`. -/
structure Queue (T : Type*) where
  q : List T
  max : ℤ
  closed : Bool
  deriving DecidableEq, Repr

namespace Queue

variable {T : Type*}

/-- `Queue(n)`. -/
def new (n : ℤ) : Queue T :=
  ⟨[], n, false⟩

/-- `put(item)`: 0 when the item was accepted, -1 when the queue is full or shut down. -/
def put (s : Queue T) (item : T) : ℤ × Queue T :=
  if s.closed || decide (s.max ≤ (s.q.length : ℤ)) then (-1, s)
  else (0, { s with q := s.q ++ [item] })

/-- The predicate of the wait in `get`, and what follows it: `none` while the caller has to wait,
    `some none` for the null pointer of a queue that was shut down. -/
def get (s : Queue T) : Option (Option T × Queue T) :=
  match s.q with
  | item :: rest => some (some item, { s with q := rest })
  | [] => if s.closed then some (none, s) else none

/-- `try_get(&out)`: the item in `scratch_`, if there is one. -/
def tryGet (s : Queue T) : Option T × Queue T :=
  match s.q with
  | item :: rest => (some item, { s with q := rest })
  | [] => (none, s)

/-- `shutdown()`, behind which all waiters are awake. -/
def shutdown (s : Queue T) : Queue T :=
  { s with closed := true }

/-! ## What the operations do -/

/-- `put` either appends the item, or finds the queue full or shut down. -/
theorem put_cases (s : Queue T) (item : T) :
    (s.put item = (0, { s with q := s.q ++ [item] }) ∧ s.closed = false ∧ (s.q.length : ℤ) < s.max) ∨
      (s.put item = (-1, s) ∧ (s.closed = true ∨ s.max ≤ (s.q.length : ℤ))) := by
  unfold put
  by_cases hfull : s.closed = true ∨ s.max ≤ (s.q.length : ℤ)
  · right
    rw [if_pos (by simpa using hfull)]
    exact ⟨rfl, hfull⟩
  · left
    rw [if_neg (by simpa using hfull)]
    obtain ⟨hopen, hroom⟩ := not_or.mp hfull
    exact ⟨rfl, by simpa using hopen, Int.not_le.mp hroom⟩

/-- After a `put` on an open queue with room for something, there is something in it. -/
theorem put_ne_nil {s : Queue T} (hmax : 1 ≤ s.max) (hopen : s.closed = false) (item : T) :
    (s.put item).2.q ≠ [] := by
  rcases put_cases s item with ⟨h, -⟩ | ⟨h, hwhy⟩
  · rw [h]
    simp
  · rw [h]
    intro hnil
    simp only at hnil
    rcases hwhy with hclosed | hfull
    · rw [hopen] at hclosed
      cases hclosed
    · rw [hnil, List.length_nil] at hfull
      omega

/-- `get` takes the first item, returns null on a queue that was shut down, or waits. -/
theorem get_cases (s : Queue T) :
    (∃ item rest, s.q = item :: rest ∧ s.get = some (some item, { s with q := rest })) ∨
      (s.q = [] ∧ s.closed = true ∧ s.get = some (none, s)) ∨
      (s.q = [] ∧ s.closed = false ∧ s.get = none) := by
  unfold get
  cases hq : s.q with
  | cons item rest => exact .inl ⟨item, rest, rfl, rfl⟩
  | nil =>
    cases hclosed : s.closed with
    | true => exact .inr (.inl ⟨rfl, rfl, rfl⟩)
    | false => exact .inr (.inr ⟨rfl, rfl, rfl⟩)

end Queue

end Pdk.Sync
