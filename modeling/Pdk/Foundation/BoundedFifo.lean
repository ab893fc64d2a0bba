import Pdk.Foundation.Transition

/-!
# The bounded FIFO with a closed flag

What a bounded queue is for, as an abstract machine: a list of at most `cap` items and a flag.
The labels carry the answers, so that a trace says which offers were accepted and which values
were handed out. Every trace of the machine hands out the accepted values in order and each once
(`Fifo.run_conserves`); an implementation whose traces are traces of this machine inherits that.
-/

namespace Foundation

/-- The items, first in first, and whether offers are still accepted. -/
@[ext]
structure Fifo (T : Type*) where
  items : List T
  closed : Bool

/-- An operation with its answer. -/
inductive FifoAct (T : Type*) where
  /-- `v` was offered, and accepted or refused. -/
  | offer (v : T) (accepted : Bool)
  /-- An item was asked for; `none` says that there is none. -/
  | poll (r : Option T)
  /-- No further offers are accepted. -/
  | close

namespace Fifo

variable {T : Type*}

open Classical in
/-- The answers that are allowed, and what they do. -/
noncomputable def step (cap : ℕ) (s : Fifo T) : FifoAct T → Option (Fifo T)
  | .offer v true =>
    if s.closed = false ∧ s.items.length < cap then some { s with items := s.items ++ [v] }
    else none
  | .offer _ false => if s.closed = true ∨ cap ≤ s.items.length then some s else none
  | .poll none => if s.items = [] then some s else none
  | .poll (some v) =>
    match s.items with
    | [] => none
    | x :: xs => if x = v then some { s with items := xs } else none
  | .close => some { s with closed := true }

/-- The bounded FIFO, empty and open at the start. -/
noncomputable def machine (T : Type*) (cap : ℕ) : Machine (Fifo T) (FifoAct T) :=
  ⟨⟨[], false⟩, step cap⟩

/-- The values whose offer was accepted, in order. -/
def accepted (trace : List (FifoAct T)) : List T :=
  trace.filterMap fun
    | .offer v true => some v
    | _ => none

/-- The values handed out, in order. -/
def taken (trace : List (FifoAct T)) : List T :=
  trace.filterMap fun
    | .poll r => r
    | _ => none

theorem accepted_append (tr tr' : List (FifoAct T)) :
    accepted (tr ++ tr') = accepted tr ++ accepted tr' :=
  List.filterMap_append

theorem taken_append (tr tr' : List (FifoAct T)) : taken (tr ++ tr') = taken tr ++ taken tr' :=
  List.filterMap_append

/-- **First in, first out**: along every trace the accepted values are the values handed out
    followed by the items still there, and there are never more than `cap` of these. -/
theorem run_conserves {cap : ℕ} {trace : List (FifoAct T)} {s : Fifo T}
    (hrun : (machine T cap).run (machine T cap).init trace = some s) :
    accepted trace = taken trace ++ s.items ∧ s.items.length ≤ cap := by
  refine Machine.run_history (M := machine T cap)
    (P := fun tr s => accepted tr = taken tr ++ s.items ∧ s.items.length ≤ cap) ?_ ?_ hrun
  · exact ⟨rfl, Nat.zero_le cap⟩
  · rintro tr s a s' ⟨horder, hcap⟩ hstep
    rw [accepted_append, taken_append, horder]
    -- one case per kind of answer
    match a with
    | .offer v true =>
      simp only [machine, step] at hstep
      split at hstep
      · rename_i hroom
        cases hstep
        refine ⟨by simp [accepted, taken], ?_⟩
        simp only [List.length_append, List.length_singleton]
        omega
      · cases hstep
    | .offer v false =>
      simp only [machine, step] at hstep
      split at hstep
      · cases hstep
        exact ⟨by simp [accepted, taken], hcap⟩
      · cases hstep
    | .poll none =>
      simp only [machine, step] at hstep
      split at hstep
      · cases hstep
        exact ⟨by simp [accepted, taken], hcap⟩
      · cases hstep
    | .poll (some v) =>
      simp only [machine, step] at hstep
      split at hstep
      · cases hstep
      · rename_i x xs hitems
        split at hstep
        · rename_i heq
          cases hstep
          subst heq
          rw [hitems] at hcap ⊢
          refine ⟨by simp [accepted, taken], ?_⟩
          simp only [List.length_cons] at hcap ⊢
          omega
        · cases hstep
    | .close =>
      cases hstep
      exact ⟨by simp [accepted, taken], hcap⟩

end Fifo

end Foundation
