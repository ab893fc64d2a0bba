import Mathlib.Data.List.Basic
import Mathlib.Logic.Function.Basic
import Mathlib.Tactic.Common

/-!
# Directory trees

A node is the list of names from it up to the root. A tree says for every node whether there is a
directory or a file; the root is a directory, and so is the parent of everything that exists. A path
is a list of moves: to stay, to go up or to go down (`.`, `..` and names). It is resolved move by
move through directories that exist.

## Contents

- `DirTree`: `resolve`, `mkdir`
- `resolve_append`, `resolve_isSome_of_prefix`: how paths compose
- `Grows`: what exists stays; a path that is resolved in a tree is resolved in what grows from it
- `kind_mkdir`, `isDir_mkdir`: what a new directory changes
- `Made`: all directories of a path exist, and nothing else is new; `Made.mkdir` makes one more
-/

namespace Foundation

inductive NodeKind where
  | dir
  | file
  deriving DecidableEq, Repr

/-- The directories and files at the nodes. -/
structure DirTree (N : Type*) where
  kind : List N → Option NodeKind
  root_dir : kind [] = some .dir
  parent_dir : ∀ name node, kind (name :: node) ≠ none → kind node = some .dir

/-- One component of a path. -/
inductive Move (N : Type*) where
  | stay
  | up
  | down (name : N)

namespace Move

variable {N : Type*}

/-- Where a move leads from a node; above the root is the root. -/
def target (node : List N) : Move N → List N
  | .stay => node
  | .up => node.tail
  | .down name => name :: node

end Move

namespace DirTree

variable {N : Type*} {t t' t'' : DirTree N} {node : List N}

/-- The directory that a path leads to, if all directories on the way exist. -/
def resolve (t : DirTree N) (node : List N) : List (Move N) → Option (List N)
  | [] => some node
  | m :: ms => if t.kind (m.target node) = some .dir then resolve t (m.target node) ms else none

/-- Make a directory in a node, unless the node is no directory or has something of that name. -/
def mkdir [DecidableEq N] (t : DirTree N) (node : List N) : Move N → DirTree N
  | .stay => t
  | .up => t
  | .down name =>
    if h : t.kind node = some .dir ∧ t.kind (name :: node) = none then
      { kind := Function.update t.kind (name :: node) (some .dir)
        root_dir := by
          rw [Function.update_of_ne (List.cons_ne_nil _ _).symm]
          exact t.root_dir
        parent_dir := by
          intro name' node' hne
          by_cases hnew : node' = name :: node
          · rw [hnew, Function.update_self]
          · rw [Function.update_of_ne hnew]
            by_cases hself : name' :: node' = name :: node
            · rw [(List.cons.inj hself).2]
              exact h.1
            · rw [Function.update_of_ne hself] at hne
              exact t.parent_dir name' node' hne }
    else t

/-! ## Paths -/

theorem resolve_append (t : DirTree N) (node : List N) (as bs : List (Move N)) :
    t.resolve node (as ++ bs) = (t.resolve node as).bind fun node' => t.resolve node' bs := by
  induction as generalizing node with
  | nil => rfl
  | cons m as ih =>
    rw [List.cons_append, resolve, resolve]
    split
    · exact ih _
    · rfl

/-- The directories on the way to a directory exist. -/
theorem resolve_isSome_of_prefix {as bs : List (Move N)} (h : as <+: bs)
    (hres : (t.resolve node bs).isSome) : (t.resolve node as).isSome := by
  obtain ⟨cs, rfl⟩ := h
  rw [resolve_append] at hres
  exact Option.isSome_of_isSome_bind hres

/-- A path from a directory leads to a directory. -/
theorem isDir_of_resolve {ms : List (Move N)} {node' : List N} (hnode : t.kind node = some .dir)
    (h : t.resolve node ms = some node') : t.kind node' = some .dir := by
  induction ms generalizing node with
  | nil =>
    cases h
    exact hnode
  | cons m ms ih =>
    rw [resolve] at h
    split at h
    · next hdir => exact ih hdir h
    · cases h

/-- A move up or no move leads to a directory. -/
theorem kind_target (hnode : t.kind node = some .dir) {m : Move N} (hm : ∀ name, m ≠ .down name) :
    t.kind (m.target node) = some .dir := by
  cases m with
  | stay => exact hnode
  | down name => exact absurd rfl (hm name)
  | up =>
    cases node with
    | nil => exact hnode
    | cons name node =>
      have hne : t.kind (name :: node) ≠ none := by
        rw [hnode]
        exact Option.some_ne_none _
      exact t.parent_dir name node hne

/-! ## Growth -/

/-- What exists in `t` exists in `t'` as well. -/
def Grows (t t' : DirTree N) : Prop :=
  ∀ node, t.kind node ≠ none → t'.kind node = t.kind node

theorem Grows.refl (t : DirTree N) : Grows t t :=
  fun _ _ => rfl

theorem Grows.trans (h : Grows t t') (h' : Grows t' t'') : Grows t t'' := by
  intro node hne
  rw [h' node (by rw [h node hne]; exact hne), h node hne]

theorem Grows.isDir (h : Grows t t') (hdir : t.kind node = some .dir) :
    t'.kind node = some .dir := by
  rw [h node (by rw [hdir]; exact Option.some_ne_none _), hdir]

theorem Grows.resolve (h : Grows t t') {ms : List (Move N)} {node' : List N}
    (hres : t.resolve node ms = some node') : t'.resolve node ms = some node' := by
  induction ms generalizing node with
  | nil => exact hres
  | cons m ms ih =>
    rw [DirTree.resolve] at hres ⊢
    split at hres
    · next hdir =>
      rw [if_pos (h.isDir hdir)]
      exact ih hres
    · cases hres

/-! ## New directories -/

section Mkdir

variable [DecidableEq N]

/-- The only node that can change is the new one. -/
theorem kind_mkdir (t : DirTree N) (node : List N) (m : Move N) (node' : List N) :
    (t.mkdir node m).kind node' = t.kind node' ∨
      node' = m.target node ∧ t.kind node' = none ∧ (t.mkdir node m).kind node' = some .dir := by
  cases m with
  | stay => exact .inl rfl
  | up => exact .inl rfl
  | down name =>
    rw [mkdir]
    split
    · next h =>
      by_cases hnew : node' = name :: node
      · refine .inr ⟨hnew, ?_, ?_⟩
        · rw [hnew]
          exact h.2
        · simp [hnew]
      · exact .inl (Function.update_of_ne hnew _ _)
    · exact .inl rfl

theorem grows_mkdir (t : DirTree N) (node : List N) (m : Move N) : Grows t (t.mkdir node m) := by
  intro node' hne
  rcases kind_mkdir t node m node' with hsame | ⟨-, hnone, -⟩
  · exact hsame
  · exact absurd hnone hne

/-- A new directory exists, unless there is a file of its name. -/
theorem isDir_mkdir (hnode : t.kind node = some .dir) {m : Move N}
    (hfile : t.kind (m.target node) ≠ some .file) :
    (t.mkdir node m).kind (m.target node) = some .dir := by
  cases m with
  | stay => exact hnode
  | up => exact kind_target hnode fun name h => by cases h
  | down name =>
    rw [mkdir]
    split
    · simp [Move.target]
    · next h =>
      cases hkind : t.kind (name :: node) with
      | none => exact absurd ⟨hnode, hkind⟩ h
      | some k =>
        cases k with
        | dir => exact hkind
        | file => exact absurd hkind hfile

end Mkdir

/-! ## Paths that are made -/

/-- `t'` is `t` with the directories of a path: they all exist, and nothing but they is new. -/
structure Made (t : DirTree N) (node : List N) (ms : List (Move N)) (t' : DirTree N) : Prop where
  exists_way : ∀ as, as <+: ms → (t'.resolve node as).isSome
  grows : Grows t t'
  only : ∀ node', t'.kind node' ≠ t.kind node' → ∃ as, as <+: ms ∧ t'.resolve node as = some node'

/-- No file has a name that the path goes down to. -/
def Unobstructed (t : DirTree N) (ms : List (Move N)) : Prop :=
  ∀ name, .down name ∈ ms → ∀ node, t.kind (name :: node) ≠ some .file

namespace Made

variable {ms : List (Move N)}

/-- A path whose directories exist. -/
theorem refl (h : (t.resolve node ms).isSome) : Made t node ms t :=
  ⟨fun _ has => resolve_isSome_of_prefix has h, .refl t, fun _ hne => absurd rfl hne⟩

/-- There are no new files. -/
theorem kind_ne_file (h : Made t node ms t') (hnode : t.kind node = some .dir) {node' : List N}
    (hfile : t.kind node' ≠ some .file) : t'.kind node' ≠ some .file := by
  by_cases hsame : t'.kind node' = t.kind node'
  · rw [hsame]
    exact hfile
  · obtain ⟨as, -, hres⟩ := h.only node' hsame
    rw [isDir_of_resolve (h.grows.isDir hnode) hres]
    simp

/-- One more directory, in the one that the path leads to. -/
theorem mkdir [DecidableEq N] (h : Made t node ms t') (hnode : t.kind node = some .dir) {node' : List N}
    (hres : t'.resolve node ms = some node') {m : Move N} (hfree : Unobstructed t [m]) :
    Made t node (ms ++ [m]) (t'.mkdir node' m) := by
  have hdir := isDir_of_resolve (h.grows.isDir hnode) hres
  have hfile : t'.kind (m.target node') ≠ some .file := by
    cases m with
    | stay => rw [Move.target, hdir]; simp
    | up => rw [kind_target hdir fun name hm => by cases hm]; simp
    | down name => exact h.kind_ne_file hnode (hfree name List.mem_cons_self node')
  have hgrows := grows_mkdir t' node' m
  have hlast : (t'.mkdir node' m).resolve node (ms ++ [m]) = some (m.target node') := by
    rw [resolve_append, hgrows.resolve hres]
    simp [DirTree.resolve, isDir_mkdir hdir hfile]
  refine ⟨fun as has => ?_, h.grows.trans hgrows, fun x hx => ?_⟩
  · exact resolve_isSome_of_prefix has (by rw [hlast]; rfl)
  · rcases kind_mkdir t' node' m x with hsame | ⟨rfl, -, -⟩
    · obtain ⟨as, has, hx'⟩ := h.only x (by rw [← hsame]; exact hx)
      exact ⟨as, has.trans (List.prefix_append _ _), hgrows.resolve hx'⟩
    · exact ⟨ms ++ [m], List.prefix_refl _, hlast⟩

end Made

end DirTree

end Foundation
