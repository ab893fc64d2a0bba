import Mathlib.Logic.Function.Basic
import Pdk.Foundation.Bytes

/-!
# Files with names

A disk is its files, by number, and the names of some of them. A file that was opened is known by its
number: it does not matter to whoever has it open that its name is taken away, or given to another
file. An open file has a position; with `append` every write is at the end of the file instead.

## Contents

- `Disk`: `empty`, `create`, `modify`, `rename`, `unlink`
- `OpenFile`: `Disk.openFile`, `Disk.read`, `Disk.write`, `Disk.seek`
- `OpenMode.Keeps`: the modes with which nothing of a file can be lost
- `openFile_keeps`, `write_keeps`: what opening and writing in such a mode do to every file
-/

namespace Foundation

/-- The contents of the files by number, and the names of some of them. -/
structure Disk (ν : Type*) where
  names : ν → Option ℕ
  files : List (List UInt8)
  named : ∀ p n, names p = some n → n < files.length

inductive Access where
  | readOnly | writeOnly | readWrite
  deriving DecidableEq, Repr

structure OpenMode where
  access : Access
  create : Bool
  append : Bool
  truncate : Bool
  deriving DecidableEq, Repr

/-- A file that is open: its number and the place of the next access. -/
structure OpenFile where
  file : ℕ
  pos : ℕ
  access : Access
  append : Bool
  deriving DecidableEq, Repr

/-- Where a seek starts from. -/
inductive Whence where
  | start | current | fileEnd
  deriving DecidableEq, Repr

/-- Nothing of a file that is opened so can be lost. -/
def OpenMode.Keeps (mode : OpenMode) : Prop :=
  mode.truncate = false ∧ (mode.access = .readOnly ∨ mode.append = true)

/-- Nothing can be lost by writing to it. -/
def OpenFile.Keeps (o : OpenFile) : Prop :=
  o.access = .readOnly ∨ o.append = true

/-- The bytes of a file behind a write. A gap before it is filled with zeros. -/
def writeAt (content : List UInt8) (pos : ℕ) (bytes : List UInt8) : List UInt8 :=
  Bytes.overwrite (Bytes.resize content (max content.length (pos + bytes.length))) pos bytes

theorem writeAt_end (content bytes : List UInt8) :
    writeAt content content.length bytes = content ++ bytes := by
  rw [writeAt, Nat.max_eq_right (Nat.le_add_right _ _), Bytes.overwrite_resize_append]

namespace Disk

variable {ν : Type*}

def empty : Disk ν where
  names := fun _ => none
  files := []
  named := by
    intro p n hp
    cases hp

def content (d : Disk ν) (n : ℕ) : List UInt8 := d.files[n]?.getD []

def modify (d : Disk ν) (n : ℕ) (f : List UInt8 → List UInt8) : Disk ν where
  names := d.names
  files := d.files.modify n f
  named := by
    intro p m hp
    rw [List.length_modify]
    exact d.named p m hp

theorem content_modify (d : Disk ν) {n : ℕ} (hn : n < d.files.length) (f : List UInt8 → List UInt8)
    (m : ℕ) : (d.modify n f).content m = if m = n then f (d.content n) else d.content m := by
  rw [content, modify, List.getElem?_modify]
  by_cases hm : m = n
  · subst hm
    simp [content, hn]
  · rw [if_neg hm]
    simp [content, Ne.symm hm]

section Names

variable [DecidableEq ν]

/-- A new, empty file. If the name had one, it is no longer its name. -/
def create (d : Disk ν) (p : ν) : Disk ν where
  names := Function.update d.names p (some d.files.length)
  files := d.files ++ [[]]
  named := by
    intro q m hq
    rw [List.length_append]
    by_cases hqp : q = p
    · rw [hqp, Function.update_self] at hq
      cases hq
      exact Nat.lt_succ_self _
    · rw [Function.update_of_ne hqp] at hq
      exact Nat.lt_add_right 1 (d.named q m hq)

/-- The file `old`, if there is one, is called `new` from now on. -/
def rename (d : Disk ν) (old new : ν) : Disk ν :=
  match hold : d.names old with
  | none => d
  | some n =>
    { names := Function.update (Function.update d.names old none) new (some n)
      files := d.files
      named := by
        intro q m hq
        by_cases hnew : q = new
        · rw [hnew, Function.update_self] at hq
          cases hq
          exact d.named old n hold
        · rw [Function.update_of_ne hnew] at hq
          by_cases hqold : q = old
          · rw [hqold, Function.update_self] at hq
            cases hq
          · rw [Function.update_of_ne hqold] at hq
            exact d.named q m hq }

/-- Take a name away. -/
def unlink (d : Disk ν) (p : ν) : Disk ν where
  names := Function.update d.names p none
  files := d.files
  named := by
    intro q m hq
    by_cases hqp : q = p
    · rw [hqp, Function.update_self] at hq
      cases hq
    · rw [Function.update_of_ne hqp] at hq
      exact d.named q m hq

theorem files_rename (d : Disk ν) (old new : ν) : (d.rename old new).files = d.files := by
  unfold rename
  split <;> rfl

/-! ## Open files -/

/-- Open the file of a name. -/
def openFile (d : Disk ν) (p : ν) (mode : OpenMode) : Option (Disk ν × OpenFile) :=
  match d.names p with
  | none =>
    if mode.create then some (d.create p, ⟨d.files.length, 0, mode.access, mode.append⟩) else none
  | some n =>
    some (if mode.truncate then d.modify n (fun _ => []) else d, ⟨n, 0, mode.access, mode.append⟩)

end Names

/-- The bytes from the position on, at most `n` of them. -/
def read (d : Disk ν) (o : OpenFile) (n : ℕ) : List UInt8 × OpenFile :=
  if o.access = .writeOnly then ([], o)
  else
    let bytes := ((d.content o.file).drop o.pos).take n
    (bytes, { o with pos := o.pos + bytes.length })

/-- The place where a write begins. -/
def place (d : Disk ν) (o : OpenFile) : ℕ :=
  if o.append then (d.content o.file).length else o.pos

/-- The bytes that a write transfers. -/
def accepts (o : OpenFile) (bytes : List UInt8) : List UInt8 :=
  if o.access = .readOnly then [] else bytes

def write (d : Disk ν) (o : OpenFile) (bytes : List UInt8) : Disk ν × OpenFile :=
  if accepts o bytes = [] then (d, o)
  else
    (d.modify o.file (writeAt · (d.place o) bytes), { o with pos := d.place o + bytes.length })

/-- The place that a seek starts from. -/
def base (d : Disk ν) (o : OpenFile) : Whence → ℕ
  | .start => 0
  | .current => o.pos
  | .fileEnd => (d.content o.file).length

/-- The open file behind a seek, unless it would lead before the start. -/
def seek (d : Disk ν) (o : OpenFile) (off : ℤ) (whence : Whence) : Option OpenFile :=
  if d.base o whence + off < 0 then none else some { o with pos := (d.base o whence + off).toNat }

/-! ## What becomes of the contents -/

theorem content_create [DecidableEq ν] (d : Disk ν) (p : ν) (n : ℕ) : (d.create p).content n = d.content n := by
  rw [content, create, content, List.getElem?_append]
  by_cases hn : n < d.files.length
  · rw [if_pos hn]
  · rw [if_neg hn, List.getElem?_eq_none (Nat.not_lt.mp hn)]
    cases n - d.files.length <;> simp

/-- A file that is opened is there, and nothing is lost if the mode keeps it. -/
theorem openFile_keeps [DecidableEq ν] {d d' : Disk ν} {p : ν} {mode : OpenMode} {o : OpenFile}
    (hopen : d.openFile p mode = some (d', o)) (hkeeps : mode.Keeps) :
    d'.content = d.content ∧ d.files.length ≤ d'.files.length ∧ o.file < d'.files.length ∧
      o.Keeps := by
  obtain ⟨htruncate, haccess⟩ := hkeeps
  unfold openFile at hopen
  split at hopen
  · split at hopen
    · cases hopen
      have hlength : (d.create p).files.length = d.files.length + 1 := List.length_append
      refine ⟨funext (content_create d p), ?_, ?_, haccess⟩
      · omega
      · show d.files.length < _
        omega
    · cases hopen
  · rename_i n hn
    rw [htruncate] at hopen
    cases hopen
    exact ⟨rfl, Nat.le_refl _, d.named p n hn, haccess⟩

/-- A file is opened at its start. -/
theorem openFile_pos [DecidableEq ν] {d d' : Disk ν} {p : ν} {mode : OpenMode} {o : OpenFile}
    (hopen : d.openFile p mode = some (d', o)) : o.pos = 0 := by
  unfold openFile at hopen
  split at hopen
  · split at hopen
    · cases hopen
      rfl
    · cases hopen
  · cases hopen
    rfl

/-- A write through an open file that keeps its file puts the bytes to its end. -/
theorem write_keeps (d : Disk ν) {o : OpenFile} (hfile : o.file < d.files.length) (hkeeps : o.Keeps)
    (bytes : List UInt8) (n : ℕ) :
    (d.write o bytes).1.content n =
      d.content n ++ if n = o.file then accepts o bytes else [] := by
  unfold write
  split
  · rename_i hnone
    rw [hnone]
    simp
  · rename_i hsome
    have hwrites : o.access ≠ .readOnly := by
      intro hread
      rw [accepts, if_pos hread] at hsome
      exact hsome rfl
    have happend : o.append = true := hkeeps.resolve_left hwrites
    rw [content_modify d hfile, place, if_pos happend, writeAt_end, accepts, if_neg hwrites]
    by_cases hn : n = o.file
    · rw [if_pos hn, if_pos hn, hn]
    · rw [if_neg hn, if_neg hn, List.append_nil]

end Disk

end Foundation
