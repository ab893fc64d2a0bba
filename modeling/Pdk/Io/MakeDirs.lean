import Mathlib.Data.List.Induction
import Pdk.Config.IniFile
import Pdk.Foundation.DirTree
import Pdk.Foundation.Fields

/-!
# `make_dirs`

Model of `split_path`, `is_dir` and `make_dirs` in `src/util.cpp`, over a directory tree. Paths are
resolved as POSIX does: what is between slashes are the components, so that repeated slashes count as
one and trailing ones do not count.

`make_dirs` cuts a path at its last slash, and takes one trailing slash away before that. Behind two
trailing slashes the cut leaves an empty tail, and an empty tail ends the recursion: the parent of
what is to be made is not looked at (`make_dirs_iff`).
-/

namespace Pdk.Io

open Foundation
open Pdk.Config

def slash : UInt8 := 47

def isSlash (c : UInt8) : Bool := c == slash

theorem isSlash_slash : isSlash slash = true := rfl

def dot : UInt8 := 46

/-! ## Strings -/

/-- `strchr(s, c)`, as an index. -/
def strchr (s : Str) (c : UInt8) : Option ℕ :=
  s.idxOf? c

/-- `strrchr(s, c)`, as an index. -/
def strrchr (s : Str) (c : UInt8) : Option ℕ :=
  match s with
  | [] => none
  | x :: s =>
    match strrchr s c with
    | some i => some (i + 1)
    | none => if x = c then some 0 else none

/-- `split_path(pname, head, tail, spliter, order)`, with the head and the tail. -/
def splitPath (pname : Str) (spliter : UInt8) (order : Bool) : Str × Str :=
  match if order then strchr pname spliter else strrchr pname spliter with
  | none => (pname, [])
  | some i => (pname.take i, pname.drop (i + 1))

theorem strrchr_of_notMem {s : Str} {c : UInt8} (h : c ∉ s) : strrchr s c = none := by
  induction s with
  | nil => rfl
  | cons x s ih =>
    rw [List.mem_cons, not_or] at h
    rw [strrchr, ih h.2]
    exact if_neg (Ne.symm h.1)

theorem strrchr_append {s : Str} {c : UInt8} (h : c ∉ s) (front : Str) :
    strrchr (front ++ c :: s) c = some front.length := by
  induction front with
  | nil =>
    rw [List.nil_append, strrchr, strrchr_of_notMem h]
    exact if_pos rfl
  | cons x front ih =>
    rw [List.cons_append, strrchr, ih]
    rfl

/-- A path without a slash has no tail. -/
theorem splitPath_of_notMem {name : Str} (h : slash ∉ name) :
    splitPath name slash false = (name, []) := by
  rw [splitPath, if_neg (by simp), strrchr_of_notMem h]

theorem splitPath_append {name : Str} (h : slash ∉ name) (front : Str) :
    splitPath (front ++ slash :: name) slash false = (front, name) := by
  rw [splitPath, if_neg (by simp), strrchr_append h]
  simp

/-- Where the last slash is. -/
theorem splitPath_cases (pname : Str) :
    (slash ∉ pname ∧ splitPath pname slash false = (pname, [])) ∨
      ∃ front name, pname = front ++ slash :: name ∧ slash ∉ name ∧
        splitPath pname slash false = (front, name) := by
  by_cases hmem : slash ∈ pname
  · obtain ⟨name, front, hrev, hname⟩ := List.eq_append_cons_of_mem (List.mem_reverse.mpr hmem)
    have hpname : pname = front.reverse ++ slash :: name.reverse := by
      rw [← List.reverse_reverse pname, hrev]
      simp
    have hname' : slash ∉ name.reverse := by simpa using hname
    exact .inr ⟨_, _, hpname, hname', by rw [hpname, splitPath_append hname']⟩
  · exact .inl ⟨hmem, splitPath_of_notMem hmem⟩

theorem length_splitPath_le (pname : Str) :
    (splitPath pname slash false).1.length ≤ pname.length := by
  rcases splitPath_cases pname with ⟨-, hsplit⟩ | ⟨front, name, rfl, -, hsplit⟩
  · rw [hsplit]
  · rw [hsplit]
    simp

theorem length_splitPath_lt {pname : Str} (h : (splitPath pname slash false).2 ≠ []) :
    (splitPath pname slash false).1.length < pname.length := by
  rcases splitPath_cases pname with ⟨-, hsplit⟩ | ⟨front, name, rfl, -, hsplit⟩
  · rw [hsplit] at h
    exact absurd rfl h
  · rw [hsplit]
    simp

/-- The path that `make_dirs` goes on with: one trailing slash is taken away. -/
def withoutSlash (pname : Str) : Str :=
  if (splitPath pname slash false).2 = [] then (splitPath pname slash false).1 else pname

theorem length_withoutSlash_le (pname : Str) : (withoutSlash pname).length ≤ pname.length := by
  rw [withoutSlash]
  split
  · exact length_splitPath_le pname
  · exact Nat.le_refl _

theorem withoutSlash_append_slash (p : Str) : withoutSlash (p ++ [slash]) = p := by
  rw [withoutSlash, splitPath_append List.not_mem_nil]
  exact if_pos rfl

theorem withoutSlash_of_notMem {name : Str} (h : slash ∉ name) : withoutSlash name = name := by
  rw [withoutSlash, splitPath_of_notMem h]
  exact if_pos rfl

theorem withoutSlash_below {name : Str} (h : slash ∉ name) (hne : name ≠ []) (front : Str) :
    withoutSlash (front ++ slash :: name) = front ++ slash :: name := by
  rw [withoutSlash, splitPath_append h]
  exact if_neg hne

/-! ## Directories -/

/-- The components of a path. -/
def components (pname : Str) : List Str :=
  tokens isSlash pname

/-- What a component means. -/
def move (name : Str) : Move Str :=
  if name = [dot] then .stay else if name = [dot, dot] then .up else .down name

def moves (pname : Str) : List (Move Str) :=
  (components pname).map move

/-- A directory tree, with the current directory of the process. -/
structure FileSystem where
  tree : DirTree Str
  cwd : List Str
  cwd_dir : tree.kind cwd = some .dir

namespace FileSystem

/-- Where a path begins: an absolute one at the root. -/
def start (fs : FileSystem) (pname : Str) : List Str :=
  if pname.head? = some slash then [] else fs.cwd

/-- The directory that a path leads to. -/
def locate (fs : FileSystem) (pname : Str) : Option (List Str) :=
  fs.tree.resolve (fs.start pname) (moves pname)

/-- `is_dir(pname)`; there is nothing at the empty path. -/
def isDir (fs : FileSystem) (pname : Str) : Bool :=
  pname ≠ [] && (fs.locate pname).isSome

/-- `mkdir(pname)`, which succeeds where the parent directory exists and nothing of that name. -/
def mkdir (fs : FileSystem) (pname : Str) : FileSystem :=
  match (moves pname).getLast? with
  -- the empty path, or the root
  | none => fs
  | some m =>
    match fs.tree.resolve (fs.start pname) (moves pname).dropLast with
    -- `ENOENT`
    | none => fs
    | some node =>
      { fs with
        tree := fs.tree.mkdir node m
        cwd_dir := (DirTree.grows_mkdir fs.tree node m).isDir fs.cwd_dir }

/-- `make_dirs(pname)`. -/
def makeDirs (fs : FileSystem) (pname : Str) : FileSystem :=
  let name := withoutSlash pname
  -- the head and the tail are still those of the first cut where `name` is `pname`
  let head := (splitPath name slash false).1
  let tail := (splitPath name slash false).2
  if head ≠ [] ∧ tail ≠ [] ∧ fs.isDir head = false then (fs.makeDirs head).mkdir name
  else fs.mkdir name
termination_by pname.length
decreasing_by
  next h => exact Nat.lt_of_lt_of_le (length_splitPath_lt h.2.1) (length_withoutSlash_le pname)

end FileSystem

/-! ## The shape of a path -/

/-- A run of slashes. -/
def slashes (t : ℕ) : Str :=
  List.replicate t slash

/-- A path is a run of slashes, or a component behind nothing or behind a slash, with a run of slashes
    at its end. -/
inductive Shape : Str → Prop where
  | slashes (t : ℕ) : Shape (slashes t)
  | single {name : Str} (hname : slash ∉ name) (hne : name ≠ []) (t : ℕ) :
      Shape (name ++ slashes t)
  | below (front : Str) {name : Str} (hname : slash ∉ name) (hne : name ≠ []) (t : ℕ) :
      Shape (front ++ slash :: name ++ slashes t)

theorem slashes_succ (t : ℕ) : slashes (t + 1) = slashes t ++ [slash] :=
  List.replicate_succ'

theorem shape (p : Str) : Shape p := by
  induction p using List.reverseRecOn with
  | nil => exact .slashes 0
  | append_singleton p c ih =>
    by_cases hc : c = slash
    · -- one more slash at the end
      subst hc
      cases ih with
      | slashes t => exact slashes_succ t ▸ .slashes (t + 1)
      | single hname hne t =>
        rw [List.append_assoc, ← slashes_succ]
        exact .single hname hne (t + 1)
      | below front hname hne t =>
        rw [List.append_assoc _ (slashes t), ← slashes_succ]
        exact .below front hname hne (t + 1)
    · have hsingle : slash ∉ [c] := by simpa using Ne.symm hc
      have hlonger : ∀ {name : Str}, slash ∉ name → slash ∉ name ++ [c] := by
        intro name hname
        simpa [hname] using Ne.symm hc
      have hbehind : ∀ front : Str, Shape (front ++ [slash] ++ [c]) := by
        intro front
        simpa [slashes] using Shape.below front hsingle (by simp) 0
      -- the last component is longer, or a new one begins behind a slash
      cases ih with
      | slashes t =>
        cases t with
        | zero => simpa [slashes] using Shape.single hsingle (by simp) 0
        | succ t =>
          rw [slashes_succ]
          exact hbehind _
      | single hname hne t =>
        cases t with
        | zero => simpa [slashes] using Shape.single (hlonger hname) (by simp) 0
        | succ t =>
          rw [slashes_succ, ← List.append_assoc]
          exact hbehind _
      | below front hname hne t =>
        cases t with
        | zero => simpa [slashes] using Shape.below front (hlonger hname) (by simp) 0
        | succ t =>
          rw [slashes_succ, ← List.append_assoc]
          exact hbehind _

/-! ### Components -/

theorem components_slashes (t : ℕ) : components (slashes t) = [] := by
  rw [components, tokens_eq, occupied_eq_nil_iff]
  intro c hc
  rw [List.eq_of_mem_replicate hc, isSlash_slash]

theorem components_append_slash (p x : Str) :
    components (p ++ slash :: x) = components p ++ components x := by
  simp only [components, tokens_eq]
  exact occupied_append_delim p isSlash_slash x

theorem components_append_slashes (p : Str) (t : ℕ) : components (p ++ slashes t) = components p := by
  cases t with
  | zero => rw [slashes, List.replicate_zero, List.append_nil]
  | succ t =>
    have hrun : slashes (t + 1) = slash :: slashes t := rfl
    rw [hrun, components_append_slash, components_slashes, List.append_nil]

theorem components_single {name : Str} (hname : slash ∉ name) (hne : name ≠ []) :
    components name = [name] := by
  rw [components, tokens_eq]
  refine occupied_word (fun c hc => ?_) hne
  rw [isSlash, beq_eq_false_iff_ne]
  exact fun heq => hname (heq ▸ hc)

theorem moves_append_slash (p x : Str) : moves (p ++ slash :: x) = moves p ++ moves x := by
  rw [moves, components_append_slash, List.map_append]
  rfl

theorem moves_append_slashes (p : Str) (t : ℕ) : moves (p ++ slashes t) = moves p := by
  rw [moves, components_append_slashes, moves]

theorem moves_single {name : Str} (hname : slash ∉ name) (hne : name ≠ []) :
    moves name = [move name] := by
  rw [moves, components_single hname hne]
  rfl

/-! ### Levels -/

/-- The arguments that `make_dirs` can come to from `p`: `p` itself, and what is in front of a slash
    that is the last one before a component. -/
def Level (p u : Str) : Prop :=
  u = p ∨ ∃ c rest, p = u ++ slash :: c :: rest ∧ c ≠ slash

/-- A level is in front. -/
theorem prefix_of_level {p u : Str} (h : Level p u) : u <+: p := by
  rcases h with rfl | ⟨c, rest, rfl, -⟩
  · exact List.prefix_refl _
  · exact List.prefix_append _ _

/-- Behind the first slash of a run at the end are slashes only. -/
theorem eq_slash_of_run {x u rest : Str} {t : ℕ} {c : UInt8} (hx : slash ∉ x)
    (h : x ++ slashes t = u ++ slash :: c :: rest) : c = slash := by
  rcases List.append_eq_append_iff.mp h with ⟨a, -, hrun⟩ | ⟨a, hfront, hrun⟩
  · have hmem : c ∈ slashes t := by
      rw [hrun]
      simp
    exact List.eq_of_mem_replicate hmem
  · cases a with
    | nil =>
      have hmem : c ∈ slashes t := by
        rw [List.nil_append] at hrun
        rw [← hrun]
        simp
      exact List.eq_of_mem_replicate hmem
    | cons d a =>
      obtain ⟨rfl, -⟩ := List.cons.inj hrun
      exact absurd (by rw [hfront]; simp) hx

theorem level_single {x u : Str} (hx : slash ∉ x) (t : ℕ) :
    Level (x ++ slashes t) u ↔ u = x ++ slashes t := by
  constructor
  · rintro (rfl | ⟨c, rest, hp, hc⟩)
    · rfl
    · exact absurd (eq_slash_of_run hx hp) hc
  · exact .inl

theorem level_below (front : Str) {name u : Str} (hname : slash ∉ name) (hne : name ≠ []) (t : ℕ) :
    Level (front ++ slash :: name ++ slashes t) u ↔
      u = front ++ slash :: name ++ slashes t ∨ Level front u := by
  constructor
  · rintro (rfl | ⟨c, rest, hp, hc⟩)
    · exact .inl rfl
    · rw [List.append_assoc, List.cons_append] at hp
      right
      rcases List.append_eq_append_iff.mp hp with ⟨a, hu, hrest⟩ | ⟨a, hu, hrest⟩
      · cases a with
        | nil => exact .inl (by rw [hu, List.append_nil])
        | cons d a => exact absurd (eq_slash_of_run hname (List.cons.inj hrest).2) hc
      · match a with
        | [] => exact .inl (by rw [hu, List.append_nil])
        | [d] =>
          have hslash := (List.cons.inj (List.cons.inj hrest).2).1
          exact absurd hslash hc
        | d :: e :: a =>
          obtain ⟨rfl, htail⟩ := List.cons.inj hrest
          obtain ⟨rfl, -⟩ := List.cons.inj htail
          exact .inr ⟨c, a, hu, hc⟩
  · rintro (rfl | rfl | ⟨c, rest, rfl, hc⟩)
    · exact .inl rfl
    · obtain ⟨n, ns, rfl⟩ := List.exists_cons_of_ne_nil hne
      refine .inr ⟨n, ns ++ slashes t, by simp, ?_⟩
      exact fun hn => hname (hn ▸ List.mem_cons_self)
    · exact .inr ⟨c, rest ++ slash :: name ++ slashes t, by simp, hc⟩

/-- A path ends with two slashes if and only if the run at its end has two. -/
theorem suffix_iff (front : Str) {name : Str} (hname : slash ∉ name) (hne : name ≠ []) (t : ℕ) :
    [slash, slash] <:+ front ++ slash :: name ++ slashes t ↔ 2 ≤ t := by
  obtain ⟨ns, n, rfl⟩ : ∃ ns n, name = ns ++ [n] := ⟨_, _, (List.dropLast_append_getLast hne).symm⟩
  have hn : slash ≠ n := fun hn => hname (by simp [hn])
  match t with
  | 0 =>
    refine iff_of_false ?_ (by omega)
    rintro ⟨z, hz⟩
    have hz' : (z ++ [slash]) ++ [slash] = (front ++ slash :: ns) ++ [n] := by
      simpa [slashes] using hz
    exact hn (List.cons.inj (List.append_inj' hz' rfl).2).1
  | 1 =>
    refine iff_of_false ?_ (by omega)
    rintro ⟨z, hz⟩
    have hz' : z ++ [slash, slash] = (front ++ slash :: ns) ++ [n, slash] := by
      simpa [slashes] using hz
    exact hn (List.cons.inj (List.append_inj' hz' rfl).2).1
  | t + 2 =>
    refine iff_of_true ⟨front ++ slash :: (ns ++ [n]) ++ slashes t, ?_⟩ (by omega)
    rw [slashes_succ, slashes_succ]
    simp

namespace FileSystem

variable (fs : FileSystem) {p : Str}

/-! ## One directory -/

theorem start_append (hne : p ≠ []) (x : Str) : fs.start (p ++ x) = fs.start p := by
  obtain ⟨c, rest, rfl⟩ := List.exists_cons_of_ne_nil hne
  rfl

theorem kind_start (p : Str) : fs.tree.kind (fs.start p) = some .dir := by
  rw [start]
  split
  · exact fs.tree.root_dir
  · exact fs.cwd_dir

theorem mkdir_append_slashes (hne : p ≠ []) (t : ℕ) : fs.mkdir (p ++ slashes t) = fs.mkdir p := by
  rw [mkdir, mkdir, moves_append_slashes, start_append fs hne]

/-- The parent directory of the last component does not exist. -/
def Missing (p : Str) : Prop :=
  fs.tree.resolve (fs.start p) (moves p).dropLast = none

theorem mkdir_of_missing (h : fs.Missing p) : fs.mkdir p = fs := by
  rw [mkdir]
  cases (moves p).getLast? with
  | none => rfl
  | some m =>
    dsimp only
    rw [show fs.tree.resolve _ _ = _ from h]

/-- The directories of `p` have been made, and nothing else. -/
structure Makes (p : Str) (fs' : FileSystem) : Prop where
  cwd : fs'.cwd = fs.cwd
  made : DirTree.Made fs.tree (fs.start p) (moves p) fs'.tree

variable {fs}

/-- The last directory of a path, over a file system that has those above it. -/
theorem makes_mkdir {fs₁ : FileSystem} {ms : List (Move Str)} {m : Move Str}
    (hp : moves p = ms ++ [m]) (hcwd : fs₁.cwd = fs.cwd)
    (hmade : DirTree.Made fs.tree (fs.start p) ms fs₁.tree)
    (hfree : DirTree.Unobstructed fs.tree [m]) : fs.Makes p (fs₁.mkdir p) := by
  obtain ⟨node, hnode⟩ := Option.isSome_iff_exists.mp (hmade.exists_way ms (List.prefix_refl ms))
  have hstart : fs₁.start p = fs.start p := by rw [start, start, hcwd]
  have hmkdir : (fs₁.mkdir p).cwd = fs₁.cwd ∧ (fs₁.mkdir p).tree = fs₁.tree.mkdir node m := by
    rw [mkdir, hp, List.getLast?_concat, List.dropLast_concat, hstart]
    dsimp only
    rw [hnode]
    exact ⟨rfl, rfl⟩
  refine ⟨hmkdir.1.trans hcwd, ?_⟩
  rw [hmkdir.2, hp]
  exact hmade.mkdir (kind_start fs p) hnode hfree

/-- A path whose parent directory exists. -/
theorem makes_mkdir_of_not_missing (hmissing : ¬fs.Missing p)
    (hfree : DirTree.Unobstructed fs.tree (moves p)) : fs.Makes p (fs.mkdir p) := by
  have hparent : (fs.tree.resolve (fs.start p) (moves p).dropLast).isSome :=
    Option.isSome_iff_ne_none.mpr hmissing
  by_cases hnil : moves p = []
  · have hmkdir : fs.mkdir p = fs := by
      rw [mkdir, hnil]
      rfl
    rw [hmkdir]
    refine ⟨rfl, .refl ?_⟩
    rw [hnil]
    rfl
  · refine makes_mkdir (List.dropLast_append_getLast hnil).symm rfl (.refl hparent) ?_
    intro name hname
    refine hfree name ?_
    rw [List.mem_singleton.mp hname]
    exact List.getLast_mem hnil

/-! ## The recursion -/

/-- Without a tail there is no recursion. -/
theorem makeDirs_of_tail_nil (h : (splitPath (withoutSlash p) slash false).2 = []) :
    fs.makeDirs p = fs.mkdir (withoutSlash p) := by
  rw [makeDirs]
  exact if_neg fun hcond => hcond.2.1 h

theorem makeDirs_of_withoutSlash {name head tail : Str} (hname : withoutSlash p = name)
    (hsplit : splitPath name slash false = (head, tail)) (htail : tail ≠ []) :
    fs.makeDirs p =
      if head ≠ [] ∧ fs.isDir head = false then (fs.makeDirs head).mkdir name else fs.mkdir name := by
  rw [makeDirs, hname, hsplit]
  simp [htail]

/-- Behind two slashes nothing is looked at. -/
theorem makeDirs_two_slashes (x : Str) (t : ℕ) :
    fs.makeDirs (x ++ slashes (t + 2)) = fs.mkdir (x ++ slashes (t + 1)) := by
  have hname : withoutSlash (x ++ slashes (t + 2)) = x ++ slashes (t + 1) := by
    rw [slashes_succ, ← List.append_assoc, withoutSlash_append_slash]
  have htail : (splitPath (x ++ slashes (t + 1)) slash false).2 = [] := by
    rw [slashes_succ, ← List.append_assoc, splitPath_append List.not_mem_nil]
  rw [makeDirs_of_tail_nil (by rw [hname]; exact htail), hname]

/-- At most one slash at the end is taken away. -/
theorem withoutSlash_append_slashes {x : Str} (hx : withoutSlash x = x) {t : ℕ} (ht : t ≤ 1) :
    withoutSlash (x ++ slashes t) = x := by
  match t, ht with
  | 0, _ => rw [slashes, List.replicate_zero, List.append_nil, hx]
  | 1, _ => exact withoutSlash_append_slash x

/-- A path of one component, or of slashes only. -/
theorem makeDirs_single {x : Str} (hx : slash ∉ x) (t : ℕ) :
    ∃ k, fs.makeDirs (x ++ slashes t) = fs.mkdir (x ++ slashes k) := by
  by_cases ht : t ≤ 1
  · have hname := withoutSlash_append_slashes (withoutSlash_of_notMem hx) ht
    have htail : (splitPath x slash false).2 = [] := by rw [splitPath_of_notMem hx]
    refine ⟨0, ?_⟩
    rw [makeDirs_of_tail_nil (by rw [hname]; exact htail), hname]
    simp [slashes]
  · obtain ⟨t, rfl⟩ : ∃ t', t = t' + 2 := ⟨t - 2, by omega⟩
    exact ⟨t + 1, makeDirs_two_slashes x t⟩

theorem makeDirs_below (front : Str) {name : Str} (hname : slash ∉ name) (hne : name ≠ []) {t : ℕ}
    (ht : t ≤ 1) :
    fs.makeDirs (front ++ slash :: name ++ slashes t) =
      if front ≠ [] ∧ fs.isDir front = false then
        (fs.makeDirs front).mkdir (front ++ slash :: name)
      else fs.mkdir (front ++ slash :: name) :=
  makeDirs_of_withoutSlash (withoutSlash_append_slashes (withoutSlash_below hname hne front) ht)
    (splitPath_append hname front) hne

/-! ## Careful paths -/

variable (fs)

/-- No level of `p` whose parent directory is missing ends with two slashes. -/
def Careful (p : Str) : Prop :=
  ∀ u, Level p u → fs.Missing u → ¬[slash, slash] <:+ u

variable {fs}

/-- A path without repeated slashes is careful over every file system. -/
theorem careful_of_no_repeated_slash (h : ¬[slash, slash] <:+: p) : fs.Careful p :=
  fun _ hlevel _ hsuffix => h (hsuffix.isInfix.trans (prefix_of_level hlevel).isInfix)

theorem not_missing_of_moves_short (h : (moves p).dropLast = []) : ¬fs.Missing p := by
  rw [Missing, h]
  exact Option.some_ne_none _

/-- The levels of a directory that exists have parent directories. -/
theorem not_missing_of_level {u : Str} (h : (fs.locate p).isSome) (hlevel : Level p u) :
    ¬fs.Missing u := by
  have hparent : ∀ ms, ms <+: moves p → (fs.tree.resolve (fs.start p) ms).isSome :=
    fun ms hms => DirTree.resolve_isSome_of_prefix hms h
  rcases hlevel with rfl | ⟨c, rest, rfl, -⟩
  · exact Option.isSome_iff_ne_none.mp (hparent _ (List.dropLast_prefix _))
  · by_cases hu : u = []
    · subst hu
      exact not_missing_of_moves_short rfl
    · rw [moves_append_slash, start_append fs hu] at hparent
      exact Option.isSome_iff_ne_none.mp
        (hparent _ ((List.dropLast_prefix _).trans (List.prefix_append _ _)))

/-- What is missing is the directory in front of the last component. -/
theorem missing_below_iff (front : Str) {name : Str} (hname : slash ∉ name) (hne : name ≠ [])
    (t : ℕ) :
    fs.Missing (front ++ slash :: name ++ slashes t) ↔ front ≠ [] ∧ fs.isDir front = false := by
  rw [Missing, moves_append_slashes, moves_append_slash, moves_single hname hne,
    List.dropLast_concat]
  by_cases hfront : front = []
  · subst hfront
    exact iff_of_false (Option.some_ne_none _) fun h => h.1 rfl
  · rw [List.append_assoc, start_append fs hfront, isDir, locate]
    simp [hfront]

theorem careful_below_iff (front : Str) {name : Str} (hname : slash ∉ name) (hne : name ≠ [])
    (t : ℕ) :
    fs.Careful (front ++ slash :: name ++ slashes t) ↔
      (fs.Missing (front ++ slash :: name ++ slashes t) → t ≤ 1) ∧ fs.Careful front := by
  constructor
  · intro h
    refine ⟨fun hmissing => ?_, fun u hu => ?_⟩
    · have hsuffix := h _ (.inl rfl) hmissing
      rw [suffix_iff front hname hne] at hsuffix
      omega
    · exact h u ((level_below front hname hne t).mpr (.inr hu))
  · rintro ⟨hlast, hfront⟩ u hu hmissing
    rcases (level_below front hname hne t).mp hu with rfl | hu
    · have ht := hlast hmissing
      rw [suffix_iff front hname hne]
      omega
    · exact hfront u hu hmissing

theorem not_missing_single {x : Str} (hx : slash ∉ x) (t : ℕ) : ¬fs.Missing (x ++ slashes t) := by
  refine not_missing_of_moves_short ?_
  rw [moves_append_slashes]
  by_cases hnil : x = []
  · subst hnil
    rfl
  · rw [moves_single hx hnil]
    rfl

theorem careful_single {x : Str} (hx : slash ∉ x) (t : ℕ) : fs.Careful (x ++ slashes t) := by
  intro u hu hmissing
  rw [level_single hx] at hu
  subst hu
  exact absurd hmissing (not_missing_single hx t)

theorem makes_single {x : Str} (hx : slash ∉ x) (t : ℕ)
    (hfree : DirTree.Unobstructed fs.tree (moves (x ++ slashes t))) :
    fs.Makes (x ++ slashes t) (fs.makeDirs (x ++ slashes t)) := by
  obtain ⟨k, hk⟩ : ∃ k, fs.makeDirs (x ++ slashes t) = fs.mkdir (x ++ slashes k) :=
    makeDirs_single hx t
  have hmkdir : fs.mkdir (x ++ slashes k) = fs.mkdir (x ++ slashes t) := by
    by_cases hnil : x = []
    · subst hnil
      rw [mkdir, mkdir, moves_append_slashes, moves_append_slashes]
      rfl
    · rw [mkdir_append_slashes fs hnil, mkdir_append_slashes fs hnil]
  rw [hk, hmkdir]
  exact makes_mkdir_of_not_missing (not_missing_single hx t) hfree

/-! ## All paths -/

/-- A careful path is made; otherwise nothing is, and there was no such directory. -/
def Settled (fs : FileSystem) (p : Str) : Prop :=
  (fs.Careful p → fs.Makes p (fs.makeDirs p)) ∧
    (¬fs.Careful p → fs.makeDirs p = fs ∧ fs.locate p = none)

/-- The parent directory exists: one `mkdir` is enough, wherever the slashes are. -/
theorem settled_of_not_missing (front : Str) {name : Str} (hname : slash ∉ name) (hne : name ≠ [])
    (t : ℕ) (hmissing : ¬fs.Missing (front ++ slash :: name ++ slashes t))
    (hfree : DirTree.Unobstructed fs.tree (moves (front ++ slash :: name ++ slashes t))) :
    fs.Settled (front ++ slash :: name ++ slashes t) := by
  have hq : front ++ slash :: name ≠ [] := by simp
  have hmkdir : fs.makeDirs (front ++ slash :: name ++ slashes t) =
      fs.mkdir (front ++ slash :: name ++ slashes t) := by
    by_cases ht : t ≤ 1
    · rw [makeDirs_below front hname hne ht, mkdir_append_slashes fs hq,
        if_neg (mt (missing_below_iff front hname hne t).mpr hmissing)]
    · obtain ⟨t, rfl⟩ : ∃ t', t = t' + 2 := ⟨t - 2, by omega⟩
      rw [makeDirs_two_slashes, mkdir_append_slashes fs hq, mkdir_append_slashes fs hq]
  have hcareful : fs.Careful (front ++ slash :: name ++ slashes t) := by
    refine (careful_below_iff front hname hne t).mpr ⟨fun h => absurd h hmissing, ?_⟩
    rw [missing_below_iff front hname hne, not_and, Bool.not_eq_false, isDir] at hmissing
    by_cases hfront : front = []
    · subst hfront
      exact careful_single List.not_mem_nil 0
    · have hdir : (fs.locate front).isSome := by simpa [hfront] using hmissing hfront
      exact fun u hu hu' => absurd hu' (not_missing_of_level hdir hu)
  rw [Settled, hmkdir]
  exact ⟨fun _ => makes_mkdir_of_not_missing hmissing hfree, fun h => absurd hcareful h⟩

/-- The parent directory is missing: it is made before, unless the path ends with two slashes. -/
theorem settled_of_missing (front : Str) {name : Str} (hname : slash ∉ name) (hne : name ≠ [])
    (t : ℕ) (hmissing : fs.Missing (front ++ slash :: name ++ slashes t))
    (hfree : DirTree.Unobstructed fs.tree (moves (front ++ slash :: name ++ slashes t)))
    (ih : fs.Settled front) : fs.Settled (front ++ slash :: name ++ slashes t) := by
  have hq : front ++ slash :: name ≠ [] := by simp
  have hmoves : moves (front ++ slash :: name ++ slashes t) = moves front ++ [move name] := by
    rw [moves_append_slashes, moves_append_slash, moves_single hname hne]
  obtain ⟨hfront, hdir⟩ := (missing_below_iff front hname hne t).mp hmissing
  have hstart : fs.start (front ++ slash :: name ++ slashes t) = fs.start front := by
    rw [List.append_assoc, start_append fs hfront]
  have hnone : fs.mkdir (front ++ slash :: name ++ slashes t) = fs := mkdir_of_missing fs hmissing
  have hlocate : fs.locate (front ++ slash :: name ++ slashes t) = none := by
    have hparent : fs.tree.resolve (fs.start front) (moves front) = none := by
      simpa [isDir, locate, hfront] using hdir
    rw [locate, hmoves, hstart, DirTree.resolve_append, hparent]
    rfl
  rw [Settled, careful_below_iff front hname hne]
  by_cases ht : t ≤ 1
  · rw [makeDirs_below front hname hne ht, if_pos ⟨hfront, hdir⟩,
      ← mkdir_append_slashes (fs.makeDirs front) hq t]
    refine ⟨fun h => ?_, fun h => ?_⟩
    · have hmakes := ih.1 h.2
      refine makes_mkdir hmoves hmakes.cwd ?_ fun n hn => hfree n ?_
      · rw [hstart]
        exact hmakes.made
      · rw [hmoves]
        exact List.mem_append_right _ hn
    · have hfrontNot : ¬fs.Careful front := fun hcareful => h ⟨fun _ => ht, hcareful⟩
      rw [(ih.2 hfrontNot).1]
      exact ⟨hnone, hlocate⟩
  · refine ⟨fun h => absurd (h.1 hmissing) ht, fun _ => ⟨?_, hlocate⟩⟩
    obtain ⟨t, rfl⟩ : ∃ t', t = t' + 2 := ⟨t - 2, by omega⟩
    rw [mkdir_append_slashes fs hq] at hnone
    rw [makeDirs_two_slashes, mkdir_append_slashes fs hq, hnone]

theorem settled (fs : FileSystem) (p : Str) (hfree : DirTree.Unobstructed fs.tree (moves p)) :
    fs.Settled p := by
  induction hlen : p.length using Nat.strongRecOn generalizing p with
  | _ n ih =>
    subst hlen
    cases shape p with
    | slashes t =>
      have hx : slash ∉ ([] : Str) := List.not_mem_nil
      exact ⟨fun _ => makes_single hx t hfree, fun h => absurd (careful_single hx t) h⟩
    | single hname hne t =>
      exact ⟨fun _ => makes_single hname t hfree, fun h => absurd (careful_single hname t) h⟩
    | @below front name hname hne t =>
      by_cases hmissing : fs.Missing (front ++ slash :: name ++ slashes t)
      · refine settled_of_missing front hname hne t hmissing hfree ?_
        refine ih front.length ?_ front (fun n hn => hfree n ?_) rfl
        · simp only [List.length_append, List.length_cons]
          omega
        · rw [moves_append_slashes, moves_append_slash]
          exact List.mem_append_left _ hn
      · exact settled_of_not_missing front hname hne t hmissing hfree

/-- Where no file has the name of a component. -/
theorem unobstructed_of_components {fs : FileSystem} {p : Str}
    (hfile : ∀ name ∈ components p, ∀ node, fs.tree.kind (name :: node) ≠ some .file) :
    DirTree.Unobstructed fs.tree (moves p) := by
  intro name hname
  obtain ⟨component, hmem, hmove⟩ := List.mem_map.mp hname
  rw [move] at hmove
  split at hmove
  · cases hmove
  · split at hmove
    · cases hmove
    · cases hmove
      exact hfile name hmem

/-- Where no file is in the way, `make_dirs` makes the directories of a path, and nothing else, if and
    only if no level of the path whose parent directory is missing ends with two slashes. -/
theorem make_dirs_iff (fs : FileSystem) (p : Str)
    (hfile : ∀ name ∈ components p, ∀ node, fs.tree.kind (name :: node) ≠ some .file) :
    fs.Makes p (fs.makeDirs p) ↔ fs.Careful p := by
  obtain ⟨hmakes, hnot⟩ := settled fs p (unobstructed_of_components hfile)
  refine ⟨fun h => ?_, hmakes⟩
  by_contra hcareful
  obtain ⟨heq, hnone⟩ := hnot hcareful
  have hway := h.made.exists_way (moves p) (List.prefix_refl _)
  rw [heq, show fs.tree.resolve _ _ = _ from hnone] at hway
  cases hway

/-- The root directory alone. -/
def bare : FileSystem where
  tree := {
    kind := fun node => if node = [] then some .dir else none
    root_dir := rfl
    parent_dir := fun _ _ h => absurd rfl h }
  cwd := []
  cwd_dir := rfl

theorem bare_no_file (name : Str) (node : List Str) : bare.tree.kind (name :: node) ≠ some .file := by
  intro h
  cases h

/-- The path `a/b/`. -/
theorem make_dirs_trailing_slash :
    bare.Makes [97, slash, 98, slash] (bare.makeDirs [97, slash, 98, slash]) := by
  refine (make_dirs_iff bare [97, slash, 98, slash] ?_).mpr ?_
  · exact fun name _ node => bare_no_file name node
  · exact careful_of_no_repeated_slash (by decide)

/-- The path `a/b//`: nothing is made, and no error is reported. -/
theorem make_dirs_counterexample :
    let p : Str := [97, slash, 98, slash, slash]
    (∀ name ∈ components p, ∀ node, bare.tree.kind (name :: node) ≠ some .file) ∧
      ((bare.makeDirs p).locate [97]).isSome = false ∧ ¬bare.Makes p (bare.makeDirs p) := by
  intro p
  have hmkdir : bare.makeDirs p = bare.mkdir [97, slash, 98, slash] :=
    makeDirs_two_slashes [97, slash, 98] 0
  refine ⟨fun name _ node => bare_no_file name node, ?_, fun h => ?_⟩
  · rw [hmkdir]
    decide
  · have hway := h.made.exists_way (moves p) (List.prefix_refl _)
    rw [hmkdir] at hway
    revert hway
    decide

end FileSystem

end Pdk.Io
