import Pdk.Config.IniFileRoundTrip

/-!
# `write_file`, then `read_file`

The two round trips of an `IniFile`. A configuration that was loaded from a file survives saving when
every entry that stands in that file, that is, which no later line sets again, is printed as a line
that is read as it was meant (`Stands`, `Kept`). A configuration that was built by other means
survives when its names and values avoid what the format uses for itself (`Representable`).
-/

namespace Pdk.Config

open Foundation

/-! ## What stands in a file -/

/-- The values that the lines of a file set, with their sections, in order. -/
def assignments : Str → List Line → List (Str × Str × Str)
  | _, [] => []
  | keyname, .skip :: lines => assignments keyname lines
  | _, .heading keyname :: lines => assignments keyname lines
  | keyname, .entry n v :: lines => (keyname, n, v) :: assignments keyname lines

/-- A line of the file sets the value, and no later line sets it again. -/
def Stands (F : Str) (s n v : Str) : Prop :=
  ∃ before later, assignments [] ((chunks lf fgetsRoom F).map parseLine) =
    before ++ (s, n, v) :: later ∧ ∀ v', (s, n, v') ∉ later

/-- The value under a section and a name. -/
def configValue (s n : Str) (cfg : Configuration) : Option Str :=
  (assocLookup s cfg).bind (assocLookup n)

theorem configValue_set_self (s n v : Str) (cfg : Configuration) :
    configValue s n (configSet s n v cfg) = some v := by
  rw [configValue, configSet, assocLookup, lookup_assocInsert_self, Option.bind_some]
  exact lookup_assocInsert_self n v _

theorem configValue_set_of_ne {s n s' n' : Str} (h : (s', n') ≠ (s, n)) (v : Str)
    (cfg : Configuration) : configValue s' n' (configSet s n v cfg) = configValue s' n' cfg := by
  by_cases hs : s' = s
  · subst hs
    have hn : n' ≠ n := fun heq => h (by rw [heq])
    have hinner := lookup_assocInsert_of_ne hn v ((assocLookup s' cfg).getD [])
    rw [configValue, configSet, assocLookup, lookup_assocInsert_self, Option.bind_some, configValue,
      assocLookup, hinner]
    cases assocLookup s' cfg <;> rfl
  · rw [configValue, configSet, assocLookup, lookup_assocInsert_of_ne hs]
    rfl

/-- Assigning in order. -/
def assign (ts : List (Str × Str × Str)) (cfg : Configuration) : Configuration :=
  ts.foldl (fun cfg t => configSet t.1 t.2.1 t.2.2 cfg) cfg

theorem foldl_configStep (lines : List Line) (keyname : Str) (cfg : Configuration) :
    (lines.foldl configStep (keyname, cfg)).2 = assign (assignments keyname lines) cfg := by
  induction lines generalizing keyname cfg with
  | nil => rfl
  | cons line lines ih =>
    cases line with
    | skip => exact ih keyname cfg
    | heading s => exact ih s cfg
    | entry n v => exact ih keyname (configSet keyname n v cfg)

/-- The last element of a list with a distinguished element is this element, or behind it. -/
theorem concat_eq_append_cons {α : Type*} {ts before later : List α} {t x : α}
    (h : ts ++ [t] = before ++ x :: later) :
    (later = [] ∧ t = x) ∨ ∃ rest, later = rest ++ [t] ∧ ts = before ++ x :: rest := by
  obtain rfl | ⟨rest, u, rfl⟩ := List.eq_nil_or_concat later
  · left
    obtain ⟨-, hlast⟩ := List.append_inj' h rfl
    cases hlast
    exact ⟨rfl, rfl⟩
  · right
    rw [List.concat_eq_append, ← List.cons_append, ← List.append_assoc] at h
    obtain ⟨hts, hlast⟩ := List.append_inj' h rfl
    cases hlast
    exact ⟨rest, List.concat_eq_append, hts⟩

/-- **The last assignment counts.** -/
theorem configValue_assign (ts : List (Str × Str × Str)) (s n v : Str) :
    configValue s n (assign ts []) = some v ↔
      ∃ before later, ts = before ++ (s, n, v) :: later ∧ ∀ v', (s, n, v') ∉ later := by
  induction ts using List.reverseRecOn with
  | nil =>
    constructor
    · nofun
    · rintro ⟨before, later, heq, -⟩
      simp at heq
  | append_singleton ts t ih =>
    obtain ⟨s', n', v'⟩ := t
    have hlast : assign (ts ++ [(s', n', v')]) [] = configSet s' n' v' (assign ts []) := by
      rw [assign, List.foldl_append]
      rfl
    rw [hlast]
    by_cases hsame : (s, n) = (s', n')
    · -- the last line sets the value
      obtain ⟨rfl, rfl⟩ := Prod.mk.inj hsame
      rw [configValue_set_self]
      constructor
      · intro heq
        obtain rfl := Option.some.inj heq
        exact ⟨ts, [], rfl, fun _ => List.not_mem_nil⟩
      · rintro ⟨before, later, heq, hlater⟩
        rcases concat_eq_append_cons heq with ⟨-, heq⟩ | ⟨rest, rfl, -⟩
        · cases heq
          rfl
        · exact absurd (List.mem_append_right _ (List.mem_singleton_self _)) (hlater v')
    · rw [configValue_set_of_ne hsame, ih]
      constructor
      · rintro ⟨before, later, rfl, hlater⟩
        refine ⟨before, later ++ [(s', n', v')], by simp, ?_⟩
        intro v'' hmem
        rcases List.mem_append.mp hmem with hmem | hmem
        · exact hlater v'' hmem
        · cases List.mem_singleton.mp hmem
          exact hsame rfl
      · rintro ⟨before, later, heq, hlater⟩
        rcases concat_eq_append_cons heq with ⟨-, heq⟩ | ⟨rest, rfl, hts⟩
        · cases heq
          exact absurd rfl hsame
        · exact ⟨before, rest, hts, fun v'' hmem => hlater v'' (List.mem_append_left _ hmem)⟩

namespace IniFile

variable {f : IniFile}

/-- The entries of a configuration that was read are those that stand in the file. -/
theorem stands_iff (F s n v : Str) :
    Stands F s n v ↔ ∃ es, (s, es) ∈ (new.readText F).config ∧ (n, v) ∈ es := by
  obtain ⟨hwf, hconfig⟩ := config_readText F
  obtain ⟨hnodup, hnodups⟩ := nodup_config hwf
  have hvalue : Stands F s n v ↔ configValue s n (new.readText F).config = some v := by
    rw [hconfig, parses, foldl_configStep_filter, foldl_configStep, configValue_assign]
    rfl
  rw [hvalue, configValue, Option.bind_eq_some_iff]
  constructor
  · rintro ⟨es, hes, hv⟩
    exact ⟨es, mem_of_assocLookup hes, mem_of_assocLookup hv⟩
  · rintro ⟨es, hes, hv⟩
    exact ⟨es, assocLookup_of_mem hnodup hes, assocLookup_of_mem (hnodups (s, es) hes) hv⟩

/-! ## Saving a loaded configuration -/

/-- `write_file()`, and `read_file()` of what it has written into a new object. -/
def reload (f : IniFile) : IniFile :=
  (new.readFile (f.writeFile true).1).2

/-- **A loaded configuration survives saving exactly when every entry that stands in the file is
    kept.** -/
theorem reload_loaded_iff (F : Str) :
    let f := (new.readFile (some F)).2
    (f.reload.names = f.names ∧ f.reload.keys = f.keys) ↔ ∀ s n v, Stands F s n v → Kept n v := by
  intro f
  refine (readText_text_iff F).trans ?_
  constructor
  · intro hkept s n v hstands
    obtain ⟨es, hes, hv⟩ := (stands_iff F s n v).mp hstands
    exact hkept (s, es) hes (n, v) hv
  · intro hkept e he p hp
    exact hkept e.1 p.1 p.2 ((stands_iff F e.1 p.1 p.2).mpr ⟨e.2, he, hp⟩)

/-- The line ` #x=1` is an entry, and its printed line is a comment. -/
theorem reload_loaded_counterexample :
    ¬∀ F : Str, let f := (new.readFile (some F)).2
      f.reload.names = f.names ∧ f.reload.keys = f.keys := by
  intro h
  have hspace := h [space, hash, 120, equals, 49]
  revert hspace
  decide

/-! ## Configurations that the format can carry -/

/-- Names and values without the characters that the format uses for itself, in lines that `fgets`
    reads at once. -/
structure Representable (f : IniFile) : Prop where
  wf : f.Wf
  nonempty : ∀ key ∈ f.keys, key.names ≠ []
  keyname : ∀ s ∈ f.names, lf ∉ s ∧ 0 ∉ s ∧ Trimmed s
  valuename : ∀ key ∈ f.keys, ∀ n ∈ key.names,
    n ≠ [] ∧ lf ∉ n ∧ 0 ∉ n ∧ equals ∉ n ∧ Trimmed n ∧
      n.head? ≠ some hash ∧ n.head? ≠ some lbracket
  value : ∀ key ∈ f.keys, ∀ v ∈ key.values,
    lf ∉ v ∧ 0 ∉ v ∧ hash ∉ v ∧ Trimmed v ∧ v.getLast? ≠ some cr
  -- at most 2046 bytes in front of the newline
  headings : ∀ s ∈ f.names, (headingLine s).length ≤ 2046 + 1
  entries : ∀ key ∈ f.keys, ∀ p ∈ key.names.zip key.values, (entryLine p.1 p.2).length ≤ 2046 + 1

namespace Representable

theorem headingOk (h : f.Representable) {s : Str} (hs : s ∈ f.names) : HeadingOk s := by
  obtain ⟨hlf, hzero, htrimmed⟩ := h.keyname s hs
  have hlen := h.headings s hs
  rw [headingLine, Bytes.cString_eq_self hzero] at hlen
  simp only [List.length_append, List.length_cons, List.length_nil] at hlen
  exact ⟨htrimmed, hzero, hlf, by rw [fgetsRoom]; omega⟩

variable {key : Key} {n v : Str}

theorem printable (h : f.Representable) (hkey : key ∈ f.keys)
    (hentry : (n, v) ∈ key.names.zip key.values) : Printable n v := by
  obtain ⟨hn, hv⟩ := List.of_mem_zip hentry
  obtain ⟨hne, hnlf, hnzero, hequals, hntrimmed, -, -⟩ := h.valuename key hkey n hn
  obtain ⟨hvlf, hvzero, hhash, hvtrimmed, -⟩ := h.value key hkey v hv
  exact ⟨hne, hntrimmed, hnzero, hnlf, hequals, hvtrimmed, hvzero, hvlf, hhash⟩

theorem kept (h : f.Representable) (hkey : key ∈ f.keys)
    (hentry : (n, v) ∈ key.names.zip key.values) : ChunkName n ∧ Kept n v := by
  have hprintable := h.printable hkey hentry
  obtain ⟨hn, hv⟩ := List.of_mem_zip hentry
  obtain ⟨-, -, -, -, -, hcomment, hheading⟩ := h.valuename key hkey n hn
  obtain ⟨-, -, -, -, hcr⟩ := h.value key hkey v hv
  have hlen := h.entries key hkey (n, v) hentry
  have htext := Printable.length_entryText n v
  have hpad : n.length ≤ (pad n).length := by simp [pad]
  have hroom : fgetsRoom = 2047 := rfl
  rw [hprintable.entryLine_eq, List.length_append, List.length_singleton] at hlen
  refine ⟨⟨by omega, fun hfull => by omega⟩, hcomment, fun hboth => hheading hboth.1, hcr, ?_⟩
  exact .inr (by omega)

end Representable

/-- **A configuration that the format can carry survives saving.** -/
theorem reload_representable (h : f.Representable) :
    f.reload.names = f.names ∧ f.reload.keys = f.keys := by
  have hcell : ∀ e ∈ f.config, ∃ key ∈ f.keys, e.1 ∈ f.names ∧ e.2 = key.names.zip key.values := by
    intro e he
    obtain ⟨hname, hcells⟩ := List.of_mem_zip he
    obtain ⟨key, hkey, heq⟩ := List.mem_map.mp hcells
    exact ⟨key, hkey, hname, heq.symm⟩
  apply readText_text h.wf
  · constructor
    · intro e he
      obtain ⟨-, -, hname, -⟩ := hcell e he
      exact h.headingOk hname
    · intro e he p hp
      obtain ⟨key, hkey, -, heq⟩ := hcell e he
      exact h.printable hkey (heq ▸ hp)
  · intro e he
    obtain ⟨key, hkey, -, heq⟩ := hcell e he
    refine ⟨?_, fun p hp => h.kept hkey (heq ▸ hp)⟩
    rw [heq]
    intro hnil
    have hlen := h.wf.length_values key hkey
    have hzip := congrArg List.length hnil
    rw [List.length_zip, hlen, Nat.min_self, List.length_nil] at hzip
    exact h.nonempty key hkey (List.length_eq_zero_iff.mp (hlen.trans hzip))

/-- Two sections: the one without a name holds `a#]` with the empty value, and `]` holds `b` with
    the value `c=[`. -/
theorem reload_representable_two :
    let f : IniFile := ⟨[⟨[[]], [[97, hash, rbracket]]⟩, ⟨[[99, equals, lbracket]], [[98]]⟩],
      [[], [rbracket]], ""⟩
    f.Representable ∧ f.reload.names = f.names ∧ f.reload.keys = f.keys := by
  intro f
  have hf : f.Representable := by
    refine ⟨⟨?_, ?_, ?_, ?_⟩, ?_, ?_, ?_, ?_, ?_, ?_⟩ <;> decide
  exact ⟨hf, reload_representable hf⟩

end IniFile

end Pdk.Config
