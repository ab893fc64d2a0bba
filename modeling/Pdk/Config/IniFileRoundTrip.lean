import Mathlib.Algebra.Order.BigOperators.Group.List
import Mathlib.Algebra.Order.Group.Nat
import Pdk.Config.IniFileMap
import Pdk.Config.IniFileText

/-!
# Saving and loading a configuration

A configuration is the list of the sections with the lists of their entries (`config`). Reading a
text is a fold over its lines (`config_readText`), and the text that `write_file` prints is read line
by line (`parses_text`). With every entry kept, the fold rebuilds the configuration
(`readText_text`); with one entry that is not kept, the lines say less than the configuration did
(`linesWeight_text_lt`), and no reading can make up for it (`configWeight_fold`).
-/

namespace Pdk.Config

open Foundation

/-! ## Configurations -/

abbrev Configuration : Type := List (Str × List (Str × Str))

/-- The effect of `set_value` on the list of the sections. -/
def configSet (s k v : Str) (cfg : Configuration) : Configuration :=
  assocInsert s (assocInsert k v ((assocLookup s cfg).getD [])) cfg

/-- The effect of a line that was read. -/
def configStep (state : Str × Configuration) : Line → Str × Configuration
  | .skip => state
  | .heading s => (s, state.2)
  | .entry n v => (state.1, configSet state.1 n v state.2)

/-- The sections of a map with their entries. -/
def IniMap.config (m : IniMap) : Configuration :=
  m.entries.map (Prod.map id OrderedMap.entries)

theorem IniMap.config_set (m : IniMap) (s k v : Str) :
    (m.set s k v).config = configSet s k v m.config := by
  have hlookup : (assocLookup s m.config).getD [] = (m.sectionOf s).entries := by
    rw [IniMap.config, assocLookup_map, IniMap.sectionOf]
    change ((m.lookup s).map OrderedMap.entries).getD [] = _
    cases m.lookup s <;> rfl
  rw [configSet, hlookup]
  exact map_assocInsert OrderedMap.entries s _ m.entries

namespace IniFile

variable {f f' : IniFile} {m m' : IniMap}

/-- The sections of the object with their entries. -/
def config (f : IniFile) : Configuration :=
  f.names.zip (f.keys.map fun key => key.names.zip key.values)

theorem zip_of_columns {ks cs : List Str} {es : List (Str × Str)} (h : Columns (· = ·) ks cs es) :
    ks.zip cs = es := by
  induction h with
  | nil => rfl
  | cons hcell hrest ih => rw [List.zip_cons_cons, hcell, ih]

theorem config_of_rep (h : f.Rep m) : f.config = m.config := by
  have hcolumns : ∀ {ks : List Str} {cs : List Key} {es : List (Str × OrderedMap Str Str)},
      Columns KeyRep ks cs es → ks.zip (cs.map fun key => key.names.zip key.values) =
        es.map (Prod.map id OrderedMap.entries) := by
    intro ks cs es h
    induction h with
    | nil => rfl
    | cons hcell hrest ih =>
      rw [List.map_cons, List.zip_cons_cons, List.map_cons, ih, zip_of_columns hcell]
      rfl
  exact hcolumns h

/-- The two vectors of a `Key` are the columns of its entries. -/
def keyOf (es : List (Str × Str)) : Key :=
  ⟨es.map Prod.snd, es.map Prod.fst⟩

theorem keyOf_zip {key : Key} (h : key.names.length = key.values.length) :
    keyOf (key.names.zip key.values) = key := by
  rw [keyOf, List.map_fst_zip (Nat.le_of_eq h), List.map_snd_zip (Nat.le_of_eq h.symm)]

/-- The vectors are the columns of the configuration. -/
theorem columns_of_wf (h : f.Wf) :
    f.names = f.config.map Prod.fst ∧ f.keys = f.config.map fun e => keyOf e.2 := by
  have hlen : (f.keys.map fun key => key.names.zip key.values).length = f.names.length := by
    rw [List.length_map, h.length_names]
  refine ⟨(List.map_fst_zip (Nat.le_of_eq hlen.symm)).symm, ?_⟩
  have hcells : f.config.map (fun e => keyOf e.2) =
      (f.config.map Prod.snd).map keyOf := by
    rw [List.map_map]
    rfl
  rw [hcells, config, List.map_snd_zip (Nat.le_of_eq hlen), List.map_map]
  symm
  conv_rhs => rw [← List.map_id f.keys]
  apply List.map_congr_left
  intro key hkey
  exact keyOf_zip (h.length_values key hkey)

/-- Two objects with the same configuration have the same sections, names and values. -/
theorem eq_of_config (h : f.Wf) (h' : f'.Wf) (hconfig : f'.config = f.config) :
    f'.names = f.names ∧ f'.keys = f.keys := by
  obtain ⟨hnames, hkeys⟩ := columns_of_wf h
  obtain ⟨hnames', hkeys'⟩ := columns_of_wf h'
  rw [hnames, hkeys, hnames', hkeys', hconfig]
  exact ⟨rfl, rfl⟩

theorem config_congr (hnames : f'.names = f.names) (hkeys : f'.keys = f.keys) :
    f'.config = f.config := by
  rw [config, config, hnames, hkeys]

/-! ## Reading is a fold over the lines -/

theorem config_readLine {state : Str × IniFile} (h : state.2.Rep m) (buf : Str) :
    ∃ m', (readLine state buf).2.Rep m' ∧
      ((readLine state buf).1, m'.config) = configStep (state.1, m.config) (parseLine buf) := by
  unfold readLine
  cases parseLine buf with
  | skip => exact ⟨m, h, rfl⟩
  | heading s => exact ⟨m, h, rfl⟩
  | entry n v =>
    obtain ⟨-, hrep⟩ := setValue_create h state.1 n v
    exact ⟨_, hrep, by rw [IniMap.config_set]; rfl⟩

theorem foldl_configStep_filter (lines : List Line) (state : Str × Configuration) :
    (lines.filter (· ≠ .skip)).foldl configStep state = lines.foldl configStep state := by
  induction lines generalizing state with
  | nil => rfl
  | cons line lines ih =>
    by_cases hskip : line = .skip
    · subst hskip
      rw [List.filter_cons_of_neg (by simp), ih]
      rfl
    · rw [List.filter_cons_of_pos (by simpa using hskip), List.foldl_cons, List.foldl_cons, ih]

/-- **Reading a text into a new object.** -/
theorem config_readText (text : Str) :
    (new.readText text).Wf ∧
      (new.readText text).config = ((parses text).foldl configStep ([], [])).2 := by
  have hfold : ∀ (bufs : List Str) (state : Str × IniFile) (m : IniMap), state.2.Rep m →
      ∃ m', (bufs.foldl readLine state).2.Rep m' ∧
        m'.config = ((bufs.map parseLine).foldl configStep (state.1, m.config)).2 := by
    intro bufs
    induction bufs with
    | nil => exact fun _ m hm => ⟨m, hm, rfl⟩
    | cons buf bufs ih =>
      intro state m hm
      obtain ⟨m₁, hrep₁, hstep₁⟩ := config_readLine hm buf
      obtain ⟨m₂, hrep₂, hconfig₂⟩ := ih (readLine state buf) m₁ hrep₁
      refine ⟨m₂, hrep₂, ?_⟩
      rw [hconfig₂, hstep₁]
      rfl
  obtain ⟨m, hrep, hconfig⟩ := hfold (chunks lf fgetsRoom text) ([], new) OrderedMap.empty rep_new
  refine ⟨wf_of_rep hrep, ?_⟩
  rw [parses, foldl_configStep_filter]
  exact (config_of_rep hrep).trans hconfig

/-! ## The printed text -/

/-- The lines of a section. -/
def sectionText (s : Str) (es : List (Str × Str)) : Str :=
  if es = [] then [] else headingLine s ++ es.flatMap (fun e => entryLine e.1 e.2) ++ [lf]

theorem text_eq (h : f.Wf) : f.text = f.config.flatMap fun e => sectionText e.1 e.2 := by
  have hkey : ∀ (s : Str) (key : Key), key ∈ f.keys →
      keyText s key = sectionText s (key.names.zip key.values) := by
    intro s key hmem
    have hlen := h.length_values key hmem
    have hnil : key.names = [] ↔ key.names.zip key.values = [] := by
      rw [← List.length_eq_zero_iff, ← List.length_eq_zero_iff, List.length_zip]
      omega
    simp only [keyText, sectionText, hnil]
  have hconfig : f.config = (f.names.zip f.keys).map fun e => (e.1, e.2.names.zip e.2.values) := by
    rw [config, List.zip_map_right]
    rfl
  rw [text, hconfig, List.flatMap_map]
  apply List.flatMap_congr
  intro e he
  exact hkey e.1 e.2 (List.of_mem_zip he).2

/-- A configuration whose printed lines are lines. -/
structure Lined (cfg : Configuration) : Prop where
  heading : ∀ e ∈ cfg, HeadingOk e.1
  printable : ∀ e ∈ cfg, ∀ p ∈ e.2, Printable p.1 p.2

theorem headingLine_eq {s : Str} (h : HeadingOk s) :
    ∃ x, headingLine s = x ++ [lf] ∧ lf ∉ x := by
  refine ⟨[lbracket] ++ s ++ [rbracket], ?_, ?_⟩
  · rw [headingLine, Bytes.cString_eq_self h.zero, List.append_assoc ([lbracket] ++ s)]
    rfl
  · simp only [List.mem_append, List.mem_singleton, h.lf, or_false, not_or]
    exact ⟨by decide, by decide⟩

/-- The entries of a section are read one by one. -/
theorem parses_entries {es : List (Str × Str)} (h : ∀ p ∈ es, Printable p.1 p.2) (text : Str) :
    parses (es.flatMap (fun p => entryLine p.1 p.2) ++ text) =
      es.flatMap (fun p => parses (entryLine p.1 p.2)) ++ parses text := by
  induction es with
  | nil => rfl
  | cons p es ih =>
    have hp := h p List.mem_cons_self
    have hrest := ih fun q hq => h q (List.mem_cons_of_mem p hq)
    have hline := parses_line_append hp.lf_notMem (es.flatMap (fun p => entryLine p.1 p.2) ++ text)
    rw [List.flatMap_cons, List.flatMap_cons, List.append_assoc, List.append_assoc, hp.entryLine_eq,
      hline, hrest]

/-- **The text is read line by line.** -/
theorem parses_text {cfg : Configuration} (h : Lined cfg) :
    parses (cfg.flatMap fun e => sectionText e.1 e.2) =
      cfg.flatMap fun e => if e.2 = [] then [] else
        .heading e.1 :: e.2.flatMap fun p => parses (entryLine p.1 p.2) := by
  induction cfg with
  | nil => rfl
  | cons e cfg ih =>
    have hrest := ih ⟨fun d hd => h.heading d (List.mem_cons_of_mem e hd),
      fun d hd => h.printable d (List.mem_cons_of_mem e hd)⟩
    rw [List.flatMap_cons, List.flatMap_cons]
    by_cases hnil : e.2 = []
    · rw [sectionText, if_pos hnil, if_pos hnil, List.nil_append, List.nil_append]
      exact hrest
    · obtain ⟨x, hx, hlf⟩ := headingLine_eq (h.heading e List.mem_cons_self)
      have hheading := parses_headingLine (h.heading e List.mem_cons_self)
      have hentries := parses_entries (h.printable e List.mem_cons_self)
        ([lf] ++ cfg.flatMap fun e => sectionText e.1 e.2)
      have hblank := parses_line_append (x := []) List.not_mem_nil
        (cfg.flatMap fun e => sectionText e.1 e.2)
      rw [List.nil_append, parses_lf, List.nil_append] at hblank
      rw [hx] at hheading
      rw [sectionText, if_neg hnil, if_neg hnil, hx]
      simp only [List.append_assoc] at hentries hblank ⊢
      rw [← List.append_assoc, parses_line_append hlf, hheading, hentries, hblank, hrest]
      rfl

/-! ## Rebuilding a configuration -/

/-- The lines that stand for an entry list. -/
def entries (es : List (Str × Str)) : List Line :=
  es.map fun p => .entry p.1 p.2

/-- Setting a value in the last section. -/
theorem configSet_last {acc : Configuration} {s : Str} (hs : s ∉ acc.map Prod.fst)
    {done : List (Str × Str)} {k : Str} (hk : k ∉ done.map Prod.fst) (v : Str) :
    configSet s k v (acc ++ [(s, done)]) = acc ++ [(s, done ++ [(k, v)])] := by
  have hlookup : assocLookup s (acc ++ [(s, done)]) = some done := by
    rw [assocLookup_append hs, assocLookup_cons_self]
  have hone : assocInsert s (done ++ [(k, v)]) [(s, done)] = [(s, done ++ [(k, v)])] := if_pos rfl
  rw [configSet, hlookup, Option.getD_some, assocInsert_of_notMem hk, assocInsert_append hs, hone]

theorem configSet_new {acc : Configuration} {s : Str} (hs : s ∉ acc.map Prod.fst) (k v : Str) :
    configSet s k v acc = acc ++ [(s, [(k, v)])] := by
  have hlookup : assocLookup s acc = none := lookup_eq_none_iff_notMem.mpr hs
  rw [configSet, hlookup, Option.getD_none, assocInsert_of_notMem hs]
  rfl

/-- The rest of a section. -/
theorem foldl_entries {acc : Configuration} {s : Str} (hs : s ∉ acc.map Prod.fst)
    (done es : List (Str × Str)) (hnodup : ((done ++ es).map Prod.fst).Nodup) :
    (entries es).foldl configStep (s, acc ++ [(s, done)]) = (s, acc ++ [(s, done ++ es)]) := by
  induction es generalizing done with
  | nil => rw [List.append_nil]; rfl
  | cons p es ih =>
    obtain ⟨k, v⟩ := p
    have hk : k ∉ done.map Prod.fst := by
      rw [List.map_append, List.map_cons] at hnodup
      intro hmem
      exact (List.nodup_append.mp hnodup).2.2 k hmem k List.mem_cons_self rfl
    have hstep : configStep (s, acc ++ [(s, done)]) (.entry k v) =
        (s, acc ++ [(s, done ++ [(k, v)])]) := by
      rw [configStep, configSet_last hs hk]
    rw [entries, List.map_cons, List.foldl_cons, hstep]
    have hrest := ih (done ++ [(k, v)]) (by rw [List.append_assoc]; exact hnodup)
    rw [List.append_assoc] at hrest
    exact hrest

/-- **Reading the kept lines of a configuration rebuilds it.** -/
theorem foldl_config (acc cfg : Configuration) (keyname : Str)
    (hnodup : ((acc ++ cfg).map Prod.fst).Nodup)
    (hentries : ∀ e ∈ cfg, e.2 ≠ [] ∧ (e.2.map Prod.fst).Nodup) :
    ((cfg.flatMap fun e => .heading e.1 :: entries e.2).foldl configStep (keyname, acc)).2 =
      acc ++ cfg := by
  induction cfg generalizing acc keyname with
  | nil => rw [List.append_nil]; rfl
  | cons e cfg ih =>
    obtain ⟨s, es⟩ := e
    obtain ⟨hne, hes⟩ := hentries (s, es) List.mem_cons_self
    have hs : s ∉ acc.map Prod.fst := by
      rw [List.map_append, List.map_cons] at hnodup
      intro hmem
      exact (List.nodup_append.mp hnodup).2.2 s hmem s List.mem_cons_self rfl
    obtain ⟨⟨k, v⟩, es, rfl⟩ := List.exists_cons_of_ne_nil hne
    have hsection : (Line.heading s :: entries ((k, v) :: es)).foldl configStep (keyname, acc) =
        (s, acc ++ [(s, (k, v) :: es)]) := by
      have hfirst : configStep (s, acc) (.entry k v) = (s, acc ++ [(s, [(k, v)])]) := by
        rw [configStep, configSet_new hs]
      have hrest := foldl_entries hs [(k, v)] es hes
      rw [entries, List.map_cons, List.foldl_cons, List.foldl_cons]
      exact (congrArg (fun st => (entries es).foldl configStep st) hfirst).trans hrest
    rw [List.flatMap_cons, List.foldl_append, hsection,
      ih _ _ (by rw [List.append_assoc]; exact hnodup)
        fun d hd => hentries d (List.mem_cons_of_mem _ hd), List.append_assoc]
    rfl

/-! ## What a text can say -/

def configWeight (cfg : Configuration) : ℕ :=
  (cfg.map fun e => linesWeight (entries e.2)).sum

theorem linesWeight_entries (es : List (Str × Str)) :
    linesWeight (entries es) = (es.map fun p => 2 * p.2.length + p.1.length).sum := by
  rw [linesWeight, entries, List.map_map]
  rfl

/-- Setting a value adds at most its own weight. -/
theorem configWeight_set (s k v : Str) (cfg : Configuration) :
    configWeight (configSet s k v cfg) ≤ configWeight cfg + (2 * v.length + k.length) := by
  have houter := sum_assocInsert (fun e : Str × List (Str × Str) => linesWeight (entries e.2)) s
    (assocInsert k v ((assocLookup s cfg).getD [])) cfg
  have hinner := sum_assocInsert (fun p : Str × Str => 2 * p.2.length + p.1.length) k v
    ((assocLookup s cfg).getD [])
  have hold : ((assocLookup s cfg).map fun es => linesWeight (entries es)).getD 0 =
      linesWeight (entries ((assocLookup s cfg).getD [])) := by
    cases assocLookup s cfg <;> rfl
  simp only [← linesWeight_entries] at hinner
  simp only [hold] at houter
  rw [configWeight, configSet, configWeight]
  omega

/-- What is read says at most as much as the lines. -/
theorem configWeight_fold (lines : List Line) (state : Str × Configuration) :
    configWeight (lines.foldl configStep state).2 ≤ configWeight state.2 + linesWeight lines := by
  induction lines generalizing state with
  | nil => exact Nat.le_refl _
  | cons line lines ih =>
    have hrest := ih (configStep state line)
    have hcons : linesWeight (line :: lines) = line.weight + linesWeight lines := by
      simp [linesWeight]
    have hstep : configWeight (configStep state line).2 ≤ configWeight state.2 + line.weight := by
      cases line with
      | skip => exact Nat.le_refl _
      | heading s => exact Nat.le_refl _
      | entry n v => exact configWeight_set state.1 n v state.2
    rw [List.foldl_cons]
    omega

/-! ## Configurations that were read -/

/-- What is known of a line that was read. -/
def LineOk : Line → Prop
  | .skip => True
  | .heading s => HeadingOk s
  | .entry n v => FromChunk n v

/-- What is known of a configuration that was read. -/
def Loaded (cfg : Configuration) : Prop :=
  ∀ e ∈ cfg, HeadingOk e.1 ∧ e.2 ≠ [] ∧ ∀ p ∈ e.2, FromChunk p.1 p.2

theorem Loaded.lined {cfg : Configuration} (h : Loaded cfg) : Lined cfg :=
  ⟨fun e he => (h e he).1, fun e he p hp => ((h e he).2.2 p hp).printable⟩

theorem loaded_configSet {cfg : Configuration} (h : Loaded cfg) {s n v : Str} (hs : HeadingOk s)
    (hentry : FromChunk n v) : Loaded (configSet s n v cfg) := by
  intro e he
  rcases mem_assocInsert he with rfl | hmem
  · refine ⟨hs, assocInsert_ne_nil _ _ _, ?_⟩
    intro p hp
    rcases mem_assocInsert hp with rfl | hold
    · exact hentry
    · cases hlookup : assocLookup s cfg with
      | none =>
        rw [hlookup] at hold
        cases hold
      | some es =>
        rw [hlookup] at hold
        exact (h (s, es) (mem_of_assocLookup hlookup)).2.2 p hold
  · exact h e hmem

theorem loaded_fold (lines : List Line) (state : Str × Configuration)
    (hlines : ∀ line ∈ lines, LineOk line) (hs : HeadingOk state.1) (h : Loaded state.2) :
    Loaded (lines.foldl configStep state).2 := by
  induction lines generalizing state with
  | nil => exact h
  | cons line lines ih =>
    have hline := hlines line List.mem_cons_self
    have hrest := fun l hl => hlines l (List.mem_cons_of_mem line hl)
    cases line with
    | skip => exact ih state hrest hs h
    | heading s => exact ih (s, state.2) hrest hline h
    | entry n v => exact ih (state.1, _) hrest hs (loaded_configSet h hs hline)

theorem headingOk_nil : HeadingOk [] :=
  ⟨trimmed_nil, List.not_mem_nil, List.not_mem_nil, by decide⟩

theorem ok_of_mem_parses {text : Str} {line : Line} (h : line ∈ parses text) : LineOk line := by
  obtain ⟨chunk, hchunk, hparse⟩ := List.mem_map.mp (List.mem_of_mem_filter h)
  cases line with
  | skip => trivial
  | heading s => exact headingOk_of_parseLine hchunk hparse
  | entry n v => exact fromChunk_of_parseLine hchunk hparse

/-- What is read from a file can be printed. -/
theorem loaded_readText (text : Str) : Loaded (new.readText text).config := by
  rw [(config_readText text).2]
  exact loaded_fold _ _ (fun _ => ok_of_mem_parses) headingOk_nil nofun

/-! ## Saving and loading -/

theorem nodup_config (h : f.Wf) :
    (f.config.map Prod.fst).Nodup ∧ ∀ e ∈ f.config, (e.2.map Prod.fst).Nodup := by
  refine ⟨(columns_of_wf h).1 ▸ h.nodup_names, ?_⟩
  intro e he
  obtain ⟨key, hkey, heq⟩ := List.mem_map.mp (List.of_mem_zip he).2
  rw [← heq, List.map_fst_zip (Nat.le_of_eq (h.length_values key hkey))]
  exact h.nodup_values key hkey

/-- **With every entry kept, the text is read back as the configuration.** -/
theorem readText_text (h : f.Wf) (hlined : Lined f.config)
    (hentries : ∀ e ∈ f.config, e.2 ≠ [] ∧ ∀ p ∈ e.2, ChunkName p.1 ∧ Kept p.1 p.2) :
    (new.readText f.text).names = f.names ∧ (new.readText f.text).keys = f.keys := by
  obtain ⟨hwf', hread⟩ := config_readText f.text
  obtain ⟨hnodup, hnodups⟩ := nodup_config h
  apply eq_of_config h hwf'
  have hlines : parses f.text = f.config.flatMap fun e => .heading e.1 :: entries e.2 := by
    rw [text_eq h, parses_text hlined]
    apply List.flatMap_congr
    intro e he
    obtain ⟨hne, hkept⟩ := hentries e he
    have hone : e.2.flatMap (fun p => parses (entryLine p.1 p.2)) =
        e.2.flatMap fun p => [.entry p.1 p.2] := by
      apply List.flatMap_congr
      intro p hp
      exact parses_entryLine (hlined.printable e he p hp) (hkept p hp).1 (hkept p hp).2
    rw [if_neg hne, hone, ← List.map_eq_flatMap]
    rfl
  rw [hread, hlines]
  exact foldl_config [] f.config [] hnodup fun e he => ⟨(hentries e he).1, hnodups e he⟩

theorem linesWeight_flatMap {α : Type*} (g : α → List Line) (as : List α) :
    linesWeight (as.flatMap g) = (as.map fun a => linesWeight (g a)).sum := by
  induction as with
  | nil => rfl
  | cons a as ih => rw [List.flatMap_cons, linesWeight_append, ih, List.map_cons, List.sum_cons]

/-- The lines of a section say at most what the section says, and less if an entry is not kept. -/
theorem linesWeight_section {es : List (Str × Str)} (h : ∀ p ∈ es, FromChunk p.1 p.2) :
    linesWeight (es.flatMap fun p => parses (entryLine p.1 p.2)) ≤ linesWeight (entries es) ∧
      ((∃ p ∈ es, ¬Kept p.1 p.2) →
        linesWeight (es.flatMap fun p => parses (entryLine p.1 p.2)) < linesWeight (entries es)) := by
  rw [linesWeight_entries, linesWeight_flatMap]
  refine ⟨List.sum_le_sum fun p hp => (weight_entryLine (h p hp)).1, ?_⟩
  rintro ⟨p, hp, hkept⟩
  exact List.sum_lt_sum _ _ (fun p hp => (weight_entryLine (h p hp)).1)
    ⟨p, hp, (weight_entryLine (h p hp)).2 hkept⟩

/-- **With an entry that is not kept, the text says less than the configuration.** -/
theorem linesWeight_text_lt {cfg : Configuration} (h : Loaded cfg)
    (hnot : ∃ e ∈ cfg, ∃ p ∈ e.2, ¬Kept p.1 p.2) :
    linesWeight (parses (cfg.flatMap fun e => sectionText e.1 e.2)) < configWeight cfg := by
  have hsection : ∀ e ∈ cfg, linesWeight (if e.2 = [] then [] else
      .heading e.1 :: e.2.flatMap fun p => parses (entryLine p.1 p.2)) =
        linesWeight (e.2.flatMap fun p => parses (entryLine p.1 p.2)) := by
    intro e he
    rw [if_neg (h e he).2.1, ← List.singleton_append, linesWeight_append]
    exact Nat.zero_add _
  rw [parses_text h.lined, linesWeight_flatMap, configWeight, List.map_congr_left hsection]
  obtain ⟨e, he, hlost⟩ := hnot
  exact List.sum_lt_sum _ _ (fun e he => (linesWeight_section (h e he).2.2).1)
    ⟨e, he, (linesWeight_section (h e he).2.2).2 hlost⟩

/-- **Saving a loaded configuration keeps it exactly when every entry is kept.** -/
theorem readText_text_iff (F : Str) :
    ((new.readText (new.readText F).text).names = (new.readText F).names ∧
        (new.readText (new.readText F).text).keys = (new.readText F).keys) ↔
      ∀ e ∈ (new.readText F).config, ∀ p ∈ e.2, Kept p.1 p.2 := by
  have hwf := (config_readText F).1
  have hloaded := loaded_readText F
  constructor
  · intro ⟨hnames, hkeys⟩
    by_contra hnot
    push Not at hnot
    have hless := linesWeight_text_lt hloaded hnot
    have hmost := configWeight_fold (parses (new.readText F).text) ([], [])
    have hsame := config_congr hnames hkeys
    rw [(config_readText _).2] at hsame
    rw [← text_eq hwf] at hless
    rw [hsame] at hmost
    have hnone : configWeight [] = 0 := rfl
    simp only [hnone, Nat.zero_add] at hmost
    omega
  · intro hkept
    exact readText_text hwf hloaded.lined fun e he =>
      ⟨(hloaded e he).2.1, fun p hp => ⟨((hloaded e he).2.2 p hp).chunkName, hkept e he p hp⟩⟩

end IniFile

end Pdk.Config
