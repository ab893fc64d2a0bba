import Pdk.Config.IniFileRoundTrip

/-!
# Reading a file line by line

`read_file` is meant to process the lines of the file. What it processes are the chunks that `fgets`
fits into its buffer: of a line of more than 2047 bytes, each further chunk is taken for a line of
its own. `linesConfig` is the configuration that the lines of a file describe, each of them taken as
a whole. It is what `read_file` builds as long as every line fits into the buffer (`parses_lines`),
and one line that is a byte longer can be enough to make a difference (`readFile_lines_iff`).
-/

namespace Pdk.Config

open Foundation

/-! ## What the lines say -/

/-- The configuration that the lines of a text describe: each line is processed once and as a whole,
    and a later assignment replaces an earlier one. -/
def linesConfig (text : Str) : Configuration :=
  (((text.splitOn lf).map parseWhole).foldl configStep ([], [])).2

/-- The object that holds a configuration. -/
def IniFile.ofConfig (cfg : Configuration) : IniFile :=
  ⟨cfg.map fun e => keyOf e.2, cfg.map Prod.fst, ""⟩

/-! ## Chunks are lines -/

/-- The last line has no newline behind it. -/
theorem parses_last {x : Str} (hlf : lf ∉ x) (hzero : 0 ∉ x) (hlen : x.length ≤ fgetsRoom) :
    parses x = [parseWhole x].filter (· ≠ .skip) := by
  by_cases hnil : x = []
  · subst hnil
    decide
  · have hparse : parseLine x = parseWhole x := by
      rw [parseLine, strip_piece hlf, Bytes.cString_eq_self hzero, parseWhole]
    rw [parses, chunks_last hlf hnil hlen, List.map_singleton, hparse]

/-- **Lines that fit are processed one by one.** -/
theorem parses_lines {text : Str} (hzero : 0 ∉ text)
    (hlines : ∀ x ∈ text.splitOn lf, x.length ≤ fgetsRoom) :
    parses text = ((text.splitOn lf).map parseWhole).filter (· ≠ .skip) := by
  obtain ⟨k, hk⟩ : ∃ k, text.length = k := ⟨_, rfl⟩
  induction k using Nat.strongRecOn generalizing text with
  | _ k ih =>
    by_cases hlf : lf ∈ text
    · -- the first line, and what is behind its newline
      obtain ⟨x, rest, rfl, hx⟩ := List.eq_append_cons_of_mem hlf
      rw [List.splitOn_append_cons_self_of_not_mem hx] at hlines ⊢
      have hxzero : 0 ∉ x := fun h => hzero (List.mem_append_left _ h)
      have hrestzero : 0 ∉ rest := fun h =>
        hzero (List.mem_append_right x (List.mem_cons_of_mem lf h))
      have hshort := parses_short hx hxzero (hlines x List.mem_cons_self)
      have hrest := ih rest.length (by simp at hk; omega) hrestzero
        (fun y hy => hlines y (List.mem_cons_of_mem x hy)) rfl
      have happend := parses_line_append hx rest
      rw [List.append_assoc, List.singleton_append] at happend
      rw [happend, hshort, hrest, ← List.filter_append, List.map_cons, List.singleton_append]
    · rw [List.splitOn_eq_singleton hlf] at hlines ⊢
      exact parses_last hlf hzero (hlines text (List.mem_singleton_self text))

namespace IniFile

theorem eq_ofConfig {f : IniFile} (h : f.Wf) (herror : f.error = "") : f = ofConfig f.config := by
  obtain ⟨hnames, hkeys⟩ := columns_of_wf h
  cases f with
  | mk keys names error =>
    rw [ofConfig, ← hnames, ← hkeys]
    exact congrArg (IniFile.mk keys names) herror

theorem error_setValue (f : IniFile) (s n v : Str) : (f.setValue s n v true).2.error = f.error := by
  have hset : ∀ (g : IniFile) (keynum : ℤ), (g.setValueIn keynum n v true).2.error = g.error := by
    intro g keynum
    simp only [setValueIn, setKeyAt]
    split <;> rfl
  simp only [setValue]
  split
  · exact hset _ _
  · exact hset _ _

/-- Reading sets no error. -/
theorem error_readText (f : IniFile) (text : Str) : (f.readText text).error = f.error := by
  have hfold : ∀ (bufs : List Str) (state : Str × IniFile),
      (bufs.foldl readLine state).2.error = state.2.error := by
    intro bufs
    induction bufs with
    | nil => exact fun _ => rfl
    | cons buf bufs ih =>
      intro state
      rw [List.foldl_cons, ih, readLine]
      cases parseLine buf with
      | skip => rfl
      | heading s => rfl
      | entry n v => exact error_setValue _ _ _ _
  exact hfold _ _

/-- Files with lines that fit. -/
theorem readFile_lines {text : Str} (hzero : 0 ∉ text)
    (hlines : ∀ x ∈ text.splitOn lf, x.length ≤ fgetsRoom) :
    new.readFile (some text) = (true, ofConfig (linesConfig text)) := by
  obtain ⟨hwf, hconfig⟩ := config_readText text
  have hobject := eq_ofConfig hwf (error_readText new text)
  rw [hconfig, parses_lines hzero hlines, foldl_configStep_filter] at hobject
  exact congrArg (Prod.mk true) hobject

/-- A comment of 2048 bytes whose last byte is not a `#`. -/
def longComment : Str :=
  List.replicate fgetsRoom hash ++ [120]

theorem mem_longComment {c : UInt8} (h : c ∈ longComment ++ [lf]) : c = hash ∨ c = 120 ∨ c = lf := by
  rcases List.mem_append.mp h with hcomment | hlf
  · rcases List.mem_append.mp hcomment with hhash | hlast
    · exact .inl (List.eq_of_mem_replicate hhash)
    · exact .inr (.inl (List.mem_singleton.mp hlast))
  · exact .inr (.inr (List.mem_singleton.mp hlf))

theorem zero_notMem_longComment : 0 ∉ longComment ++ [lf] := fun h =>
  absurd (mem_longComment h) (by decide)

theorem lf_notMem_longComment : lf ∉ longComment := by
  intro h
  rcases List.mem_append.mp h with hhash | hlast
  · exact absurd (List.eq_of_mem_replicate hhash) (by decide)
  · exact absurd (List.mem_singleton.mp hlast) (by decide)

theorem splitOn_longComment : (longComment ++ [lf]).splitOn lf = [longComment, []] :=
  List.splitOn_append_cons_self_of_not_mem lf_notMem_longComment []

theorem linesConfig_longComment : linesConfig (longComment ++ [lf]) = [] := by
  have hcomment : parseWhole longComment = .skip := parseWhole_comment rfl
  have hempty : parseWhole [] = .skip := by decide
  rw [linesConfig, splitOn_longComment, List.map_cons, hcomment, List.map_singleton, hempty]
  rfl

/-- The last byte is read as the name of a value. -/
theorem parses_longComment : parses (longComment ++ [lf]) = [.entry [120] []] := by
  have hzero : 0 ∉ longComment := fun h => zero_notMem_longComment (List.mem_append_left [lf] h)
  have hlen : (List.replicate fgetsRoom hash).length = fgetsRoom := List.length_replicate
  have htake : longComment.take fgetsRoom = List.replicate fgetsRoom hash := List.take_left' hlen
  have hdrop : longComment.drop fgetsRoom = [120] := List.drop_left' hlen
  have hlong : fgetsRoom < longComment.length := by
    rw [longComment, List.length_append, hlen]
    exact Nat.lt_succ_self fgetsRoom
  have hfirst : parseWhole (List.replicate fgetsRoom hash) = .skip := parseWhole_comment rfl
  have hrest : parseWhole [120] = .entry [120] [] := by decide
  rw [parses_long lf_notMem_longComment hzero hlong (by rw [hdrop]; decide), htake, hdrop, hfirst,
    hrest]
  rfl

theorem readFile_longComment :
    new.readFile (some (longComment ++ [lf])) ≠
      (true, ofConfig (linesConfig (longComment ++ [lf]))) := by
  intro hread
  have hcode : (new.readFile (some (longComment ++ [lf]))).2.config = [([], [([120], [])])] := by
    rw [readFile, (config_readText _).2, parses_longComment]
    rfl
  rw [hread, linesConfig_longComment] at hcode
  cases hcode

/-- **`read_file` processes lines up to the length of its buffer**: the files without a NUL and with
    lines of at most `n` bytes are all read line by line exactly when `n` is at most 2047. -/
theorem readFile_lines_iff (n : ℕ) :
    (∀ text : Str, 0 ∉ text → (∀ x ∈ text.splitOn lf, x.length ≤ n) →
        new.readFile (some text) = (true, ofConfig (linesConfig text))) ↔
      n ≤ fgetsRoom := by
  constructor
  · intro hread
    by_contra hlong
    refine readFile_longComment (hread _ zero_notMem_longComment ?_)
    rw [splitOn_longComment]
    intro x hx
    rcases List.mem_cons.mp hx with rfl | hx
    · rw [longComment, List.length_append, List.length_replicate, List.length_singleton]
      omega
    · rw [List.mem_singleton.mp hx]
      exact Nat.zero_le n
  · intro hn text hzero hlines
    exact readFile_lines hzero fun x hx => Nat.le_trans (hlines x hx) hn

/-- The file holds one comment, and `read_file` finds a value in it. -/
theorem readFile_lines_counterexample :
    0 ∉ longComment ++ [lf] ∧ linesConfig (longComment ++ [lf]) = [] ∧
      new.readFile (some (longComment ++ [lf])) ≠
        (true, ofConfig (linesConfig (longComment ++ [lf]))) :=
  ⟨zero_notMem_longComment, linesConfig_longComment, readFile_longComment⟩

end IniFile

end Pdk.Config
