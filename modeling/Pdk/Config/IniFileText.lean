import Mathlib.Algebra.GroupWithZero.Nat
import Pdk.Config.IniFile

/-!
# The lines of an `IniFile`

What `read_file` makes of the lines that `write_file` prints, and of any other chunk. `Printable` are
the names and values without characters that the format uses for itself, `Kept` the further
conditions under which the printed line is read back as it was meant (`parses_entryLine`). A line
that is not kept is read as less than it was: its `weight` drops (`weight_entryLine`).
-/

namespace Pdk.Config

open Foundation

/-! ## Trimming -/

theorem trimRight_eq_self {c : UInt8} {s : Str} (h : s.getLast? ≠ some c) : trimRight c s = s := by
  apply (List.rdropWhile_eq_self_iff (p := fun x => decide (x = c))).mpr
  intro hne hlast
  apply h
  rw [List.getLast?_eq_some_getLast hne, of_decide_eq_true hlast]

theorem trimRight_append_replicate (c : UInt8) (s : Str) (k : ℕ) :
    trimRight c (s ++ List.replicate k c) = trimRight c s := by
  induction k with
  | zero => rw [List.replicate_zero, List.append_nil]
  | succ k ih =>
    rw [List.replicate_succ', ← List.append_assoc, trimRight,
      List.rdropWhile_concat_pos _ _ _ (by simp)]
    exact ih

theorem getLast?_trimRight (c : UInt8) (s : Str) : (trimRight c s).getLast? ≠ some c := by
  intro hlast
  have hne : trimRight c s ≠ [] := by
    intro hnil
    rw [hnil] at hlast
    cases hlast
  have hnot := List.rdropWhile_last_not (fun x => decide (x = c)) s hne
  rw [List.getLast?_eq_some_getLast hne, Option.some.injEq] at hlast
  exact hnot (decide_eq_true hlast)

theorem isPrefix_trimRight (c : UInt8) (s : Str) : trimRight c s <+: s :=
  List.rdropWhile_prefix _ _

theorem isSuffix_trimLeft (c : UInt8) (s : Str) : trimLeft c s <:+ s :=
  List.dropWhile_suffix _

/-- Only the last part of a string is trimmed, up to another character. -/
theorem trimRight_append {c : UInt8} {a : Str} (h : a.getLast? ≠ some c) (b : Str) :
    trimRight c (a ++ b) = a ++ trimRight c b := by
  induction b using List.reverseRecOn with
  | nil =>
    rw [List.append_nil, trimRight_eq_self h]
    exact (List.append_nil a).symm
  | append_singleton b d ih =>
    by_cases hd : d = c
    · subst hd
      have hone := trimRight_append_replicate d (a ++ b) 1
      have hone' := trimRight_append_replicate d b 1
      rw [List.replicate_one] at hone hone'
      rw [← List.append_assoc, hone, hone', ih]
    · have hlast : (a ++ (b ++ [d])).getLast? ≠ some c := by simpa using hd
      have hlast' : (b ++ [d]).getLast? ≠ some c := by simpa using hd
      rw [trimRight_eq_self hlast, trimRight_eq_self hlast']

theorem trimLeft_eq_self {c : UInt8} {s : Str} (h : s.head? ≠ some c) : trimLeft c s = s := by
  cases s with
  | nil => rfl
  | cons d s =>
    have hd : ¬d = c := fun heq => h (by rw [heq]; rfl)
    rw [trimLeft, List.dropWhile_cons_of_neg (by simpa using hd)]

theorem trimLeft_replicate_append (c : UInt8) (s : Str) (k : ℕ) :
    trimLeft c (List.replicate k c ++ s) = trimLeft c s := by
  induction k with
  | zero => rfl
  | succ k ih =>
    rw [List.replicate_succ, List.cons_append, trimLeft,
      List.dropWhile_cons_of_pos (by simp)]
    exact ih

theorem head?_trimLeft (c : UInt8) (s : Str) : (trimLeft c s).head? ≠ some c := by
  induction s with
  | nil => nofun
  | cons d s ih =>
    by_cases hd : d = c
    · rw [trimLeft, List.dropWhile_cons_of_pos (by simpa using hd)]
      exact ih
    · rw [trimLeft, List.dropWhile_cons_of_neg (by simpa using hd)]
      simpa using hd

/-- Without spaces at its ends. -/
def Trimmed (s : Str) : Prop :=
  s.head? ≠ some space ∧ s.getLast? ≠ some space

instance (s : Str) : Decidable (Trimmed s) :=
  inferInstanceAs (Decidable (_ ∧ _))

theorem trimmed_nil : Trimmed [] :=
  ⟨nofun, nofun⟩

theorem trimmed_trim (s : Str) : Trimmed (trim s) := by
  refine ⟨?_, getLast?_trimRight space _⟩
  intro hhead
  obtain ⟨rest, hrest⟩ := isPrefix_trimRight space (trimLeft space s)
  apply head?_trimLeft space s
  rw [← hrest, List.head?_append, trim] at *
  rw [hhead]
  rfl

/-- `Trim` removes the spaces around a string. -/
theorem trim_spaces {s : Str} (h : Trimmed s) (j k : ℕ) :
    trim (List.replicate j space ++ s ++ List.replicate k space) = s := by
  rw [trim, List.append_assoc, trimLeft_replicate_append]
  cases s with
  | nil =>
    have hall : trimLeft space (List.replicate k space) = [] := by
      have hnone := trimLeft_replicate_append space [] k
      rw [List.append_nil] at hnone
      exact hnone
    rw [List.nil_append, hall]
    rfl
  | cons c s =>
    have hhead : (c :: s ++ List.replicate k space).head? ≠ some space := h.1
    rw [trimLeft_eq_self hhead, trimRight_append_replicate, trimRight_eq_self h.2]

theorem trim_eq_self {s : Str} (h : Trimmed s) : trim s = s := by
  have hspaces := trim_spaces h 0 0
  simpa using hspaces

theorem isInfix_trim (s : Str) : trim s <:+: s :=
  (isPrefix_trimRight space _).isInfix.trans (isSuffix_trimLeft space s).isInfix

theorem mem_of_mem_trim {s : Str} {c : UInt8} (h : c ∈ trim s) : c ∈ s :=
  (isInfix_trim s).subset h

theorem length_trim_le (s : Str) : (trim s).length ≤ s.length :=
  (isInfix_trim s).length_le

/-! ## The end of a line -/

/-- A piece of a line ends at its terminator, and loses its carriage returns. -/
theorem strip_piece {x : Str} (h : lf ∉ x) : strip x = trimRight cr (Bytes.cString x) := by
  have hlast : (Bytes.cString x).getLast? ≠ some lf := by
    intro hlast
    exact h ((List.takeWhile_prefix _).subset (List.mem_of_getLast? hlast))
  rw [strip, trimRight_eq_self hlast]

theorem strip_piece_lf {x : Str} (h : lf ∉ x) :
    strip (x ++ [lf]) = trimRight cr (Bytes.cString x) := by
  by_cases hzero : 0 ∈ x
  · -- the terminator comes before the newline
    have hcut : Bytes.cString (x ++ [lf]) = Bytes.cString x := by
      rw [Bytes.cString, Bytes.cString]
      induction x with
      | nil => cases hzero
      | cons c x ih =>
        by_cases hc : c = 0
        · rw [List.cons_append, List.takeWhile_cons_of_neg (by simpa using hc),
            List.takeWhile_cons_of_neg (by simpa using hc)]
        · have hrest : 0 ∈ x := by
            rcases List.mem_cons.mp hzero with heq | hmem
            · exact absurd heq.symm hc
            · exact hmem
          rw [List.cons_append, List.takeWhile_cons_of_pos (by simpa using hc),
            List.takeWhile_cons_of_pos (by simpa using hc),
            ih (fun hmem => h (List.mem_cons_of_mem c hmem)) hrest]
    rw [← strip_piece h, strip, strip, hcut]
  · have hwhole : Bytes.cString (x ++ [lf]) = x ++ [lf] := by
      apply Bytes.cString_eq_self
      simpa [lf] using hzero
    have hlast : x.getLast? ≠ some lf := fun hlast => h (List.mem_of_getLast? hlast)
    have htrim : trimRight lf (x ++ List.replicate 1 lf) = x := by
      rw [trimRight_append_replicate, trimRight_eq_self hlast]
    rw [strip, hwhole, Bytes.cString_eq_self hzero]
    exact congrArg (trimRight cr) htrim

/-! ## Parsing -/

/-- The first `=` is behind a name and its padding. -/
theorem padded_ne_equals {n : Str} (hequals : equals ∉ n) (k : ℕ) :
    ∀ c ∈ n ++ List.replicate k space, decide (c ≠ equals) = true := by
  intro c hc
  rcases List.mem_append.mp hc with hn | hspace
  · exact decide_eq_true fun heq => hequals (heq ▸ hn)
  · rw [List.eq_of_mem_replicate hspace]
    decide

theorem trim_padded {n : Str} (htrimmed : Trimmed n) (k : ℕ) :
    trim (n ++ List.replicate k space) = n := by
  have hspaces := trim_spaces htrimmed 0 k
  simpa using hspaces

/-- A name, its padding and the first `=`: what precedes it is the name. -/
theorem parseEntry_of_equals {n : Str} (htrimmed : Trimmed n) (hequals : equals ∉ n) (hne : n ≠ [])
    (k : ℕ) (y : Str) :
    parseEntry (n ++ List.replicate k space ++ equals :: y) =
      .entry n (trim (y.takeWhile (· ≠ hash))) := by
  have hbefore := padded_ne_equals hequals k
  have htake : (n ++ List.replicate k space ++ equals :: y).takeWhile (· ≠ equals) =
      n ++ List.replicate k space := by
    rw [List.takeWhile_append_of_pos hbefore, List.takeWhile_cons_of_neg (by simp), List.append_nil]
  have hdrop : (n ++ List.replicate k space ++ equals :: y).dropWhile (· ≠ equals) = equals :: y := by
    rw [List.dropWhile_append_of_pos hbefore, List.dropWhile_cons_of_neg (by simp)]
  have hname := trim_padded htrimmed k
  rw [parseEntry, htake, hdrop, hname]
  simp [hne]

/-- A line without `=` is a name. -/
theorem parseEntry_of_name {n : Str} (htrimmed : Trimmed n) (hequals : equals ∉ n) (hne : n ≠ [])
    (k : ℕ) : parseEntry (n ++ List.replicate k space) = .entry n [] := by
  have hbefore := padded_ne_equals hequals k
  have htake : (n ++ List.replicate k space).takeWhile (· ≠ equals) = n ++ List.replicate k space := by
    rw [← List.append_nil (n ++ List.replicate k space), List.takeWhile_append_of_pos hbefore,
      List.takeWhile_nil]
  have hdrop : (n ++ List.replicate k space).dropWhile (· ≠ equals) = [] := by
    rw [← List.append_nil (n ++ List.replicate k space), List.dropWhile_append_of_pos hbefore,
      List.dropWhile_nil]
  have hname := trim_padded htrimmed k
  rw [parseEntry, htake, hdrop, hname]
  simp [hne, trim, trimLeft, trimRight]

/-- What an entry says about the line it was read from. -/
theorem parseStripped_eq_entry {line n v : Str} (h : parseStripped line = .entry n v) :
    line.head? ≠ some hash ∧ ¬(line.head? = some lbracket ∧ line.getLast? = some rbracket) ∧
      n ≠ [] ∧ n = trim (line.takeWhile (· ≠ equals)) ∧
      v = trim (((line.dropWhile (· ≠ equals)).drop 1).takeWhile (· ≠ hash)) := by
  unfold parseStripped at h
  split at h
  · cases h
  · rename_i hskip
    split at h
    · cases h
    · rename_i hheading
      simp only [parseEntry] at h
      split at h
      · cases h
      · rename_i hne
        cases h
        exact ⟨fun hhash => hskip (.inr hhash), hheading, hne, rfl, rfl⟩

/-- A line that is neither empty nor a comment nor a heading. -/
theorem parseStripped_of_entry {line : Str} (hhash : line.head? ≠ some hash)
    (hheading : ¬(line.head? = some lbracket ∧ line.getLast? = some rbracket)) :
    parseStripped line = parseEntry line := by
  unfold parseStripped
  by_cases hnil : line = []
  · subst hnil
    rfl
  · rw [if_neg (by simp [hnil, hhash]), if_neg hheading]

/-! ## Printed entries -/

/-- A name and a value without the characters that the format uses for itself. -/
structure Printable (n v : Str) : Prop where
  name_ne : n ≠ []
  name_trimmed : Trimmed n
  name_zero : 0 ∉ n
  name_lf : lf ∉ n
  name_equals : equals ∉ n
  value_trimmed : Trimmed v
  value_zero : 0 ∉ v
  value_lf : lf ∉ v
  value_hash : hash ∉ v

/-- Conditions under which the printed line is read as it was meant. -/
structure Kept (n v : Str) : Prop where
  -- it is not a comment
  not_comment : n.head? ≠ some hash
  -- it is not a heading
  not_heading : ¬(n.head? = some lbracket ∧ v.getLast? = some rbracket)
  -- no character of the value is taken for the end of the line
  not_cr : v.getLast? ≠ some cr
  -- no character of the value is left for the next chunk
  fits : v = [] ∨ (IniFile.pad n).length + 3 + v.length ≤ fgetsRoom

/-- A name that fills a whole chunk is the name that this chunk has. -/
def ChunkName (n : Str) : Prop :=
  n.length ≤ fgetsRoom ∧
    (n.length = fgetsRoom →
      n.getLast? ≠ some cr ∧ ¬(n.head? = some lbracket ∧ n.getLast? = some rbracket))

/-- What `fprintf` prints of an entry before the newline. -/
def entryText (n v : Str) : Str :=
  IniFile.pad n ++ [space, equals, space] ++ v

/-- The lines that a text is read as, without those that are skipped. -/
def parses (text : Str) : List Line :=
  ((chunks lf fgetsRoom text).map parseLine).filter (· ≠ .skip)

namespace Printable

variable {n v : Str}

theorem entryLine_eq (h : Printable n v) : IniFile.entryLine n v = entryText n v ++ [lf] := by
  rw [IniFile.entryLine, Bytes.cString_eq_self h.name_zero, Bytes.cString_eq_self h.value_zero]
  rfl

/-- The text is the name, spaces, `=`, a space and the value. -/
theorem entryText_eq (n v : Str) :
    entryText n v = n ++ List.replicate (10 - n.length + 1) space ++ equals :: space :: v := by
  simp [entryText, IniFile.pad, List.replicate_succ', List.append_assoc]

theorem length_entryText (n v : Str) :
    (entryText n v).length = (IniFile.pad n).length + 3 + v.length := by
  rw [entryText, List.length_append, List.length_append]
  rfl

theorem lf_notMem (h : Printable n v) : lf ∉ entryText n v := by
  rw [entryText_eq]
  simp only [List.mem_append, List.mem_cons, List.mem_replicate, h.name_lf, h.value_lf, or_false,
    false_or, not_or, not_and]
  exact ⟨fun _ => by decide, by decide, by decide⟩

theorem zero_notMem (h : Printable n v) : 0 ∉ entryText n v := by
  rw [entryText_eq]
  simp only [List.mem_append, List.mem_cons, List.mem_replicate, h.name_zero, h.value_zero, or_false,
    false_or, not_or, not_and]
  exact ⟨fun _ => by decide, by decide, by decide⟩

end Printable

/-! ## The chunks of a line -/

/-- What is read from a line of the file that has no carriage return at its end. -/
def parseWhole (x : Str) : Line :=
  parseStripped (trimRight cr x)

/-- A line that fits is read as a whole. -/
theorem parses_short {x : Str} (hlf : lf ∉ x) (hzero : 0 ∉ x) (hlen : x.length ≤ fgetsRoom) :
    parses (x ++ [lf]) = [parseWhole x].filter (· ≠ .skip) := by
  have hcstring := Bytes.cString_eq_self hzero
  by_cases hlt : x.length < fgetsRoom
  · have hparse : parseLine (x ++ [lf]) = parseWhole x := by
      rw [parseLine, strip_piece_lf hlf, hcstring, parseWhole]
    rw [parses, chunks_short hlf hlt, chunks_nil, List.map_singleton, hparse]
  · -- the newline is a chunk of its own
    have heq : x.length = fgetsRoom := Nat.le_antisymm hlen (Nat.not_lt.mp hlt)
    have hchunks : chunks lf fgetsRoom (x ++ [lf]) = [x, [lf]] := by
      rw [chunks_long (by decide) hlf (Nat.le_of_eq heq.symm), List.take_of_length_le hlen,
        List.drop_of_length_le hlen, List.nil_append]
      rfl
    have hparse : parseLine x = parseWhole x := by
      rw [parseLine, strip_piece hlf, hcstring, parseWhole]
    have hskip : parseLine [lf] = .skip := by decide
    rw [parses, hchunks, List.map_cons, List.map_singleton, hparse, hskip]
    by_cases hp : parseWhole x = .skip
    · rw [hp]
      rfl
    · simp [hp]

/-- A line that does not fit is read in two parts. -/
theorem parses_long {x : Str} (hlf : lf ∉ x) (hzero : 0 ∉ x) (hlen : fgetsRoom < x.length)
    (hrest : (x.drop fgetsRoom).length ≤ fgetsRoom) :
    parses (x ++ [lf]) =
      [parseWhole (x.take fgetsRoom), parseWhole (x.drop fgetsRoom)].filter (· ≠ .skip) := by
  have hlf₁ : lf ∉ x.take fgetsRoom := fun h => hlf (List.mem_of_mem_take h)
  have hlf₂ : lf ∉ x.drop fgetsRoom := fun h => hlf (List.mem_of_mem_drop h)
  have hzero₁ : 0 ∉ x.take fgetsRoom := fun h => hzero (List.mem_of_mem_take h)
  have hzero₂ : 0 ∉ x.drop fgetsRoom := fun h => hzero (List.mem_of_mem_drop h)
  have hfirst : parseLine (x.take fgetsRoom) = parseWhole (x.take fgetsRoom) := by
    rw [parseLine, strip_piece hlf₁, Bytes.cString_eq_self hzero₁, parseWhole]
  have hsecond := parses_short hlf₂ hzero₂ hrest
  rw [parses] at hsecond ⊢
  rw [chunks_long (by decide) hlf (Nat.le_of_lt hlen), List.map_cons, List.filter_cons, hsecond,
    hfirst]
  conv_rhs => rw [List.filter_cons]

/-- The lines of a text are read one by one. -/
theorem parses_line_append {x : Str} (hlf : lf ∉ x) (text : Str) :
    parses (x ++ [lf] ++ text) = parses (x ++ [lf]) ++ parses text := by
  have hchunks := chunks_line_append (n := fgetsRoom) (by decide) hlf text
  rw [List.append_assoc, List.singleton_append, parses, hchunks, List.map_append, List.filter_append]
  rfl

/-! ## Reading a printed entry -/

theorem trimRight_entryText (n v : Str) :
    trimRight cr (entryText n v) = entryText n (trimRight cr v) := by
  rw [entryText, trimRight_append (by simp [space, cr])]
  rfl

theorem head?_entryText {n : Str} (hne : n ≠ []) (v : Str) : (entryText n v).head? = n.head? := by
  cases n with
  | nil => exact absurd rfl hne
  | cons c n => rfl

theorem getLast?_entryText (n v : Str) :
    (entryText n v).getLast? = if v = [] then some space else v.getLast? := by
  by_cases hv : v = []
  · subst hv
    simp [entryText]
  · rw [if_neg hv, entryText, List.getLast?_append_of_ne_nil _ hv]

/-- The value of a printed entry is what stands behind `=`, up to a `#`. -/
theorem length_trim_value_le (u : Str) : (trim ((space :: u).takeWhile (· ≠ hash))).length ≤ u.length := by
  have htake : (space :: u).takeWhile (· ≠ hash) = space :: u.takeWhile (· ≠ hash) :=
    List.takeWhile_cons_of_pos (by decide)
  have hspace : trim (space :: u.takeWhile (· ≠ hash)) = trim (u.takeWhile (· ≠ hash)) := by
    have hone := trimLeft_replicate_append space (u.takeWhile (· ≠ hash)) 1
    rw [List.replicate_one, List.singleton_append] at hone
    rw [trim, hone, trim]
  rw [htake, hspace]
  exact Nat.le_trans (length_trim_le _) (List.takeWhile_prefix _).length_le

/-- The line of a printable entry, up to a carriage return at its end: a comment, a heading, or an
    entry under the same name. -/
theorem parseStripped_entryText {n v : Str} (h : Printable n v) (u : Str) :
    parseStripped (entryText n u) = .skip ∧ n.head? = some hash ∨
      (∃ s, parseStripped (entryText n u) = .heading s) ∧
        n.head? = some lbracket ∧ u.getLast? = some rbracket ∨
      parseStripped (entryText n u) = .entry n (trim ((space :: u).takeWhile (· ≠ hash))) ∧
        n.head? ≠ some hash ∧ ¬(n.head? = some lbracket ∧ u.getLast? = some rbracket) := by
  have hhead := head?_entryText h.name_ne u
  have hnil : entryText n u ≠ [] := by
    intro hnil
    have hlen := Printable.length_entryText n u
    rw [hnil] at hlen
    simp at hlen
    omega
  have hlast : (entryText n u).getLast? = some rbracket ↔ u.getLast? = some rbracket := by
    rw [getLast?_entryText]
    split
    · rename_i hu
      rw [hu]
      constructor <;> nofun
    · exact Iff.rfl
  by_cases hhash : n.head? = some hash
  · left
    refine ⟨?_, hhash⟩
    rw [parseStripped, if_pos (.inr (hhead.trans hhash))]
  · by_cases hheading : n.head? = some lbracket ∧ u.getLast? = some rbracket
    · right
      left
      refine ⟨⟨trim (((entryText n u).drop 1).take ((entryText n u).length - 2)), ?_⟩, hheading⟩
      rw [parseStripped, if_neg (by rw [hhead]; simp [hnil, hhash]),
        if_pos ⟨hhead.trans hheading.1, hlast.mpr hheading.2⟩]
    · right
      right
      refine ⟨?_, hhash, hheading⟩
      rw [parseStripped_of_entry (by rw [hhead]; exact hhash) (by rw [hhead, hlast]; exact hheading),
        Printable.entryText_eq]
      exact parseEntry_of_equals h.name_trimmed h.name_equals h.name_ne _ _

/-- A value without a comment is read as it was printed. -/
theorem trim_value {v : Str} (htrimmed : Trimmed v) (hhash : hash ∉ v) :
    trim ((space :: v).takeWhile (· ≠ hash)) = v := by
  have htake : (space :: v).takeWhile (· ≠ hash) = space :: v := by
    rw [← List.append_nil (space :: v)]
    rw [List.takeWhile_append_of_pos, List.takeWhile_nil]
    intro c hc
    apply decide_eq_true
    rintro rfl
    rcases List.mem_cons.mp hc with heq | hmem
    · cases heq
    · exact hhash hmem
  have hspaces := trim_spaces htrimmed 1 0
  rw [htake]
  simpa using hspaces

/-- What is read of a name that fills its chunk up to two characters. -/
theorem parseWhole_name {n : Str} (h : Printable n []) (hchunk : ChunkName n)
    (hhash : n.head? ≠ some hash) {j : ℕ} (hj : n.length + j = fgetsRoom) (hj2 : j ≤ 2) :
    parseWhole (n ++ [space, equals, space].take j) = .entry n [] := by
  have hhead : ∀ y : Str, (n ++ y).head? = n.head? := by
    intro y
    cases hn : n with
    | nil => exact absurd hn h.name_ne
    | cons c n => rfl
  obtain rfl | rfl | rfl : j = 0 ∨ j = 1 ∨ j = 2 := by omega
  · -- the chunk is the name
    obtain ⟨hcr, hheading⟩ := hchunk.2 hj
    rw [List.take_zero, List.append_nil, parseWhole, trimRight_eq_self hcr,
      parseStripped_of_entry hhash hheading]
    have hname := parseEntry_of_name h.name_trimmed h.name_equals h.name_ne 0
    simpa using hname
  · have hlast : (n ++ [space]).getLast? = some space := by simp
    rw [show [space, equals, space].take 1 = [space] from rfl, parseWhole,
      trimRight_eq_self (by rw [hlast]; decide),
      parseStripped_of_entry (by rw [hhead]; exact hhash) (by rw [hlast]; exact fun hb => nomatch hb.2)]
    exact parseEntry_of_name h.name_trimmed h.name_equals h.name_ne 1
  · have hlast : (n ++ [space, equals]).getLast? = some equals := by simp
    rw [show [space, equals, space].take 2 = [space, equals] from rfl, parseWhole,
      trimRight_eq_self (by rw [hlast]; decide),
      parseStripped_of_entry (by rw [hhead]; exact hhash) (by rw [hlast]; exact fun hb => nomatch hb.2)]
    have hentry := parseEntry_of_equals h.name_trimmed h.name_equals h.name_ne 1 []
    rw [List.append_assoc] at hentry
    exact hentry

/-- The line of an empty value that does not fit is cut behind the name. -/
theorem parses_long_name {n : Str} (h : Printable n []) (hchunk : ChunkName n)
    (hlong : fgetsRoom < (entryText n []).length) :
    parses (entryText n [] ++ [lf]) = [parseWhole ((entryText n []).take fgetsRoom)].filter (· ≠ .skip) ∧
      ∃ j, n.length + j = fgetsRoom ∧ j ≤ 2 ∧
        (entryText n []).take fgetsRoom = n ++ [space, equals, space].take j := by
  have hlen := Printable.length_entryText n []
  have hpadlen : (IniFile.pad n).length = n.length + (10 - n.length) := by simp [IniFile.pad]
  have hname := hchunk.1
  have hroom : fgetsRoom = 2047 := rfl
  rw [List.length_nil] at hlen
  have hpad : IniFile.pad n = n := by
    rw [IniFile.pad, Nat.sub_eq_zero_of_le (by omega : 10 ≤ n.length), List.replicate_zero,
      List.append_nil]
  have htext : entryText n [] = n ++ [space, equals, space] := by
    rw [entryText, hpad, List.append_nil]
  obtain ⟨j, hj⟩ : ∃ j, n.length + j = fgetsRoom := ⟨fgetsRoom - n.length, by omega⟩
  have hj2 : j ≤ 2 := by omega
  have htake : (entryText n []).take fgetsRoom = n ++ [space, equals, space].take j := by
    rw [htext, ← hj, List.take_length_add_append]
  have hdrop : (entryText n []).drop fgetsRoom = [space, equals, space].drop j := by
    rw [htext, ← hj, List.drop_length_add_append]
  refine ⟨?_, j, hj, hj2, htake⟩
  have hskip : parseWhole ([space, equals, space].drop j) = .skip := by
    obtain rfl | rfl | rfl : j = 0 ∨ j = 1 ∨ j = 2 := by omega
    · decide
    · decide
    · decide
  rw [parses_long h.lf_notMem h.zero_notMem hlong (by rw [hdrop, List.length_drop]; simp; omega),
    hdrop, hskip]
  by_cases hfirst : parseWhole ((entryText n []).take fgetsRoom) = .skip
  · rw [hfirst]
    rfl
  · simp [hfirst]

/-- **A kept entry is read back**, whatever its length. -/
theorem parses_entryLine {n v : Str} (h : Printable n v) (hchunk : ChunkName n) (hkept : Kept n v) :
    parses (IniFile.entryLine n v) = [.entry n v] := by
  rw [h.entryLine_eq]
  have hlf := h.lf_notMem
  have hzero := h.zero_notMem
  have hlen := Printable.length_entryText n v
  by_cases hshort : (entryText n v).length ≤ fgetsRoom
  · have hwhole : parseWhole (entryText n v) = .entry n v := by
      rw [parseWhole, trimRight_entryText, trimRight_eq_self hkept.not_cr]
      rcases parseStripped_entryText h v with ⟨-, hhash⟩ | ⟨-, hheading⟩ | ⟨hentry, -, -⟩
      · exact absurd hhash hkept.not_comment
      · exact absurd hheading hkept.not_heading
      · rw [hentry, trim_value h.value_trimmed h.value_hash]
    rw [parses_short hlf hzero hshort, hwhole]
    rfl
  · -- only an empty value can be cut off, together with the `=`
    obtain rfl : v = [] := by
      rcases hkept.fits with hv | hfits
      · exact hv
      · omega
    obtain ⟨hparses, j, hj, hj2, htake⟩ := parses_long_name h hchunk (Nat.not_le.mp hshort)
    rw [hparses, htake, parseWhole_name h hchunk hkept.not_comment hj hj2]
    rfl

/-! ## Headings -/

/-- A section name that is read back from its heading. -/
structure HeadingOk (s : Str) : Prop where
  trimmed : Trimmed s
  zero : 0 ∉ s
  lf : lf ∉ s
  fits : s.length + 2 ≤ fgetsRoom

theorem parses_headingLine {s : Str} (h : HeadingOk s) :
    parses (IniFile.headingLine s) = [.heading s] := by
  have hline : IniFile.headingLine s = ([lbracket] ++ s ++ [rbracket]) ++ [Config.lf] := by
    rw [IniFile.headingLine, Bytes.cString_eq_self h.zero, List.append_assoc ([lbracket] ++ s)]
    rfl
  have hlf : Config.lf ∉ [lbracket] ++ s ++ [rbracket] := by
    simp only [List.mem_append, List.mem_singleton, h.lf, or_false, not_or]
    exact ⟨by decide, by decide⟩
  have hzero : 0 ∉ [lbracket] ++ s ++ [rbracket] := by
    simp only [List.mem_append, List.mem_singleton, h.zero, or_false, not_or]
    exact ⟨by decide, by decide⟩
  have hlen : ([lbracket] ++ s ++ [rbracket]).length = s.length + 2 := by
    simp
  have hlast : ([lbracket] ++ s ++ [rbracket]).getLast? = some rbracket := List.getLast?_concat
  have hhead : ([lbracket] ++ s ++ [rbracket]).head? = some lbracket := rfl
  have hinner : (([lbracket] ++ s ++ [rbracket]).drop 1).take
      (([lbracket] ++ s ++ [rbracket]).length - 2) = s := by
    rw [hlen, Nat.add_sub_cancel, List.append_assoc, List.singleton_append, List.drop_one,
      List.tail_cons, List.take_left]
  have hwhole : parseWhole ([lbracket] ++ s ++ [rbracket]) = .heading s := by
    rw [parseWhole, trimRight_eq_self (by rw [hlast]; decide), parseStripped,
      if_neg (by rw [hhead]; simp [lbracket, hash]), if_pos ⟨hhead, hlast⟩, hinner,
      trim_eq_self h.trimmed]
  have hfits := h.fits
  rw [hline, parses_short hlf hzero (by omega), hwhole]
  rfl

/-- The empty line behind a section. -/
theorem parses_lf : parses [lf] = [] := by
  decide

/-! ## What can be read from a file -/

/-- A name and a value that come from one chunk. -/
structure FromChunk (n v : Str) : Prop where
  printable : Printable n v
  chunkName : ChunkName n
  together : v ≠ [] → n.length + 1 + v.length ≤ fgetsRoom

/-- The line that is parsed of a chunk. -/
theorem strip_chunk {text chunk : Str} (h : chunk ∈ chunks lf fgetsRoom text) :
    lf ∉ strip chunk ∧ 0 ∉ strip chunk ∧ (strip chunk).length ≤ fgetsRoom ∧
      (strip chunk).getLast? ≠ some cr := by
  obtain ⟨x, hlf, hcase⟩ := mem_chunks h
  have hstrip : strip chunk = trimRight cr (Bytes.cString x) := by
    rcases hcase with ⟨rfl, -⟩ | ⟨rfl, -⟩
    · exact strip_piece hlf
    · exact strip_piece_lf hlf
  have hx : x.length ≤ fgetsRoom := by
    rcases hcase with ⟨-, hlen⟩ | ⟨-, hlen⟩
    · exact hlen
    · exact Nat.le_of_lt hlen
  have hsub := isPrefix_trimRight cr (Bytes.cString x)
  rw [hstrip]
  refine ⟨?_, ?_, ?_, getLast?_trimRight cr _⟩
  · intro hmem
    exact hlf ((List.takeWhile_prefix _).subset (hsub.subset hmem))
  · intro hmem
    exact Bytes.zero_notMem_cString x (hsub.subset hmem)
  · exact Nat.le_trans hsub.length_le (Nat.le_trans (Bytes.length_cString_le x) hx)

/-- An entry is cut out of the line. -/
theorem fromChunk_of_parseLine {text chunk n v : Str} (h : chunk ∈ chunks lf fgetsRoom text)
    (hparse : parseLine chunk = .entry n v) : FromChunk n v := by
  obtain ⟨hlf, hzero, hlen, hcr⟩ := strip_chunk h
  obtain ⟨-, hheading, hne, hn, hv⟩ := parseStripped_eq_entry hparse
  obtain ⟨line, hline⟩ : ∃ line, strip chunk = line := ⟨_, rfl⟩
  rw [hline] at hlf hzero hlen hcr hheading hn hv
  have hparts : line.takeWhile (· ≠ equals) ++ line.dropWhile (· ≠ equals) = line :=
    List.takeWhile_append_dropWhile
  have hname : ∀ c ∈ n, c ∈ line ∧ c ≠ equals := by
    intro c hc
    rw [hn] at hc
    have hmem := mem_of_mem_trim hc
    exact ⟨(List.takeWhile_prefix _).subset hmem, by simpa using List.mem_takeWhile_imp hmem⟩
  have hvalue : ∀ c ∈ v, c ∈ line ∧ c ≠ hash := by
    intro c hc
    rw [hv] at hc
    have hmem := mem_of_mem_trim hc
    refine ⟨?_, by simpa using List.mem_takeWhile_imp hmem⟩
    exact (List.dropWhile_suffix _).subset
      (List.mem_of_mem_drop ((List.takeWhile_prefix _).subset hmem))
  have hlength : (line.takeWhile (· ≠ equals)).length + (line.dropWhile (· ≠ equals)).length =
      line.length := by
    rw [← List.length_append, hparts]
  have hnlen : n.length ≤ (line.takeWhile (· ≠ equals)).length := hn ▸ length_trim_le _
  refine ⟨⟨hne, hn ▸ trimmed_trim _, fun h => hzero (hname 0 h).1, fun h => hlf (hname lf h).1,
    fun h => (hname equals h).2 rfl, hv ▸ trimmed_trim _, fun h => hzero (hvalue 0 h).1,
    fun h => hlf (hvalue lf h).1, fun h => (hvalue hash h).2 rfl⟩, ⟨by omega, ?_⟩, ?_⟩
  · -- a name as long as a chunk is the whole line
    intro hfull
    have hwhole : n = line := by
      have htake : line.takeWhile (· ≠ equals) = line :=
        (List.takeWhile_prefix _).eq_of_length (by omega)
      rw [htake] at hn
      rw [hn]
      exact (isInfix_trim line).eq_of_length (by rw [← hn]; omega)
    rw [hwhole]
    exact ⟨hcr, hheading⟩
  · intro hvne
    have hvlen : v.length ≤ ((line.dropWhile (· ≠ equals)).drop 1).length := by
      rw [hv]
      exact Nat.le_trans (length_trim_le _) (List.takeWhile_prefix _).length_le
    have hpos : 0 < v.length := List.length_pos_of_ne_nil hvne
    rw [List.length_drop] at hvlen
    omega

theorem headingOk_of_parseLine {text chunk s : Str} (h : chunk ∈ chunks lf fgetsRoom text)
    (hparse : parseLine chunk = .heading s) : HeadingOk s := by
  obtain ⟨hlf, hzero, hlen, -⟩ := strip_chunk h
  obtain ⟨line, hline⟩ : ∃ line, strip chunk = line := ⟨_, rfl⟩
  rw [parseLine, hline] at hparse
  rw [hline] at hlf hzero hlen
  unfold parseStripped at hparse
  split at hparse
  · cases hparse
  · split at hparse
    · rename_i hbrackets
      cases hparse
      have hsub : ∀ c ∈ trim ((line.drop 1).take (line.length - 2)), c ∈ line :=
        fun c hc => List.mem_of_mem_drop (List.mem_of_mem_take (mem_of_mem_trim hc))
      have hlen' := length_trim_le ((line.drop 1).take (line.length - 2))
      -- the first and the last character differ
      have htwo : 2 ≤ line.length := by
        obtain ⟨hhead, hlast⟩ := hbrackets
        match line with
        | [] => cases hhead
        | [c] =>
          cases hhead
          cases hlast
        | _ :: _ :: _ => simp
      refine ⟨trimmed_trim _, fun h => hzero (hsub 0 h), fun h => hlf (hsub Config.lf h), ?_⟩
      rw [List.length_take] at hlen'
      omega
    · simp only [parseEntry] at hparse
      split at hparse <;> cases hparse

/-! ## What is lost -/

/-- How much an entry says. A character counts more in a value than in a name, so that a line that
    is cut into two entries says less than before. -/
def Line.weight : Line → ℕ
  | .entry n v => 2 * v.length + n.length
  | _ => 0

@[simp]
theorem Line.weight_skip : Line.weight .skip = 0 := rfl

@[simp]
theorem Line.weight_heading (s : Str) : Line.weight (.heading s) = 0 := rfl

@[simp]
theorem Line.weight_entry (n v : Str) : Line.weight (.entry n v) = 2 * v.length + n.length := rfl

def linesWeight (lines : List Line) : ℕ :=
  (lines.map Line.weight).sum

@[simp]
theorem linesWeight_append (as bs : List Line) :
    linesWeight (as ++ bs) = linesWeight as + linesWeight bs := by
  simp [linesWeight]

theorem linesWeight_filter (lines : List Line) :
    linesWeight (lines.filter (· ≠ .skip)) = linesWeight lines := by
  induction lines with
  | nil => rfl
  | cons line lines ih =>
    have hcons : linesWeight (line :: lines) = line.weight + linesWeight lines := by
      simp [linesWeight]
    by_cases hskip : line = .skip
    · subst hskip
      rw [List.filter_cons_of_neg (by simp), ih, hcons]
      exact (Nat.zero_add _).symm
    · rw [List.filter_cons_of_pos (by simpa using hskip), hcons, ← ih]
      simp [linesWeight]

/-- An entry is made of the characters of its line, without the spaces in front. -/
theorem length_entry_le {line n v : Str} (h : parseStripped line = .entry n v) :
    n.length + v.length ≤ (trimLeft space line).length := by
  obtain ⟨-, -, hne, hn, hv⟩ := parseStripped_eq_entry h
  obtain ⟨p, hp⟩ : ∃ p, line.takeWhile (· ≠ equals) = p := ⟨_, rfl⟩
  obtain ⟨q, hq⟩ : ∃ q, line.dropWhile (· ≠ equals) = q := ⟨_, rfl⟩
  have hline : line = p ++ q := by
    rw [← hp, ← hq]
    exact List.takeWhile_append_dropWhile.symm
  rw [hp] at hn
  rw [hq] at hv
  -- the name is not made of spaces only, so that trimming stops inside it
  have hleft : trimLeft space p ≠ [] := by
    intro hnil
    rw [trim, hnil] at hn
    exact hne hn
  have htrim : trimLeft space line = trimLeft space p ++ q := by
    rw [hline, trimLeft, List.dropWhile_append]
    have hempty : (p.dropWhile (· = space)).isEmpty = false := by
      simpa [trimLeft] using hleft
    rw [hempty]
    rfl
  have hnlen : n.length ≤ (trimLeft space p).length := by
    rw [hn]
    exact (isPrefix_trimRight space _).length_le
  have hvlen : v.length ≤ q.length := by
    rw [hv]
    exact Nat.le_trans (length_trim_le _) (Nat.le_trans (List.takeWhile_prefix _).length_le
      (by rw [List.length_drop]; exact Nat.sub_le _ _))
  rw [htrim, List.length_append]
  omega

/-- Trimming what is left of a string on the left leaves no more. -/
theorem length_trimLeft_le (c : UInt8) {x y : Str} (h : y <+: x) :
    (trimLeft c y).length ≤ (trimLeft c x).length := by
  obtain ⟨rest, rfl⟩ := h
  rw [trimLeft, trimLeft, List.dropWhile_append]
  split
  · rename_i hempty
    rw [List.isEmpty_iff.mp hempty]
    exact Nat.zero_le _
  · rw [List.length_append]
    exact Nat.le_add_right _ _

theorem weight_parseWhole_le (x : Str) :
    (parseWhole x).weight ≤ 2 * (trimLeft space x).length - 1 := by
  rw [parseWhole]
  cases hparse : parseStripped (trimRight cr x) with
  | skip => exact Nat.zero_le _
  | heading s => exact Nat.zero_le _
  | entry n v =>
    have hlen := length_entry_le hparse
    obtain ⟨-, -, hne, -, -⟩ := parseStripped_eq_entry hparse
    have hpos : 0 < n.length := List.length_pos_of_ne_nil hne
    have hmono := length_trimLeft_le space (isPrefix_trimRight cr x)
    rw [Line.weight_entry]
    omega

/-- The line of a name with any characters behind the `=` says at most as much. -/
theorem weight_entryText_le {n v : Str} (h : Printable n v) (u : Str) :
    (parseWhole (entryText n u)).weight ≤ 2 * (trimRight cr u).length + n.length := by
  rw [parseWhole, trimRight_entryText]
  rcases parseStripped_entryText h (trimRight cr u) with ⟨hskip, -⟩ | ⟨⟨s, hheading⟩, -⟩ | ⟨hentry, -⟩
  · rw [hskip]
    exact Nat.zero_le _
  · rw [hheading]
    exact Nat.zero_le _
  · have hlen := length_trim_value_le (trimRight cr u)
    rw [hentry, Line.weight_entry]
    omega

/-- A line that fits and is not kept says less. -/
theorem weight_entryText_lt {n v : Str} (h : Printable n v) (hnot : ¬Kept n v)
    (hfits : v = [] ∨ (IniFile.pad n).length + 3 + v.length ≤ fgetsRoom) :
    (parseWhole (entryText n v)).weight < 2 * v.length + n.length := by
  have hpos : 0 < n.length := List.length_pos_of_ne_nil h.name_ne
  by_cases hcr : v.getLast? = some cr
  · -- a carriage return is gone
    have hle := weight_entryText_le h v
    have hshorter : (trimRight cr v).length < v.length := by
      have hprefix := isPrefix_trimRight cr v
      refine Nat.lt_of_le_of_ne hprefix.length_le fun heq => ?_
      have hsame := hprefix.eq_of_length heq
      exact getLast?_trimRight cr v (by rw [hsame]; exact hcr)
    omega
  · rw [parseWhole, trimRight_entryText, trimRight_eq_self hcr]
    rcases parseStripped_entryText h v with ⟨hskip, -⟩ | ⟨⟨s, hheading⟩, -⟩ | ⟨-, hcomment, hheading⟩
    · rw [hskip, Line.weight_skip]
      omega
    · rw [hheading, Line.weight_heading]
      omega
    · exact absurd ⟨hcomment, hheading, hcr, hfits⟩ hnot

theorem parseWhole_comment {x : Str} (h : x.head? = some hash) : parseWhole x = .skip := by
  cases x with
  | nil => cases h
  | cons c rest =>
    cases h
    have hone : trimRight cr ([hash] ++ rest) = [hash] ++ trimRight cr rest :=
      trimRight_append (by decide) _
    have hhead : (trimRight cr (hash :: rest)).head? = some hash := congrArg List.head? hone
    rw [parseWhole, parseStripped, if_pos (.inr hhead)]

/-- A value that is cut says less, and what is behind the cut does not make up for it. -/
theorem weight_cut {n v : Str} (h : FromChunk n v) (hv : v ≠ [])
    (hlong : fgetsRoom < (entryText n v).length) :
    (parseWhole ((entryText n v).take fgetsRoom)).weight +
      (parseWhole ((entryText n v).drop fgetsRoom)).weight < 2 * v.length + n.length := by
  have hp := h.printable
  have htogether := h.together hv
  have hlen := Printable.length_entryText n v
  have hpos : 0 < v.length := List.length_pos_of_ne_nil hv
  have hpadlen : (IniFile.pad n).length = n.length + (10 - n.length) := by simp [IniFile.pad]
  have hroom : fgetsRoom = 2047 := rfl
  by_cases hinside : (IniFile.pad n).length + 3 ≤ fgetsRoom
  · -- the cut is inside the value
    obtain ⟨c, hc⟩ : ∃ c, (IniFile.pad n ++ [space, equals, space]).length + c = fgetsRoom :=
      ⟨fgetsRoom - ((IniFile.pad n).length + 3), by simp; omega⟩
    have htake : (entryText n v).take fgetsRoom = entryText n (v.take c) := by
      rw [← hc, entryText, List.take_length_add_append, entryText]
    have hdrop : (entryText n v).drop fgetsRoom = v.drop c := by
      rw [← hc, entryText, List.drop_length_add_append]
    have hfirst := weight_entryText_le hp (v.take c)
    have hfirst' := (isPrefix_trimRight cr (v.take c)).length_le
    have hsecond := weight_parseWhole_le (v.drop c)
    have hsecond' := (isSuffix_trimLeft space (v.drop c)).length_le
    have hcut : c < v.length := by
      simp only [List.length_append, List.length_cons, List.length_nil] at hc
      omega
    rw [List.length_take] at hfirst'
    rw [List.length_drop] at hsecond'
    rw [htake, hdrop]
    omega
  · -- the cut is behind the `=`, and the value is one character
    have hpad : IniFile.pad n = n := by
      rw [IniFile.pad, Nat.sub_eq_zero_of_le (by omega : 10 ≤ n.length), List.replicate_zero,
        List.append_nil]
    have hj : n.length + 2 = fgetsRoom := by omega
    have htext : entryText n v = n ++ ([space, equals, space] ++ v) := by
      rw [entryText, hpad, List.append_assoc]
    have htake : (entryText n v).take fgetsRoom = n ++ [space, equals, space].take 2 := by
      rw [htext, ← hj, List.take_length_add_append]
      rfl
    have hdrop : (entryText n v).drop fgetsRoom = List.replicate 1 space ++ v := by
      rw [htext, ← hj, List.drop_length_add_append]
      rfl
    have hfirst : (parseWhole ((entryText n v).take fgetsRoom)).weight ≤ n.length := by
      rw [htake]
      by_cases hhash : n.head? = some hash
      · rw [parseWhole_comment (by rw [List.head?_append, hhash]; rfl)]
        exact Nat.zero_le _
      · have hempty : Printable n [] :=
          ⟨hp.name_ne, hp.name_trimmed, hp.name_zero, hp.name_lf, hp.name_equals, trimmed_nil,
            List.not_mem_nil, List.not_mem_nil, List.not_mem_nil⟩
        rw [parseWhole_name hempty h.chunkName hhash hj (Nat.le_refl 2)]
        simp
    have hsecond := weight_parseWhole_le ((entryText n v).drop fgetsRoom)
    rw [hdrop, trimLeft_replicate_append] at hsecond
    have hsecond' := (isSuffix_trimLeft space v).length_le
    rw [← hdrop] at hsecond
    omega

/-- **A printed entry says at most as much as before**, and less if it is not kept. -/
theorem weight_entryLine {n v : Str} (h : FromChunk n v) :
    linesWeight (parses (IniFile.entryLine n v)) ≤ 2 * v.length + n.length ∧
      (¬Kept n v → linesWeight (parses (IniFile.entryLine n v)) < 2 * v.length + n.length) := by
  have hp := h.printable
  by_cases hkept : Kept n v
  · rw [parses_entryLine hp h.chunkName hkept]
    exact ⟨by simp [linesWeight], fun hnot => absurd hkept hnot⟩
  suffices hlt : linesWeight (parses (IniFile.entryLine n v)) < 2 * v.length + n.length from
    ⟨Nat.le_of_lt hlt, fun _ => hlt⟩
  rw [hp.entryLine_eq]
  have hlen := Printable.length_entryText n v
  have hroom : fgetsRoom = 2047 := rfl
  by_cases hshort : (entryText n v).length ≤ fgetsRoom
  · have hweight := weight_entryText_lt hp hkept (.inr (by omega))
    rw [parses_short hp.lf_notMem hp.zero_notMem hshort, linesWeight_filter]
    simpa [linesWeight] using hweight
  by_cases hv : v = []
  · -- a comment without a value, cut behind its name
    subst hv
    have hpos : 0 < n.length := List.length_pos_of_ne_nil hp.name_ne
    obtain ⟨hparses, j, hj, hj2, htake⟩ := parses_long_name hp h.chunkName (Nat.not_le.mp hshort)
    have hhash : n.head? = some hash := by
      by_contra hhash
      exact hkept ⟨hhash, nofun, nofun, .inl rfl⟩
    have hskip : parseWhole ((entryText n []).take fgetsRoom) = .skip := by
      rw [htake, parseWhole_comment (by rw [List.head?_append, hhash]; rfl)]
    rw [hparses, hskip, linesWeight_filter]
    simpa [linesWeight] using hpos
  · -- the value is cut, and its end becomes an entry of its own
    have htogether := h.together hv
    have hpad : (IniFile.pad n).length = n.length + (10 - n.length) := by simp [IniFile.pad]
    have hcut := weight_cut h hv (Nat.not_le.mp hshort)
    rw [parses_long hp.lf_notMem hp.zero_notMem (Nat.not_le.mp hshort)
      (by rw [List.length_drop]; omega), linesWeight_filter]
    simpa [linesWeight] using hcut

end Pdk.Config
