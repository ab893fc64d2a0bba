import Pdk.Config.IniFileMap
import Pdk.Config.IniFileText
import Pdk.Foundation.Numerals

/-!
# Integer settings

`try_get_int` trims the stored string, lets `std::stoi` parse it and insists that all of it was
consumed; `get_value_i` gives the string to `atoi`. `trim` knows four characters and `strtol` skips
six, so that what is accepted in front of a number is more than what is accepted behind it
(`IntText`). Both accessors agree where the first one has an answer, and both return what
`set_value_i` has printed.
-/

namespace Pdk.Config

open Foundation

/-! ## The accessors -/

/-- The characters of `" \t\r\n"`. -/
def isBlank (c : UInt8) : Bool :=
  c = space || c = 9 || c = cr || c = lf

/-- `trim(s)`, from the first to the last character that is not blank. -/
def trimBlanks (s : Str) : Str :=
  (s.dropWhile isBlank).rdropWhile isBlank

/-- `std::stoi(s, &consumed)`; no result when it throws. -/
def stoi (s : Str) : Option (CInt × ℕ) :=
  match strtol (Bytes.cString s) with
  -- `std::invalid_argument`
  | none => none
  | some (v, consumed) =>
    if h : int32Min ≤ v ∧ v ≤ int32Max then some (⟨v, h⟩, consumed)
    -- `std::out_of_range`
    else none

/-- `atoi(s.c_str())`; no result where C leaves it undefined. -/
def atoi (s : Str) : Option CInt :=
  match strtol (Bytes.cString s) with
  | none => some ⟨0, int32_zero⟩
  | some (v, _) => if h : int32Min ≤ v ∧ v ≤ int32Max then some ⟨v, h⟩ else none

/-- What `try_get_int` makes of a stored string. -/
def parseInt (s : Str) : Option CInt :=
  let trimmed := trimBlanks s
  if trimmed = [] then none
  else
    match stoi trimmed with
    | none => none
    | some (v, consumed) => if consumed ≠ trimmed.length then none else some v

namespace IniFile

/-- `try_get_int(section, key)`. -/
def tryGetInt (f : IniFile) (sectionName key : Str) : Option CInt :=
  match f.tryGetString sectionName key with
  | none => none
  | some s => parseInt s

/-- `get_value_i(keyname, valuename)`. -/
def getValueI (f : IniFile) (keyname valuename : Str) : Option CInt × IniFile :=
  let (value, f') := f.getValue keyname valuename
  (atoi value, f')

end IniFile

/-! ## Texts of integers -/

/-- White space, a sign, digits and blanks, with a value that an `int` can hold. -/
def IntText (s : Str) (v : ℤ) : Prop :=
  ∃ ws sign digits tail, s = ws ++ sign ++ digits ++ tail ∧ Numeral ws sign digits v ∧
    (∀ c ∈ tail, isBlank c = true) ∧ int32Min ≤ v ∧ v ≤ int32Max

theorem isBlank_cases {c : UInt8} (h : isBlank c = true) : c = space ∨ c = 9 ∨ c = cr ∨ c = lf := by
  simp only [isBlank, Bool.or_eq_true, decide_eq_true_eq, or_assoc] at h
  exact h

/-- A blank is white space, and no digit. -/
theorem isSpace_of_isBlank {c : UInt8} (h : isBlank c = true) :
    isSpace c = true ∧ isDigit c = false ∧ c ≠ 0 := by
  rcases isBlank_cases h with rfl | rfl | rfl | rfl <;> decide

theorem not_isBlank_of_isDigit {c : UInt8} (h : isDigit c = true) : isBlank c = false := by
  by_contra hblank
  have hdigit := (isSpace_of_isBlank (Bool.not_eq_false _ ▸ hblank)).2.1
  rw [h] at hdigit
  cases hdigit

namespace IntText

variable {ws sign digits tail : Str} {v : ℤ}

/-- A numeral ends with a digit. -/
theorem getLast_digits (h : Numeral ws sign digits v) :
    ∃ front d, ws ++ sign ++ digits = front ++ [d] ∧ isDigit d = true := by
  refine ⟨ws ++ sign ++ digits.dropLast, digits.getLast h.nonempty, ?_,
    h.digit _ (List.getLast_mem h.nonempty)⟩
  rw [List.append_assoc _ _ [_], List.dropLast_append_getLast]

theorem zero_notMem (h : Numeral ws sign digits v) (htail : ∀ c ∈ tail, isBlank c = true) :
    0 ∉ ws ++ sign ++ digits ++ tail := by
  intro hzero
  simp only [List.mem_append] at hzero
  rcases hzero with ((hws | hsign) | hdigits) | hblank
  · exact absurd (h.space 0 hws) (by decide)
  · rcases h.value with ⟨rfl | rfl, -⟩ | ⟨rfl, -⟩
    · cases hsign
    · exact absurd hsign (by decide)
    · exact absurd hsign (by decide)
  · exact absurd (h.digit 0 hdigits) (by decide)
  · exact (isSpace_of_isBlank (htail 0 hblank)).2.2 rfl

/-- `strtol` on the whole text, up to its blanks. -/
theorem strtol_eq (h : Numeral ws sign digits v) (htail : ∀ c ∈ tail, isBlank c = true) :
    strtol (Bytes.cString (ws ++ sign ++ digits ++ tail)) =
      some (v, (ws ++ sign ++ digits).length) := by
  rw [Bytes.cString_eq_self (zero_notMem h htail)]
  refine strtol_numeral h fun c hc => ?_
  exact (isSpace_of_isBlank (htail c (List.mem_of_mem_head? hc))).2.1

/-- Blanks in front of a numeral may be dropped. -/
theorem dropBlanks (h : Numeral ws sign digits v) : Numeral (ws.dropWhile isBlank) sign digits v :=
  ⟨fun c hc => h.space c ((List.dropWhile_suffix _).subset hc), h.nonempty, h.digit, h.value⟩

/-- What is behind the white space does not start with a blank. -/
theorem dropWhile_sign (h : Numeral ws sign digits v) (tail : Str) :
    (sign ++ digits ++ tail).dropWhile isBlank = sign ++ digits ++ tail := by
  obtain ⟨d, rest, hdigits⟩ := List.exists_cons_of_ne_nil h.nonempty
  have hd : isDigit d = true := h.digit d (by rw [hdigits]; exact List.mem_cons_self)
  rcases h.value with ⟨rfl | rfl, -⟩ | ⟨rfl, -⟩
  · rw [hdigits, List.nil_append, List.cons_append,
      List.dropWhile_cons_of_neg (by rw [not_isBlank_of_isDigit hd]; decide)]
  · rfl
  · rfl

/-- What `trim` leaves of the text: blanks in front are white space, and those behind are gone. -/
theorem trimBlanks_eq (h : Numeral ws sign digits v) (htail : ∀ c ∈ tail, isBlank c = true) :
    trimBlanks (ws ++ sign ++ digits ++ tail) = ws.dropWhile isBlank ++ sign ++ digits := by
  have hfront : (ws ++ sign ++ digits ++ tail).dropWhile isBlank =
      ws.dropWhile isBlank ++ sign ++ digits ++ tail := by
    rw [List.append_assoc, List.append_assoc, List.dropWhile_append, ← List.append_assoc sign,
      dropWhile_sign h tail]
    split
    · rename_i hempty
      rw [List.isEmpty_iff.mp hempty, List.nil_append]
    · rw [List.append_assoc (ws.dropWhile isBlank), List.append_assoc (ws.dropWhile isBlank)]
  obtain ⟨front, d, hlast, hd⟩ := getLast_digits (dropBlanks h)
  rw [trimBlanks, hfront, hlast, List.rdropWhile, List.reverse_append,
    List.dropWhile_append_of_pos (fun c hc => htail c (List.mem_reverse.mp hc)), ← List.rdropWhile,
    List.rdropWhile_concat_neg _ _ _ (by rw [not_isBlank_of_isDigit hd]; decide)]

end IntText

/-- What `trim` takes away are blanks. -/
theorem trimBlanks_append (s : Str) :
    ∃ lead tail, s = lead ++ trimBlanks s ++ tail ∧ (∀ c ∈ lead, isBlank c = true) ∧
      ∀ c ∈ tail, isBlank c = true := by
  refine ⟨s.takeWhile isBlank, (s.dropWhile isBlank).rtakeWhile isBlank, ?_, ?_, ?_⟩
  · rw [trimBlanks, List.append_assoc, List.rdropWhile_append_rtakeWhile,
      List.takeWhile_append_dropWhile]
  · exact fun c hc => List.mem_takeWhile_imp hc
  · exact fun c hc => List.mem_rtakeWhile_imp hc

/-- `stoi` has a result where `strtol` has one that fits. -/
theorem strtol_of_stoi {s : Str} {v : CInt} {consumed : ℕ} (h : stoi s = some (v, consumed)) :
    strtol (Bytes.cString s) = some (v.val, consumed) := by
  unfold stoi at h
  split at h
  · cases h
  · rename_i z n hstrtol
    split at h
    · cases h
      exact hstrtol
    · cases h

/-- `try_get_int` has a result where `stoi` has consumed all of the trimmed text. -/
theorem stoi_of_parseInt {s : Str} {v : CInt} (h : parseInt s = some v) :
    stoi (trimBlanks s) = some (v, (trimBlanks s).length) := by
  simp only [parseInt] at h
  split at h
  · cases h
  · cases hstoi : stoi (trimBlanks s) with
    | none =>
      simp only [hstoi] at h
      cases h
    | some result =>
      obtain ⟨w, consumed⟩ := result
      simp only [hstoi, ite_not] at h
      split at h
      · rename_i hall
        cases h
        rw [hall]
      · cases h

/-- **`try_get_int` accepts the texts of integers, and nothing else.** -/
theorem parseInt_eq_some {s : Str} {v : CInt} : parseInt s = some v ↔ IntText s v.val := by
  constructor
  · intro h
    obtain ⟨ws, sign, digits, rest, hnumeral, htext, hlength⟩ :=
      numeral_of_strtol (strtol_of_stoi (stoi_of_parseInt h))
    -- all of the trimmed text was consumed, so that nothing is behind the digits
    have hcut := Bytes.length_cString_le (trimBlanks s)
    have hlong := congrArg List.length htext
    rw [List.length_append] at hlong
    have hrest : rest = [] := List.eq_nil_of_length_eq_zero (by omega)
    have hsame : (Bytes.cString (trimBlanks s)).length = (trimBlanks s).length := by omega
    have hwhole : Bytes.cString (trimBlanks s) = trimBlanks s :=
      (List.takeWhile_prefix _).eq_of_length hsame
    obtain ⟨lead, tail, hs, hlead, htail⟩ := trimBlanks_append s
    refine ⟨lead ++ ws, sign, digits, tail, ?_, ⟨?_, hnumeral.nonempty, hnumeral.digit,
      hnumeral.value⟩, htail, v.property⟩
    · rw [hs, ← hwhole, htext, hrest, List.append_nil]
      simp only [List.append_assoc]
    · intro c hc
      rcases List.mem_append.mp hc with hblank | hspace
      · exact (isSpace_of_isBlank (hlead c hblank)).1
      · exact hnumeral.space c hspace
  · intro ⟨ws, sign, digits, tail, hs, hnumeral, htail, hrange⟩
    have htrim := IntText.trimBlanks_eq hnumeral htail
    have hshort := IntText.dropBlanks hnumeral
    have hstrtol := IntText.strtol_eq hshort (List.forall_mem_nil _)
    rw [List.append_nil] at hstrtol
    have hne : ws.dropWhile isBlank ++ sign ++ digits ≠ [] := by
      intro hnil
      exact hnumeral.nonempty (List.append_eq_nil_iff.mp hnil).2
    simp only [parseInt, hs, htrim, if_neg hne, stoi, hstrtol, dif_pos hrange]
    simp

/-- `atoi` agrees where the text is one of an integer. -/
theorem atoi_of_intText {s : Str} {v : CInt} (h : IntText s v.val) : atoi s = some v := by
  obtain ⟨ws, sign, digits, tail, rfl, hnumeral, htail, hrange⟩ := h
  simp only [atoi, IntText.strtol_eq hnumeral htail, dif_pos hrange]

/-- What `set_value_i` prints. -/
theorem intText_decimal (v : CInt) : IntText (IniFile.decimal v) v.val := by
  obtain ⟨sign, digits, htext, hnumeral⟩ := numeral_toString v.val
  refine ⟨[], sign, digits, [], ?_, hnumeral, List.forall_mem_nil _, v.property⟩
  rw [List.append_nil, List.nil_append]
  exact htext

/-! ## Settings -/

namespace IniFile

variable {f : IniFile} {m : IniMap}

theorem tryGetInt_eq_some (h : f.Rep m) {s k : Str} {v : CInt} :
    f.tryGetInt s k = some v ↔ ∃ text, m.value s k = some text ∧ IntText text v.val := by
  rw [tryGetInt, tryGetString_eq h]
  cases m.value s k with
  | none => simp
  | some text => simp [parseInt_eq_some]

theorem getValueI_fst (h : f.Rep m) (s k : Str) :
    (f.getValueI s k).1 = atoi ((m.value s k).getD []) :=
  congrArg atoi (getValue_fst h s k)

/-- Both accessors find the integer that is stored. -/
theorem accessors_of_intText (h : f.Rep m) {s k text : Str} {v : CInt}
    (hvalue : m.value s k = some text) (htext : IntText text v.val) :
    f.tryGetInt s k = some v ∧ (f.getValueI s k).1 = some v := by
  refine ⟨(tryGetInt_eq_some h).mpr ⟨text, hvalue, htext⟩, ?_⟩
  rw [getValueI_fst h, hvalue]
  exact atoi_of_intText htext

/-- **Integer settings** of an object behind any sequence of calls: `try_get_int` returns exactly the
    integers that the stored strings are texts of, `get_value_i` then returns the same, and both
    return what `set_value_i` has set. -/
theorem int_settings (ops : List Op) (s k : Str) :
    (∀ v : CInt, (run ops).tryGetInt s k = some v ↔
        ∃ text, (run ops).tryGetString s k = some text ∧ IntText text v.val) ∧
      (∀ v : CInt, (run ops).tryGetInt s k = some v → ((run ops).getValueI s k).1 = some v) ∧
      (∀ v : CInt, ((run ops).setValueI s k v true).1 = true) ∧
      ∀ (v : CInt) (create : Bool), ((run ops).setValueI s k v create).1 = true →
        ((run ops).setValueI s k v create).2.tryGetInt s k = some v ∧
          (((run ops).setValueI s k v create).2.getValueI s k).1 = some v := by
  obtain ⟨m, hrep⟩ : ∃ m, (run ops).Rep m := ⟨_, run_refines ops⟩
  refine ⟨?_, ?_, ?_, ?_⟩
  · intro v
    rw [tryGetString_eq hrep]
    exact tryGetInt_eq_some hrep
  · intro v hv
    obtain ⟨text, hvalue, htext⟩ := (tryGetInt_eq_some hrep).mp hv
    exact (accessors_of_intText hrep hvalue htext).2
  · intro v
    exact (setValue_create hrep s k (decimal v)).1
  · intro v create hset
    rcases setValue_spec hrep s k (decimal v) create with ⟨hfalse, -, -⟩ | ⟨f', hf', hrep'⟩
    · rw [setValueI, hfalse] at hset
      cases hset
    · have hvalue : (m.set s k (decimal v)).value s k = some (decimal v) :=
        (IniMap.setTo_set m s k (decimal v)).value_self
      rw [setValueI, hf']
      exact accessors_of_intText hrep' hvalue (intText_decimal v)

end IniFile

end Pdk.Config
