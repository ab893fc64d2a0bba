import Pdk.Config.IniFileInt

/-!
# Boolean settings

`get_bool_or` and `get<bool>` trim the stored string as `try_get_int` does, and compare it with five
words for either value without regard to case. An unknown word is no setting: the one returns the
default, the other nothing.
-/

namespace Pdk.Config

open Foundation

/-! ## The accessors -/

/-- `::tolower`. -/
def toLower (c : UInt8) : UInt8 := if 65 ≤ c ∧ c ≤ 90 then c + 32 else c

/-- The bytes of an ASCII literal. -/
def literal (s : String) : Str := s.toList.map fun c => UInt8.ofNat c.toNat

/-- The words of `parse_bool` and of `is_explicitly_false`. -/
def boolWords : Bool → List Str
  | true => ["1", "true", "yes", "on", "y"].map literal
  | false => ["0", "false", "no", "off", "n"].map literal

/-- `is_truthy(trimmed)`. -/
def isTruthy (trimmed : Str) : Bool := trimmed.map toLower ∈ boolWords true

/-- `is_explicitly_false(trimmed)`. -/
def isExplicitlyFalse (trimmed : Str) : Bool := trimmed.map toLower ∈ boolWords false

namespace IniFile

/-- `get_bool_or(section, key, default_value)`. -/
def getBoolOr (f : IniFile) (sectionName key : Str) (defaultValue : Bool) : Bool :=
  match f.tryGetString sectionName key with
  | none => defaultValue
  | some v =>
    let trimmed := trimBlanks v
    if trimmed = [] then defaultValue
    else if isTruthy trimmed then true
    else if isExplicitlyFalse trimmed then false
    else defaultValue

/-- `get<bool>(section, key)`. -/
def getBool (f : IniFile) (sectionName key : Str) : Option Bool :=
  match f.tryGetString sectionName key with
  | none => none
  | some v =>
    let trimmed := trimBlanks v
    if trimmed = [] then none
    else if isTruthy trimmed then some true
    else if isExplicitlyFalse trimmed then some false
    else none

end IniFile

/-! ## Texts of booleans -/

/-- A word for the value, in any case, between blanks. -/
def BoolText (s : Str) (b : Bool) : Prop :=
  ∃ lead word tail, s = lead ++ word ++ tail ∧ (∀ c ∈ lead, isBlank c = true) ∧
    (∀ c ∈ tail, isBlank c = true) ∧ word.map toLower ∈ boolWords b

theorem not_isBlank_of_le {c : UInt8} (h : 65 ≤ c.toNat) : isBlank c = false := by
  cases hblank : isBlank c with
  | false => rfl
  | true => rcases isBlank_cases hblank with rfl | rfl | rfl | rfl <;> exact absurd h (by decide)

theorem isBlank_toLower (c : UInt8) : isBlank (toLower c) = isBlank c := by
  unfold toLower
  split
  · rename_i hupper
    have hlow : 65 ≤ c.toNat := UInt8.le_iff_toNat_le.mp hupper.1
    have hhigh : c.toNat ≤ 90 := UInt8.le_iff_toNat_le.mp hupper.2
    have hsum : (c + 32).toNat = c.toNat + 32 := by
      have h32 : (32 : UInt8).toNat = 32 := rfl
      rw [UInt8.toNat_add, h32]
      exact Nat.mod_eq_of_lt (by omega)
    rw [not_isBlank_of_le hlow, not_isBlank_of_le (by omega)]
  · rfl

/-- A word has no blanks, and is not empty. -/
theorem boolWords_core {b : Bool} {w : Str} (hw : w ∈ boolWords b) :
    w ≠ [] ∧ ∀ c ∈ w, isBlank c = false := by
  have hall : (boolWords b).all (fun w => w ≠ [] && w.all (! isBlank ·)) = true := by
    cases b with
    | true => decide
    | false => decide
  simpa using List.all_eq_true.mp hall w hw

/-- No word is for both values. -/
theorem boolWords_disjoint {w : Str} (hw : w ∈ boolWords true) : w ∉ boolWords false := by
  have hall : (boolWords true).all (fun w => w ∉ boolWords false) = true := by decide
  simpa using List.all_eq_true.mp hall w hw

theorem core_of_word {b : Bool} {word : Str} (h : word.map toLower ∈ boolWords b) :
    word ≠ [] ∧ ∀ c ∈ word, isBlank c = false := by
  obtain ⟨hne, hblank⟩ := boolWords_core h
  refine ⟨fun hnil => hne (by rw [hnil]; rfl), fun c hc => ?_⟩
  rw [← isBlank_toLower]
  exact hblank _ (List.mem_map_of_mem hc)

/-- `trim` finds the word between the blanks. -/
theorem trimBlanks_core {lead core tail : Str} (hne : core ≠ [])
    (hcore : ∀ c ∈ core, isBlank c = false) (hlead : ∀ c ∈ lead, isBlank c = true)
    (htail : ∀ c ∈ tail, isBlank c = true) : trimBlanks (lead ++ core ++ tail) = core := by
  have hfront : (lead ++ core ++ tail).dropWhile isBlank = core ++ tail := by
    obtain ⟨c, rest, rfl⟩ := List.exists_cons_of_ne_nil hne
    rw [List.append_assoc, List.dropWhile_append_of_pos hlead, List.cons_append,
      List.dropWhile_cons_of_neg (by rw [hcore c List.mem_cons_self]; decide)]
  have hback : (core ++ tail).rdropWhile isBlank = core := by
    obtain ⟨rest, c, rfl⟩ := List.eq_nil_or_concat' core |>.resolve_left hne
    rw [List.rdropWhile, List.reverse_append,
      List.dropWhile_append_of_pos (fun c hc => htail c (List.mem_reverse.mp hc)), ← List.rdropWhile,
      List.rdropWhile_concat_neg _ _ _ (by rw [hcore c (by simp)]; decide)]
  rw [trimBlanks, hfront, hback]

/-- What the accessors make of a stored string. -/
def boolOf (s : Str) : Option Bool :=
  if trimBlanks s = [] then none
  else if isTruthy (trimBlanks s) then some true
  else if isExplicitlyFalse (trimBlanks s) then some false
  else none

theorem boolOf_of_word {b : Bool} {s : Str} (h : (trimBlanks s).map toLower ∈ boolWords b) :
    boolOf s = some b := by
  rw [boolOf, if_neg (core_of_word h).1]
  cases b with
  | true => rw [if_pos (by simpa [isTruthy] using h)]
  | false =>
    have hnot : ¬isTruthy (trimBlanks s) = true := by
      intro htrue
      exact boolWords_disjoint (by simpa [isTruthy] using htrue) h
    rw [if_neg hnot, if_pos (by simpa [isExplicitlyFalse] using h)]

theorem boolOf_eq_some {s : Str} {b : Bool} : boolOf s = some b ↔ BoolText s b := by
  constructor
  · intro h
    have hword : (trimBlanks s).map toLower ∈ boolWords b := by
      unfold boolOf at h
      split at h
      · cases h
      · split at h
        · rename_i htrue
          cases h
          simpa [isTruthy] using htrue
        · split at h
          · rename_i hfalse
            cases h
            simpa [isExplicitlyFalse] using hfalse
          · cases h
    obtain ⟨lead, tail, hs, hlead, htail⟩ := trimBlanks_append s
    exact ⟨lead, trimBlanks s, tail, hs, hlead, htail, hword⟩
  · rintro ⟨lead, word, tail, rfl, hlead, htail, hword⟩
    obtain ⟨hne, hcore⟩ := core_of_word hword
    refine boolOf_of_word ?_
    rw [trimBlanks_core hne hcore hlead htail]
    exact hword

/-! ## Settings -/

namespace IniFile

variable {f : IniFile} {m : IniMap}

theorem getBool_eq (f : IniFile) (s k : Str) :
    f.getBool s k = (f.tryGetString s k).bind boolOf := by
  unfold getBool
  split
  · rename_i hnone
    rw [hnone]
    rfl
  · rename_i v hsome
    rw [hsome]
    rfl

theorem getBoolOr_eq (f : IniFile) (s k : Str) (defaultValue : Bool) :
    f.getBoolOr s k defaultValue = (f.getBool s k).getD defaultValue := by
  unfold getBoolOr getBool
  split
  · rfl
  · simp only
    split
    · rfl
    · split
      · rfl
      · split <;> rfl

theorem getBool_eq_some (h : f.Rep m) {s k : Str} {b : Bool} :
    f.getBool s k = some b ↔ ∃ text, m.value s k = some text ∧ BoolText text b := by
  rw [getBool_eq, tryGetString_eq h, Option.bind_eq_some_iff]
  simp only [boolOf_eq_some]

/-- **Boolean settings** of an object behind any sequence of calls: `get<bool>` returns exactly the
    value that the stored string is a text of, `get_bool_or` returns the same, and its default if there
    is none; a text for a value that was set is returned as this value. -/
theorem bool_settings (ops : List Op) (s k : Str) :
    (∀ b, (run ops).getBool s k = some b ↔
        ∃ text, (run ops).tryGetString s k = some text ∧ BoolText text b) ∧
      (∀ defaultValue, (run ops).getBoolOr s k defaultValue =
        ((run ops).getBool s k).getD defaultValue) ∧
      ∀ (text : Str) (create b : Bool), BoolText text b →
        ((run ops).setValue s k text create).1 = true →
        ∀ defaultValue, ((run ops).setValue s k text create).2.getBoolOr s k defaultValue = b := by
  obtain ⟨m, hrep⟩ : ∃ m, (run ops).Rep m := ⟨_, run_refines ops⟩
  refine ⟨fun b => ?_, getBoolOr_eq (run ops) s k, ?_⟩
  · rw [tryGetString_eq hrep]
    exact getBool_eq_some hrep
  · intro text create b htext hset defaultValue
    rcases setValue_spec hrep s k text create with ⟨hfalse, -, -⟩ | ⟨f', hf', hrep'⟩
    · rw [hfalse] at hset
      cases hset
    · have hvalue : (m.set s k text).value s k = some text := (IniMap.setTo_set m s k text).value_self
      rw [hf', getBoolOr_eq, (getBool_eq_some hrep').mpr ⟨text, hvalue, htext⟩]
      rfl

end IniFile

end Pdk.Config
