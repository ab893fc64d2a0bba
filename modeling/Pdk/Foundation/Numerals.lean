import Mathlib.Data.List.Basic
import Mathlib.Data.List.TakeWhile
import Mathlib.Data.Int.Init
import Mathlib.Tactic.Common

/-!
# Decimal numerals

`strtol` with base 10 skips white space, takes a sign and then digits as long as there are any. Its
result is the value and the number of characters up to the first one that was not taken, or nothing
when there is no digit. A numeral (`Numeral`) is the text that it takes, part by part, and printing
an integer in base 10 gives a numeral of this integer.

## Contents

- `isSpace`, `isDigit`, `digitsValue`, `strtol`
- `strtol_numeral`, `numeral_of_strtol`: `strtol` takes numerals, and nothing else
- `numeral_toString`: printing
-/

namespace Foundation

/-! ## Characters -/

/-- `isspace` in the C locale: space, and the characters from tab to carriage return. -/
def isSpace (c : UInt8) : Bool :=
  c = 32 || (9 ≤ c && c ≤ 13)

/-- `isdigit`. -/
def isDigit (c : UInt8) : Bool :=
  48 ≤ c && c ≤ 57

/-- The number that a list of digits denotes. -/
def digitsValue (digits : List UInt8) : ℕ :=
  digits.foldl (fun n d => 10 * n + (d.toNat - 48)) 0

/-- An optional sign, and what is behind it. -/
def splitSign : List UInt8 → Bool × List UInt8
  | [] => (false, [])
  | c :: rest =>
    if c = 45 then (true, rest)
    else if c = 43 then (false, rest)
    else (false, c :: rest)

/-- The value of digits behind a sign. -/
def signed (negative : Bool) (n : ℕ) : ℤ :=
  if negative then -n else n

/-- `strtol(s, &end, 10)`: the value, without a bound, and how far `end` is from `s`. -/
def strtol (s : List UInt8) : Option (ℤ × ℕ) :=
  let body := s.dropWhile isSpace
  let (negative, rest) := splitSign body
  let digits := rest.takeWhile isDigit
  if digits = [] then none
  else some (signed negative (digitsValue digits), s.length - rest.length + digits.length)

/-! ## Numerals -/

/-- White space, a sign and digits that denote `v`. -/
structure Numeral (ws sign digits : List UInt8) (v : ℤ) : Prop where
  space : ∀ c ∈ ws, isSpace c = true
  nonempty : digits ≠ []
  digit : ∀ c ∈ digits, isDigit c = true
  value : (sign = [] ∨ sign = [43]) ∧ v = digitsValue digits ∨ sign = [45] ∧ v = -digitsValue digits

theorem not_isSpace_of_isDigit {c : UInt8} (h : isDigit c = true) : isSpace c = false := by
  simp only [isDigit, Bool.and_eq_true, decide_eq_true_eq, UInt8.le_iff_toNat_le] at h
  simp only [isSpace, Bool.or_eq_false_iff, decide_eq_false_iff_not, Bool.and_eq_false_iff,
    UInt8.le_iff_toNat_le, ← UInt8.toNat_inj]
  simp at h ⊢
  omega

theorem ne_of_isDigit {c d : UInt8} (h : isDigit c = true) (hd : isDigit d = false) : c ≠ d := by
  rintro rfl
  rw [h] at hd
  cases hd

namespace Numeral

variable {ws sign digits tail : List UInt8} {v : ℤ}

/-- The sign is taken, and what is behind it starts with a digit. -/
theorem splitSign_eq (h : Numeral ws sign digits v) (tail : List UInt8) :
    ∃ negative, splitSign (sign ++ digits ++ tail) = (negative, digits ++ tail) ∧
      v = signed negative (digitsValue digits) := by
  obtain ⟨d, rest, hdigits⟩ := List.exists_cons_of_ne_nil h.nonempty
  have hd : isDigit d = true := h.digit d (by rw [hdigits]; exact List.mem_cons_self)
  rcases h.value with ⟨rfl | rfl, rfl⟩ | ⟨rfl, rfl⟩
  · refine ⟨false, ?_, rfl⟩
    rw [hdigits, List.nil_append, List.cons_append, splitSign, if_neg (ne_of_isDigit hd (by decide)),
      if_neg (ne_of_isDigit hd (by decide))]
  · exact ⟨false, rfl, rfl⟩
  · exact ⟨true, rfl, rfl⟩

/-- What is behind the white space is no white space. -/
theorem dropWhile_eq (h : Numeral ws sign digits v) (tail : List UInt8) :
    (ws ++ sign ++ digits ++ tail).dropWhile isSpace = sign ++ digits ++ tail := by
  obtain ⟨d, rest, hdigits⟩ := List.exists_cons_of_ne_nil h.nonempty
  have hd : isDigit d = true := h.digit d (by rw [hdigits]; exact List.mem_cons_self)
  have hhead : (sign ++ digits ++ tail).dropWhile isSpace = sign ++ digits ++ tail := by
    rcases h.value with ⟨rfl | rfl, -⟩ | ⟨rfl, -⟩
    · rw [hdigits, List.nil_append, List.cons_append,
        List.dropWhile_cons_of_neg (by rw [not_isSpace_of_isDigit hd]; decide)]
    · rfl
    · rfl
  rw [List.append_assoc, List.append_assoc, List.dropWhile_append_of_pos h.space,
    ← List.append_assoc]
  exact hhead

end Numeral

/-- **`strtol` takes a numeral** that is not followed by a digit. -/
theorem strtol_numeral {ws sign digits tail : List UInt8} {v : ℤ} (h : Numeral ws sign digits v)
    (htail : ∀ c, tail.head? = some c → isDigit c = false) :
    strtol (ws ++ sign ++ digits ++ tail) = some (v, (ws ++ sign ++ digits).length) := by
  obtain ⟨negative, hsplit, hvalue⟩ := h.splitSign_eq tail
  have htake : (digits ++ tail).takeWhile isDigit = digits := by
    rw [List.takeWhile_append_of_pos h.digit]
    cases tail with
    | nil => rw [List.takeWhile_nil, List.append_nil]
    | cons c tail =>
      rw [List.takeWhile_cons_of_neg (by rw [htail c rfl]; decide), List.append_nil]
  have hlength : (ws ++ sign ++ digits ++ tail).length - (digits ++ tail).length + digits.length =
      (ws ++ sign ++ digits).length := by
    simp only [List.length_append]
    omega
  simp only [strtol, h.dropWhile_eq tail, hsplit, htake, if_neg h.nonempty, hlength, ← hvalue]

theorem splitSign_cases (body : List UInt8) :
    ∃ sign, body = sign ++ (splitSign body).2 ∧
      ((sign = [] ∨ sign = [43]) ∧ (splitSign body).1 = false ∨
        sign = [45] ∧ (splitSign body).1 = true) := by
  cases body with
  | nil => exact ⟨[], rfl, .inl ⟨.inl rfl, rfl⟩⟩
  | cons c rest =>
    rw [splitSign]
    split
    · rename_i hminus
      exact ⟨[45], by rw [hminus]; rfl, .inr ⟨rfl, rfl⟩⟩
    · split
      · rename_i hplus
        exact ⟨[43], by rw [hplus]; rfl, .inl ⟨.inr rfl, rfl⟩⟩
      · exact ⟨[], rfl, .inl ⟨.inl rfl, rfl⟩⟩

/-- **`strtol` takes nothing but a numeral.** -/
theorem numeral_of_strtol {s : List UInt8} {v : ℤ} {n : ℕ} (h : strtol s = some (v, n)) :
    ∃ ws sign digits tail, Numeral ws sign digits v ∧ s = ws ++ sign ++ digits ++ tail ∧
      n = (ws ++ sign ++ digits).length := by
  simp only [strtol] at h
  split at h
  · cases h
  · rename_i hne
    obtain ⟨hv, hn⟩ := Prod.mk.inj (Option.some.inj h)
    obtain ⟨sign, hbody, hsign⟩ := splitSign_cases (s.dropWhile isSpace)
    have hs : s = s.takeWhile isSpace ++ sign ++
        (splitSign (s.dropWhile isSpace)).2.takeWhile isDigit ++
          (splitSign (s.dropWhile isSpace)).2.dropWhile isDigit := by
      rw [List.append_assoc, List.takeWhile_append_dropWhile, List.append_assoc, ← hbody,
        List.takeWhile_append_dropWhile]
    refine ⟨s.takeWhile isSpace, sign, (splitSign (s.dropWhile isSpace)).2.takeWhile isDigit,
      (splitSign (s.dropWhile isSpace)).2.dropWhile isDigit, ⟨?_, hne, ?_, ?_⟩, hs, ?_⟩
    · exact fun c hc => List.mem_takeWhile_imp hc
    · exact fun c hc => List.mem_takeWhile_imp hc
    · rcases hsign with ⟨hplus, hfalse⟩ | ⟨hminus, htrue⟩
      · exact .inl ⟨hplus, by rw [← hv, hfalse]; rfl⟩
      · exact .inr ⟨hminus, by rw [← hv, htrue]; rfl⟩
    · have hlength : s.length = (s.takeWhile isSpace ++ sign).length +
          (splitSign (s.dropWhile isSpace)).2.length := by
        conv_lhs => rw [← List.takeWhile_append_dropWhile (p := isSpace) (l := s), hbody]
        simp only [List.length_append]
        omega
      rw [← hn, hlength]
      simp only [List.length_append]
      omega

/-! ## Printing -/

theorem toNat_toUInt8_of_isDigit {c : Char} (h : c.isDigit = true) :
    48 ≤ c.toNat ∧ c.toNat ≤ 57 ∧ c.toUInt8.toNat = c.toNat := by
  simp only [Char.isDigit, Bool.and_eq_true, decide_eq_true_eq, UInt32.le_iff_toNat_le] at h
  have hbounds : 48 ≤ c.toNat ∧ c.toNat ≤ 57 := h
  refine ⟨hbounds.1, hbounds.2, ?_⟩
  show c.toNat % 256 = c.toNat
  omega

theorem digitsValue_map {cs : List Char} (h : ∀ c ∈ cs, c.isDigit = true) :
    digitsValue (cs.map Char.toUInt8) = Nat.ofDigitChars 10 cs 0 := by
  have hfold : ∀ (cs : List Char) (n : ℕ), (∀ c ∈ cs, c.isDigit = true) →
      (cs.map Char.toUInt8).foldl (fun n d => 10 * n + (d.toNat - 48)) n =
        Nat.ofDigitChars 10 cs n := by
    intro cs
    induction cs with
    | nil => exact fun _ _ => rfl
    | cons c cs ih =>
      intro n hcs
      have hc := (toNat_toUInt8_of_isDigit (hcs c List.mem_cons_self)).2.2
      rw [List.map_cons, List.foldl_cons, hc, Nat.ofDigitChars_cons]
      exact ih _ fun d hd => hcs d (List.mem_cons_of_mem c hd)
  exact hfold cs 0 h

/-- The digits of a natural number. -/
theorem numeral_repr (n : ℕ) :
    let digits := n.repr.toList.map Char.toUInt8
    digits ≠ [] ∧ (∀ c ∈ digits, isDigit c = true) ∧ digitsValue digits = n := by
  have hdigit : ∀ c ∈ Nat.toDigits 10 n, c.isDigit = true := fun c hc =>
    Nat.isDigit_of_mem_toDigits (by decide) (by decide) hc
  rw [Nat.toList_repr]
  refine ⟨?_, ?_, ?_⟩
  · intro hnil
    exact Nat.toDigits_ne_nil (List.map_eq_nil_iff.mp hnil)
  · intro d hd
    obtain ⟨c, hc, rfl⟩ := List.mem_map.mp hd
    obtain ⟨hmin, hmax, hval⟩ := toNat_toUInt8_of_isDigit (hdigit c hc)
    simp only [isDigit, Bool.and_eq_true, decide_eq_true_eq, UInt8.le_iff_toNat_le, hval]
    exact ⟨hmin, hmax⟩
  · rw [digitsValue_map hdigit, Nat.ofDigitChars_ten_toDigits]

/-- **An integer is printed as a numeral.** -/
theorem numeral_toString (z : ℤ) :
    ∃ sign digits, (toString z).toList.map Char.toUInt8 = sign ++ digits ∧
      Numeral [] sign digits z := by
  rw [Int.toString_eq_repr, Int.repr_eq_if]
  split
  · rename_i hnonneg
    obtain ⟨hne, hdigit, hvalue⟩ := numeral_repr z.toNat
    refine ⟨[], _, rfl, nofun, hne, hdigit, .inl ⟨.inl rfl, ?_⟩⟩
    rw [hvalue, Int.toNat_of_nonneg hnonneg]
  · rename_i hneg
    obtain ⟨hne, hdigit, hvalue⟩ := numeral_repr (-z).toNat
    refine ⟨[45], _, ?_, nofun, hne, hdigit, .inr ⟨rfl, ?_⟩⟩
    · rw [String.toList_append, List.map_append]
      rfl
    · rw [hvalue, Int.toNat_of_nonneg (by omega), Int.neg_neg]

end Foundation
