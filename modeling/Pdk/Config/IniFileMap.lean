import Pdk.Config.IniFile
import Pdk.Foundation.NestedMap

/-!
# `IniFile` is an ordered map of ordered maps

`Rep f m` says that the four vectors of `f` hold the ordered map `m` from section names to ordered
maps from value names to values. The search loops of an operation are lookups
(`findKey_of_lookup`, `findValue_of_lookup`), and its effect on the map is what the operation is for:
`set` for `set_value`, `erase` for the two deletions, a fold of `set` over the lines for `read_file`.
`IniMap.apply` is the same interface over the map alone, and every sequence of calls on an `IniFile`
leads to a representation of the map to which the sequence leads there (`run_refines`).
-/

namespace Pdk.Config

open Foundation

/-- The map that an `IniFile` stands for. -/
abbrev IniMap : Type := OrderedMap Str (OrderedMap Str Str)

namespace IniMap

/-- The values of a section, none when there is no such section. -/
def sectionOf (m : IniMap) (s : Str) : OrderedMap Str Str :=
  (m.lookup s).getD OrderedMap.empty

/-- The value under a section and a name. -/
def value (m : IniMap) (s k : Str) : Option Str :=
  (m.lookup s).bind (·.lookup k)

/-- Map a section and a name to a value. -/
def set (m : IniMap) (s k v : Str) : IniMap :=
  m.insert s ((m.sectionOf s).insert k v)

/-- Remove the entry of a section and a name; the section stays. -/
def unset (m : IniMap) (s k : Str) : IniMap :=
  match m.lookup s with
  | none => m
  | some inner => m.insert s (inner.erase k)

theorem value_of_lookup {m : IniMap} {s : Str} {inner : OrderedMap Str Str}
    (h : m.lookup s = some inner) (k : Str) : m.value s k = inner.lookup k := by
  rw [value, h, Option.bind_some]

theorem value_of_lookup_none {m : IniMap} {s : Str} (h : m.lookup s = none) (k : Str) :
    m.value s k = none := by
  rw [value, h, Option.bind_none]

theorem value_eq_sectionOf (m : IniMap) (s k : Str) : m.value s k = (m.sectionOf s).lookup k :=
  OrderedMap.value_eq_inner m s k

/-! ## What the operations of the map do -/

/-- After `set` the value is there, everything else is as it was, and every section and every value
    name is where it was. -/
structure SetTo (m m' : IniMap) (s k v : Str) : Prop where
  value_self : m'.value s k = some v
  value_other : ∀ s' k', (s', k') ≠ (s, k) → m'.value s' k' = m.value s' k'
  sections : m.keys <+: m'.keys
  names : ∀ s', (m.sectionOf s').keys <+: (m'.sectionOf s').keys
  -- at most the one section and the one name are new
  sections_new : ∀ s' ∈ m'.keys, s' ∈ m.keys ∨ s' = s
  names_new : ∀ s', ∀ k' ∈ (m'.sectionOf s').keys, k' ∈ (m.sectionOf s').keys ∨ (s', k') = (s, k)

theorem sectionOf_set_self (m : IniMap) (s k v : Str) :
    (m.set s k v).sectionOf s = (m.sectionOf s).insert k v := by
  rw [sectionOf, set, OrderedMap.lookup_insert_self, Option.getD_some]

theorem sectionOf_set_of_ne (m : IniMap) {s s' : Str} (h : s' ≠ s) (k v : Str) :
    (m.set s k v).sectionOf s' = m.sectionOf s' := by
  rw [sectionOf, set, OrderedMap.lookup_insert_of_ne m h]
  rfl

theorem mem_keys_insert {V : Type*} (m : OrderedMap Str V) {k k' : Str} {v : V}
    (h : k' ∈ (m.insert k v).keys) : k' ∈ m.keys ∨ k' = k := by
  by_cases hk : k ∈ m.keys
  · rw [OrderedMap.keys_insert_of_mem m hk] at h
    exact .inl h
  · rw [OrderedMap.keys_insert_of_notMem m hk] at h
    simpa using h

theorem setTo_set (m : IniMap) (s k v : Str) : SetTo m (m.set s k v) s k v := by
  refine ⟨OrderedMap.value_store_self m, fun s' k' => OrderedMap.value_store_of_ne m,
    OrderedMap.keys_prefix_insert m, ?_, fun s' => mem_keys_insert m, ?_⟩
  · intro s'
    by_cases hs : s' = s
    · subst hs
      rw [sectionOf_set_self]
      exact OrderedMap.keys_prefix_insert _
    · exact ⟨[], by rw [List.append_nil, sectionOf_set_of_ne m hs]⟩
  · intro s' k' hk'
    by_cases hs : s' = s
    · subst hs
      rw [sectionOf_set_self] at hk'
      exact (mem_keys_insert _ hk').imp id fun hk => by rw [hk]
    · rw [sectionOf_set_of_ne m hs] at hk'
      exact .inl hk'

/-- After `unset` the entry is gone, everything else is as it was and in the order it was in. -/
structure Unset (m m' : IniMap) (s k : Str) : Prop where
  value_self : m'.value s k = none
  value_other : ∀ s' k', (s', k') ≠ (s, k) → m'.value s' k' = m.value s' k'
  sections : m'.keys = m.keys
  names : (m'.sectionOf s).keys = (m.sectionOf s).keys.filter (· ≠ k)
  names_other : ∀ s', s' ≠ s → (m'.sectionOf s').keys = (m.sectionOf s').keys

theorem unset_unset {m : IniMap} {s : Str} {inner : OrderedMap Str Str}
    (h : m.lookup s = some inner) (k : Str) : Unset m (m.unset s k) s k := by
  have hunset : m.unset s k = m.insert s (inner.erase k) := by rw [unset, h]
  have hsection : m.sectionOf s = inner := by rw [sectionOf, h, Option.getD_some]
  have hself : (m.unset s k).sectionOf s = inner.erase k := by
    rw [sectionOf, hunset, OrderedMap.lookup_insert_self, Option.getD_some]
  have hother : ∀ s', s' ≠ s → (m.unset s k).sectionOf s' = m.sectionOf s' := by
    intro s' hs
    rw [sectionOf, hunset, OrderedMap.lookup_insert_of_ne m hs]
    rfl
  refine ⟨?_, ?_, ?_, ?_, fun s' hs => by rw [hother s' hs]⟩
  · rw [value_eq_sectionOf, hself, OrderedMap.lookup_erase_self]
  · intro s' k' hne
    rw [value_eq_sectionOf, value_eq_sectionOf]
    by_cases hs : s' = s
    · subst hs
      have hk : k' ≠ k := fun hk => hne (by rw [hk])
      rw [hself, hsection, OrderedMap.lookup_erase_of_ne _ hk]
    · rw [hother s' hs]
  · rw [hunset]
    apply OrderedMap.keys_insert_of_mem
    by_contra hs
    rw [(OrderedMap.lookup_eq_none m).mpr hs] at h
    cases h
  · rw [hself, hsection, OrderedMap.keys_erase]

/-- After the section is erased it is gone, everything else is as it was and in the order it was
    in. -/
structure Erased (m m' : IniMap) (s : Str) : Prop where
  lookup_self : m'.lookup s = none
  lookup_other : ∀ s', s' ≠ s → m'.lookup s' = m.lookup s'
  sections : m'.keys = m.keys.filter (· ≠ s)

theorem erased_erase (m : IniMap) (s : Str) : Erased m (m.erase s) s :=
  ⟨OrderedMap.lookup_erase_self m, fun _ hs => OrderedMap.lookup_erase_of_ne m hs,
    OrderedMap.keys_erase m⟩

end IniMap

/-! ## The representation -/

/-- The two vectors of a `Key` hold a map. -/
def KeyRep (key : Key) (inner : OrderedMap Str Str) : Prop :=
  Columns (· = ·) key.names key.values inner.entries

namespace IniFile

/-- The vectors of an `IniFile` hold a map. -/
def Rep (f : IniFile) (m : IniMap) : Prop :=
  Columns KeyRep f.names f.keys m.entries

variable {f : IniFile} {m : IniMap} {inner : OrderedMap Str Str} {s k v : Str}

theorem rep_new : new.Rep OrderedMap.empty :=
  .nil

theorem rep_reset (f : IniFile) : f.reset.Rep OrderedMap.empty :=
  .nil

theorem findName_of_position {names : List Str} {name : Str} {i : ℕ}
    (h : position names name = some i) : findName names name = i := by
  rw [findName, h]

theorem findName_of_none {names : List Str} {name : Str} (h : position names name = none) :
    findName names name = -1 := by
  rw [findName, h]

/-- `find_key` of a section that is not there. -/
theorem findKey_of_lookup_none (h : f.Rep m) (hs : m.lookup s = none) : f.findKey s = -1 :=
  findName_of_none (h.position_eq_none.mpr hs)

/-- `find_key` of a section that is there finds its `Key`. -/
theorem findKey_of_lookup (h : f.Rep m) (hs : m.lookup s = some inner) :
    ∃ i : ℕ, position f.names s = some i ∧ f.findKey s = i ∧ KeyRep (f.keyAt i) inner ∧
      f.keys[i]? = some (f.keyAt i) := by
  cases hi : position f.names s with
  | none =>
    have hnone := h.position_eq_none.mp hi
    rw [OrderedMap.lookup] at hs
    rw [hs] at hnone
    cases hnone
  | some i =>
    obtain ⟨key, inner', hkey, hlookup, hrep, -⟩ := h.position_eq_some hi
    obtain rfl : inner' = inner := Option.some.inj (hlookup.symm.trans hs)
    have hkeyAt : f.keyAt i = key := by
      rw [keyAt, Int.toNat_natCast, List.getD_eq_getElem?_getD, hkey, Option.getD_some]
    exact ⟨i, rfl, findName_of_position hi, hkeyAt ▸ hrep, hkeyAt ▸ hkey⟩

/-- `find_value` of a name that is not there. -/
theorem findValue_of_lookup_none {i : ℕ} (h : KeyRep (f.keyAt i) inner)
    (hk : inner.lookup k = none) : f.findValue i k = -1 := by
  have hnonneg : ¬(i : ℤ) < 0 := by omega
  rw [findValue, if_neg hnonneg]
  exact findName_of_none (h.position_eq_none.mpr hk)

/-- `find_value` of a name that is there finds its value. -/
theorem findValue_of_lookup {i : ℕ} (h : KeyRep (f.keyAt i) inner) (hk : inner.lookup k = some v) :
    ∃ j : ℕ, position (f.keyAt i).names k = some j ∧ f.findValue i k = j ∧
      (f.keyAt i).values.getD j [] = v := by
  have hnonneg : ¬(i : ℤ) < 0 := by omega
  cases hj : position (f.keyAt i).names k with
  | none =>
    have hnone := h.position_eq_none.mp hj
    rw [OrderedMap.lookup] at hk
    rw [hk] at hnone
    cases hnone
  | some j =>
    obtain ⟨c, v', hc, hlookup, hcell, -⟩ := h.position_eq_some hj
    obtain rfl : v' = v := Option.some.inj (hlookup.symm.trans hk)
    refine ⟨j, rfl, ?_, ?_⟩
    · rw [findValue, if_neg hnonneg]
      exact findName_of_position hj
    · rw [List.getD_eq_getElem?_getD, hc, Option.getD_some]
      exact hcell

theorem cast_ne_neg_one (i : ℕ) : ¬(i : ℤ) = -1 := by
  omega

/-! ## Lookups -/

/-- Every query is answered as the map answers it. -/
structure Answers (f : IniFile) (m : IniMap) : Prop where
  isKey : ∀ s, f.isKey s = (m.lookup s).isSome
  numValues : ∀ s, f.numValues s = ((m.lookup s).map fun inner => (inner.keys.length : ℤ)).getD (-1)
  getValue : ∀ s k, (f.getValue s k).1 = (m.value s k).getD []
  tryGetString : ∀ s k, f.tryGetString s k = m.value s k
  getValueAt : ∀ s (i : ℤ), f.getValueAt s i =
    if i < 0 then none else (m.lookup s).bind fun inner => inner.entries[i.toNat]?
  getValues : ∀ s, f.getValues s = (m.lookup s).map OrderedMap.entries

theorem getValue_fst (h : f.Rep m) (s k : Str) : (f.getValue s k).1 = (m.value s k).getD [] := by
  cases hs : m.lookup s with
  | none =>
    rw [IniMap.value_of_lookup_none hs, getValue]
    simp only [findKey_of_lookup_none h hs, if_true]
    rfl
  | some inner =>
    obtain ⟨i, -, hfind, hrep, -⟩ := findKey_of_lookup h hs
    rw [IniMap.value_of_lookup hs, getValue]
    simp only [hfind, cast_ne_neg_one, if_false]
    cases hk : inner.lookup k with
    | none =>
      simp only [findValue_of_lookup_none hrep hk, if_true]
      rfl
    | some v =>
      obtain ⟨j, -, hfindv, hvalue⟩ := findValue_of_lookup hrep hk
      simp only [hfindv, cast_ne_neg_one, if_false, Int.toNat_natCast, hvalue, Option.getD_some]

theorem tryGetString_eq (h : f.Rep m) (s k : Str) : f.tryGetString s k = m.value s k := by
  cases hs : m.lookup s with
  | none =>
    rw [IniMap.value_of_lookup_none hs, tryGetString]
    simp only [findKey_of_lookup_none h hs]
    rfl
  | some inner =>
    obtain ⟨i, -, hfind, hrep, -⟩ := findKey_of_lookup h hs
    have hi : ¬(i : ℤ) < 0 := by omega
    rw [IniMap.value_of_lookup hs, tryGetString]
    simp only [hfind, hi, if_false]
    cases hk : inner.lookup k with
    | none =>
      simp only [findValue_of_lookup_none hrep hk]
      rfl
    | some v =>
      obtain ⟨j, -, hfindv, hvalue⟩ := findValue_of_lookup hrep hk
      have hj : ¬(j : ℤ) < 0 := by omega
      simp only [hfindv, hj, if_false, Int.toNat_natCast, hvalue]

/-- The name at an index, with the value that `get_value` finds under it. -/
theorem getValue_at (h : f.Rep m) (hs : m.lookup s = some inner) {i j : ℕ}
    (hrep : KeyRep (f.keyAt i) inner) (hj : j < (f.keyAt i).names.length) :
    ∃ k v, (f.keyAt i).names[j]? = some k ∧ inner.entries[j]? = some (k, v) ∧
      (f.getValue s k).1 = v := by
  obtain ⟨k, c, v, hname, -, hentry, -⟩ := Columns.getElem hrep hj
  refine ⟨k, v, hname, hentry, ?_⟩
  have hlookup : inner.lookup k = some v :=
    OrderedMap.lookup_of_mem inner (List.mem_of_getElem? hentry)
  rw [getValue_fst h, IniMap.value_of_lookup hs, hlookup, Option.getD_some]

theorem answers (h : f.Rep m) : f.Answers m := by
  refine ⟨?_, ?_, getValue_fst h, tryGetString_eq h, ?_, ?_⟩
  · intro s
    cases hs : m.lookup s with
    | none => simp [isKey, findKey_of_lookup_none h hs]
    | some inner =>
      obtain ⟨i, -, hfind, -, -⟩ := findKey_of_lookup h hs
      simp [isKey, hfind, cast_ne_neg_one]
  · intro s
    cases hs : m.lookup s with
    | none => simp [numValues, findKey_of_lookup_none h hs]
    | some inner =>
      obtain ⟨i, -, hfind, hrep, -⟩ := findKey_of_lookup h hs
      have hkeys : (f.keyAt i).names = inner.keys := Columns.keys_eq hrep
      simp [numValues, hfind, cast_ne_neg_one, hkeys]
  · intro s i
    cases hs : m.lookup s with
    | none => simp [getValueAt, findKey_of_lookup_none h hs]
    | some inner =>
      obtain ⟨n, -, hfind, hrep, -⟩ := findKey_of_lookup h hs
      have hlen : (f.keyAt n).names.length = inner.entries.length := by
        rw [Columns.keys_eq hrep, List.length_map]
      simp only [getValueAt, hfind, cast_ne_neg_one, if_false, Option.bind_some]
      by_cases hneg : i < 0
      · rw [if_pos (.inl hneg), if_pos hneg]
      · rw [if_neg hneg]
        by_cases hout : i ≥ ((f.keyAt n).names.length : ℤ)
        · rw [if_pos (.inr hout), List.getElem?_eq_none (by omega)]
        · obtain ⟨k, v, hname, hentry, hvalue⟩ := getValue_at h hs hrep (j := i.toNat) (by omega)
          rw [if_neg (by omega), List.getD_eq_getElem?_getD, hname, Option.getD_some, hvalue, hentry]
  · intro s
    cases hs : m.lookup s with
    | none => simp [getValues, findKey_of_lookup_none h hs]
    | some inner =>
      obtain ⟨n, -, hfind, hrep, -⟩ := findKey_of_lookup h hs
      have hlen : (f.keyAt n).names.length = inner.entries.length := by
        rw [Columns.keys_eq hrep, List.length_map]
      simp only [getValues, hfind, cast_ne_neg_one, if_false, Option.map_some, Option.some.injEq]
      apply List.ext_getElem?
      intro j
      by_cases hj : j < (f.keyAt n).names.length
      · obtain ⟨k, v, hname, hentry, hvalue⟩ := getValue_at h hs hrep hj
        rw [List.getElem?_map, hname, Option.map_some, hvalue, hentry]
      · rw [List.getElem?_eq_none (by rw [List.length_map]; omega),
          List.getElem?_eq_none (by omega)]

/-! ## Updates -/

/-- Assigning to the `Key` of a section. -/
theorem rep_setKeyAt (h : f.Rep m) {i : ℕ} (hi : position f.names s = some i) {key : Key}
    (hrep : KeyRep key inner) : (f.setKeyAt i key).Rep (m.insert s inner) := by
  rw [Rep, setKeyAt, Int.toNat_natCast]
  exact Columns.set h hi hrep

/-- `set_value` on a section that is there. -/
theorem setValueIn_spec (h : f.Rep m) (hs : m.lookup s = some inner) {i : ℕ}
    (hi : position f.names s = some i) (hrep : KeyRep (f.keyAt i) inner) (k v : Str)
    (create : Bool) :
    (f.setValueIn i k v create = (false, f) ∧ create = false ∧ m.value s k = none) ∨
      (∃ f', f.setValueIn i k v create = (true, f') ∧ f'.Rep (m.set s k v)) := by
  have hset : m.set s k v = m.insert s (inner.insert k v) := by
    rw [IniMap.set, IniMap.sectionOf, hs, Option.getD_some]
  rw [hset]
  cases hk : inner.lookup k with
  | none =>
    cases create with
    | false =>
      left
      refine ⟨?_, rfl, by rw [IniMap.value_of_lookup hs, hk]⟩
      rw [setValueIn]
      simp [findValue_of_lookup_none hrep hk]
    | true =>
      right
      have hlen : (f.keyAt i).names.length = (f.keyAt i).values.length := Columns.length_eq hrep
      have hvalues : ((f.keyAt i).values ++ [[]]).set
          (((f.keyAt i).names ++ [k]).length - 1) v = (f.keyAt i).values ++ [v] := by
        rw [List.length_append, hlen]
        simp
      have hpushed : KeyRep ⟨(f.keyAt i).values ++ [v], (f.keyAt i).names ++ [k]⟩
          (inner.insert k v) := Columns.push hrep hk rfl
      refine ⟨_, ?_, rep_setKeyAt h hi hpushed⟩
      rw [setValueIn]
      simp only [findValue_of_lookup_none hrep hk, if_true, hvalues]
  | some old =>
    right
    obtain ⟨j, hj, hfindv, -⟩ := findValue_of_lookup hrep hk
    have hassigned : KeyRep ⟨(f.keyAt i).values.set j v, (f.keyAt i).names⟩
        (inner.insert k v) := Columns.set hrep hj rfl
    refine ⟨_, ?_, rep_setKeyAt h hi hassigned⟩
    rw [setValueIn]
    simp only [hfindv, cast_ne_neg_one, if_false, Int.toNat_natCast]

/-- `set_value` without `create` on an entry that is not there. -/
theorem setValue_refused (h : f.Rep m) (hvalue : m.value s k = none) (v : Str) :
    f.setValue s k v false = (false, f) := by
  cases hs : m.lookup s with
  | none =>
    rw [setValue]
    simp [findKey_of_lookup_none h hs]
  | some inner =>
    obtain ⟨i, -, hfind, hrep, -⟩ := findKey_of_lookup h hs
    rw [IniMap.value_of_lookup hs] at hvalue
    rw [setValue]
    simp only [hfind, cast_ne_neg_one, if_false]
    rw [setValueIn]
    simp [findValue_of_lookup_none hrep hvalue]

/-- **`set_value`** refuses to create, or sets the value. -/
theorem setValue_spec (h : f.Rep m) (s k v : Str) (create : Bool) :
    (f.setValue s k v create = (false, f) ∧ create = false ∧ m.value s k = none) ∨
      (∃ f', f.setValue s k v create = (true, f') ∧ f'.Rep (m.set s k v)) := by
  cases hs : m.lookup s with
  | some inner =>
    obtain ⟨i, hi, hfind, hrep, -⟩ := findKey_of_lookup h hs
    have hdef : f.setValue s k v create = f.setValueIn i k v create := by
      rw [setValue]
      simp only [hfind, cast_ne_neg_one, if_false]
    rw [hdef]
    exact setValueIn_spec h hs hi hrep k v create
  | none =>
    cases create with
    | false =>
      left
      refine ⟨?_, rfl, IniMap.value_of_lookup_none hs k⟩
      rw [setValue]
      simp [findKey_of_lookup_none h hs]
    | true =>
      right
      -- the new section is found behind the others
      have hpush : Rep { f with names := f.names ++ [s], keys := f.keys ++ [Key.mk [] []] }
          (m.insert s OrderedMap.empty) := Columns.push h hs .nil
      have hpos : position (f.names ++ [s]) s = some f.names.length :=
        position_push (h.position_eq_none.mpr hs)
      have hlookup : (m.insert s OrderedMap.empty).lookup s = some OrderedMap.empty :=
        OrderedMap.lookup_insert_self m
      obtain ⟨i, hi, -, hrep, -⟩ := findKey_of_lookup hpush hlookup
      obtain rfl : f.names.length = i := Option.some.inj (hpos.symm.trans hi)
      have hdef : f.setValue s k v true =
          setValueIn { f with names := f.names ++ [s], keys := f.keys ++ [Key.mk [] []] }
            f.names.length k v true := by
        rw [setValue]
        simp [findKey_of_lookup_none h hs]
      have hset : IniMap.set (m.insert s OrderedMap.empty) s k v = m.set s k v := by
        rw [IniMap.set, IniMap.set, IniMap.sectionOf, IniMap.sectionOf, hlookup, hs,
          OrderedMap.insert_insert]
        rfl
      rcases setValueIn_spec hpush hlookup hi hrep k v true with ⟨-, hcreate, -⟩ | ⟨f', hf', hrep'⟩
      · cases hcreate
      · exact ⟨f', hdef.trans hf', hset ▸ hrep'⟩

/-- **`delete_value`** finds nothing, or removes the entry. -/
theorem deleteValue_spec (h : f.Rep m) (s k : Str) :
    (f.deleteValue s k = (false, f) ∧ m.value s k = none) ∨
      (∃ f' inner v, f.deleteValue s k = (true, f') ∧ m.lookup s = some inner ∧
        m.value s k = some v ∧ f'.Rep (m.unset s k)) := by
  cases hs : m.lookup s with
  | none =>
    left
    refine ⟨?_, IniMap.value_of_lookup_none hs k⟩
    rw [deleteValue]
    simp [findKey_of_lookup_none h hs]
  | some inner =>
    obtain ⟨i, hi, hfind, hrep, -⟩ := findKey_of_lookup h hs
    cases hk : inner.lookup k with
    | none =>
      left
      refine ⟨?_, by rw [IniMap.value_of_lookup hs, hk]⟩
      rw [deleteValue]
      simp [hfind, findValue_of_lookup_none hrep hk]
    | some v =>
      right
      obtain ⟨j, hj, hfindv, -⟩ := findValue_of_lookup hrep hk
      have hnodup : (f.keyAt i).names.Nodup := by
        rw [Columns.keys_eq hrep]
        exact inner.nodup
      have herased : KeyRep ⟨(f.keyAt i).values.eraseIdx j, (f.keyAt i).names.eraseIdx j⟩
          (inner.erase k) := Columns.eraseIdx hrep hnodup hj
      have hunset : m.unset s k = m.insert s (inner.erase k) := by rw [IniMap.unset, hs]
      refine ⟨_, inner, v, ?_, rfl, by rw [IniMap.value_of_lookup hs, hk],
        hunset ▸ rep_setKeyAt h hi herased⟩
      rw [deleteValue]
      simp [hfind, hfindv, cast_ne_neg_one]

/-- **`delete_key`** finds nothing, or removes the section. -/
theorem deleteKey_spec (h : f.Rep m) (s : Str) :
    (f.deleteKey s = (false, f) ∧ m.lookup s = none) ∨
      (∃ f' inner, f.deleteKey s = (true, f') ∧ m.lookup s = some inner ∧ f'.Rep (m.erase s)) := by
  cases hs : m.lookup s with
  | none =>
    left
    refine ⟨?_, rfl⟩
    rw [deleteKey]
    simp [findKey_of_lookup_none h hs]
  | some inner =>
    right
    obtain ⟨i, hi, hfind, -, -⟩ := findKey_of_lookup h hs
    have hnodup : f.names.Nodup := by
      rw [Columns.keys_eq h]
      exact m.nodup
    have herased : Rep { f with
        keys := f.keys.eraseIdx i
        names := f.names.eraseIdx i } (m.erase s) := Columns.eraseIdx h hnodup hi
    refine ⟨_, inner, ?_, rfl, herased⟩
    rw [deleteKey]
    simp [hfind, cast_ne_neg_one]

/-! ## Whole runs -/

/-- `set_value` with `create` always succeeds. -/
theorem setValue_create (h : f.Rep m) (s k v : Str) :
    (f.setValue s k v true).1 = true ∧ (f.setValue s k v true).2.Rep (m.set s k v) := by
  rcases setValue_spec h s k v true with ⟨-, hcreate, -⟩ | ⟨f', hf', hrep⟩
  · cases hcreate
  · rw [hf']
    exact ⟨rfl, hrep⟩

/-- The calls that change an `IniFile`. -/
inductive Op where
  | setValue (keyname valuename value : Str) (create : Bool)
  | setValueI (keyname valuename : Str) (value : CInt) (create : Bool)
  | deleteValue (keyname valuename : Str)
  | deleteKey (keyname : Str)
  | reset
  | readFile (content : Option Str)

/-- A call: what it returns (`reset` returns nothing) and the object after it. -/
def apply (f : IniFile) : Op → Bool × IniFile
  | .setValue keyname valuename value create => f.setValue keyname valuename value create
  | .setValueI keyname valuename value create => f.setValueI keyname valuename value create
  | .deleteValue keyname valuename => f.deleteValue keyname valuename
  | .deleteKey keyname => f.deleteKey keyname
  | .reset => (true, f.reset)
  | .readFile content => f.readFile content

/-- A sequence of calls on a new object. -/
def run (ops : List Op) : IniFile :=
  ops.foldl (fun f op => (f.apply op).2) new

end IniFile

/-! ### The calls on the map -/

namespace IniMap

def setValue (m : IniMap) (s k v : Str) (create : Bool) : Bool × IniMap :=
  if create || (m.value s k).isSome then (true, m.set s k v) else (false, m)

def deleteValue (m : IniMap) (s k : Str) : Bool × IniMap :=
  if (m.value s k).isSome then (true, m.unset s k) else (false, m)

def deleteKey (m : IniMap) (s : Str) : Bool × IniMap :=
  if (m.lookup s).isSome then (true, m.erase s) else (false, m)

/-- A line of a file, under the section of the last heading. -/
def readLine (state : Str × IniMap) : Line → Str × IniMap
  | .skip => state
  | .heading s => (s, state.2)
  | .entry k v => (state.1, state.2.set state.1 k v)

/-- The lines of a file, in their order. -/
def readLines (m : IniMap) (lines : List Line) : IniMap :=
  (lines.foldl readLine ([], m)).2

/-- A file that cannot be opened changes nothing. -/
def readFile (m : IniMap) : Option Str → Bool × IniMap
  | none => (false, m)
  | some text => (true, m.readLines ((chunks lf fgetsRoom text).map parseLine))

def apply (m : IniMap) : IniFile.Op → Bool × IniMap
  | .setValue keyname valuename value create => m.setValue keyname valuename value create
  | .setValueI keyname valuename value create => m.setValue keyname valuename (IniFile.decimal value) create
  | .deleteValue keyname valuename => m.deleteValue keyname valuename
  | .deleteKey keyname => m.deleteKey keyname
  | .reset => (true, OrderedMap.empty)
  | .readFile content => m.readFile content

/-- A sequence of calls on the empty map. -/
def run (ops : List IniFile.Op) : IniMap :=
  ops.foldl (fun m op => (m.apply op).2) OrderedMap.empty

end IniMap

namespace IniFile

variable {f : IniFile} {m : IniMap}

/-- One chunk of `read_file`. -/
theorem readLine_refines {state : Str × IniFile} {state' : Str × IniMap} (hkey : state.1 = state'.1)
    (hrep : state.2.Rep state'.2) (buf : Str) :
    (readLine state buf).1 = (IniMap.readLine state' (parseLine buf)).1 ∧
      (readLine state buf).2.Rep (IniMap.readLine state' (parseLine buf)).2 := by
  unfold readLine
  cases parseLine buf with
  | skip => exact ⟨hkey, hrep⟩
  | heading s => exact ⟨rfl, hrep⟩
  | entry k v =>
    rw [hkey]
    exact ⟨rfl, (setValue_create hrep state'.1 k v).2⟩

/-- **`read_file`** sets the entries of the lines, in their order. -/
theorem readText_refines (h : f.Rep m) (text : Str) :
    (f.readText text).Rep (m.readLines ((chunks lf fgetsRoom text).map parseLine)) := by
  have hfold : ∀ (bufs : List Str) (state : Str × IniFile) (state' : Str × IniMap),
      state.1 = state'.1 → state.2.Rep state'.2 →
      (bufs.foldl readLine state).2.Rep
        ((bufs.map parseLine).foldl IniMap.readLine state').2 := by
    intro bufs
    induction bufs with
    | nil => exact fun _ _ _ hrep => hrep
    | cons buf bufs ih =>
      intro state state' hkey hrep
      obtain ⟨hkey', hrep'⟩ := readLine_refines hkey hrep buf
      exact ih _ _ hkey' hrep'
  exact hfold _ ([], f) ([], m) rfl h

theorem setValue_refines (h : f.Rep m) (s k v : Str) (create : Bool) :
    (f.setValue s k v create).1 = (m.setValue s k v create).1 ∧
      (f.setValue s k v create).2.Rep (m.setValue s k v create).2 := by
  rw [IniMap.setValue]
  rcases setValue_spec h s k v create with ⟨heq, rfl, hvalue⟩ | ⟨f', heq, hrep⟩
  · rw [heq, hvalue]
    exact ⟨rfl, h⟩
  · have hset : (create || (m.value s k).isSome) = true := by
      -- without `create`, a value is only set when there is one
      cases create with
      | true => rfl
      | false =>
        cases hvalue : m.value s k with
        | some old => rfl
        | none => exact absurd heq (by rw [setValue_refused h hvalue v]; nofun)
    rw [heq, if_pos hset]
    exact ⟨rfl, hrep⟩

/-- **Step lemma**: a call returns what it returns on the map, and has the effect it has there. -/
theorem apply_refines (h : f.Rep m) (op : Op) :
    (f.apply op).1 = (m.apply op).1 ∧ (f.apply op).2.Rep (m.apply op).2 := by
  cases op with
  | setValue s k v create => exact setValue_refines h s k v create
  | setValueI s k v create => exact setValue_refines h s k (decimal v) create
  | deleteValue s k =>
    rw [apply, IniMap.apply, IniMap.deleteValue]
    rcases deleteValue_spec h s k with ⟨heq, hvalue⟩ | ⟨f', _, _, heq, -, hvalue, hrep⟩
    · rw [heq, hvalue]
      exact ⟨rfl, h⟩
    · rw [heq, hvalue]
      exact ⟨rfl, hrep⟩
  | deleteKey s =>
    rw [apply, IniMap.apply, IniMap.deleteKey]
    rcases deleteKey_spec h s with ⟨heq, hlookup⟩ | ⟨f', _, heq, hlookup, hrep⟩
    · rw [heq, hlookup]
      exact ⟨rfl, h⟩
    · rw [heq, hlookup]
      exact ⟨rfl, hrep⟩
  | reset => exact ⟨rfl, rep_reset f⟩
  | readFile content =>
    cases content with
    | none => exact ⟨rfl, h⟩
    | some text => exact ⟨rfl, readText_refines h text⟩

/-- **Run lemma**. -/
theorem run_refines (ops : List Op) : (run ops).Rep (IniMap.run ops) := by
  have hfold : ∀ (ops : List Op) (f : IniFile) (m : IniMap), f.Rep m →
      (ops.foldl (fun f op => (f.apply op).2) f).Rep
        (ops.foldl (fun m op => (m.apply op).2) m) := by
    intro ops
    induction ops with
    | nil => exact fun _ _ hm => hm
    | cons op ops ih => exact fun f m hm => ih _ _ (apply_refines hm op).2
  exact hfold ops new OrderedMap.empty rep_new

/-! ## The contract -/

/-- Names and values are vectors of equal length, and no name occurs twice. -/
structure Wf (f : IniFile) : Prop where
  length_names : f.names.length = f.keys.length
  nodup_names : f.names.Nodup
  length_values : ∀ key ∈ f.keys, key.names.length = key.values.length
  nodup_values : ∀ key ∈ f.keys, key.names.Nodup

/-- Each cell of a column represents some value. -/
theorem exists_of_mem_cells {R : Key → OrderedMap Str Str → Prop} {ks : List Str} {cs : List Key}
    {es : List (Str × OrderedMap Str Str)} (h : Columns R ks cs es) {key : Key} (hkey : key ∈ cs) :
    ∃ inner, R key inner := by
  obtain ⟨i, hi, hget⟩ := List.mem_iff_getElem.mp hkey
  obtain ⟨_, c, inner, -, hc, -, hR⟩ := h.getElem (h.length_eq ▸ hi)
  rw [List.getElem?_eq_getElem hi, hget] at hc
  cases hc
  exact ⟨inner, hR⟩

theorem wf_of_rep (h : f.Rep m) : f.Wf := by
  refine ⟨Columns.length_eq h, ?_, ?_, ?_⟩
  · rw [Columns.keys_eq h]
    exact m.nodup
  · intro key hkey
    obtain ⟨inner, hinner⟩ := exists_of_mem_cells h hkey
    exact Columns.length_eq hinner
  · intro key hkey
    obtain ⟨inner, hinner⟩ := exists_of_mem_cells h hkey
    rw [Columns.keys_eq hinner]
    exact inner.nodup

/-- The updates have on the map the effect they are for, and they return whether they had it. -/
structure Updates (f : IniFile) (m : IniMap) : Prop where
  setValue : ∀ s k v create,
    ((f.setValue s k v create).1 = (create || (m.value s k).isSome)) ∧
      ∃ m', (f.setValue s k v create).2.Rep m' ∧
        ((f.setValue s k v create).1 = true → IniMap.SetTo m m' s k v)
  setValueI : ∀ s k (v : CInt) create,
    ((f.setValueI s k v create).1 = (create || (m.value s k).isSome)) ∧
      ∃ m', (f.setValueI s k v create).2.Rep m' ∧
        ((f.setValueI s k v create).1 = true → IniMap.SetTo m m' s k (decimal v))
  deleteValue : ∀ s k,
    ((f.deleteValue s k).1 = (m.value s k).isSome) ∧
      ∃ m', (f.deleteValue s k).2.Rep m' ∧ ((f.deleteValue s k).1 = true → IniMap.Unset m m' s k)
  deleteKey : ∀ s,
    ((f.deleteKey s).1 = (m.lookup s).isSome) ∧
      ∃ m', (f.deleteKey s).2.Rep m' ∧ ((f.deleteKey s).1 = true → IniMap.Erased m m' s)
  reset : f.reset.Rep OrderedMap.empty
  readFile : ∀ text, (f.readFile (some text)).1 = true ∧
    (f.readFile (some text)).2.Rep (m.readLines ((chunks lf fgetsRoom text).map parseLine))
  -- a file that cannot be opened
  readFile_none : (f.readFile none).1 = false ∧ (f.readFile none).2.Rep m

/-- `set_value` on the map, as the two `set_value`s of an `IniFile` share it. -/
theorem setValue_updates (h : f.Rep m) (s k v : Str) (create : Bool) :
    ((f.setValue s k v create).1 = (create || (m.value s k).isSome)) ∧
      ∃ m', (f.setValue s k v create).2.Rep m' ∧
        ((f.setValue s k v create).1 = true → IniMap.SetTo m m' s k v) := by
  obtain ⟨hresult, hrep⟩ := setValue_refines h s k v create
  rw [hresult]
  rw [IniMap.setValue] at hrep ⊢
  cases hset : create || (m.value s k).isSome with
  | false =>
    rw [hset] at hrep
    exact ⟨rfl, m, hrep, nofun⟩
  | true =>
    rw [hset] at hrep
    exact ⟨rfl, _, hrep, fun _ => IniMap.setTo_set m s k v⟩

theorem updates (h : f.Rep m) : f.Updates m := by
  refine ⟨setValue_updates h, fun s k v => setValue_updates h s k (decimal v), ?_, ?_, rep_reset f,
    fun text => ⟨rfl, readText_refines h text⟩, rfl, h⟩
  · intro s k
    rcases deleteValue_spec h s k with ⟨heq, hvalue⟩ | ⟨f', inner, v, heq, hs, hvalue, hrep⟩
    · rw [heq, hvalue]
      exact ⟨rfl, m, h, nofun⟩
    · rw [heq, hvalue]
      exact ⟨rfl, _, hrep, fun _ => IniMap.unset_unset hs k⟩
  · intro s
    rcases deleteKey_spec h s with ⟨heq, hlookup⟩ | ⟨f', inner, heq, hs, hrep⟩
    · rw [heq, hlookup]
      exact ⟨rfl, m, h, nofun⟩
    · rw [heq, hs]
      exact ⟨rfl, _, hrep, fun _ => IniMap.erased_erase m s⟩

/-- A call that returns false changes neither sections nor names nor values. -/
theorem apply_false (h : f.Rep m) (op : Op) (hfalse : (f.apply op).1 = false) :
    (f.apply op).2.names = f.names ∧ (f.apply op).2.keys = f.keys := by
  have hsame : (f.apply op).2 = f → (f.apply op).2.names = f.names ∧ (f.apply op).2.keys = f.keys :=
    fun heq => by rw [heq]; exact ⟨rfl, rfl⟩
  cases op with
  | setValue s k v create =>
    rcases setValue_spec h s k v create with ⟨heq, -⟩ | ⟨f', heq, -⟩
    · exact hsame (by rw [apply, heq])
    · rw [apply, heq] at hfalse
      cases hfalse
  | setValueI s k v create =>
    rcases setValue_spec h s k (decimal v) create with ⟨heq, -⟩ | ⟨f', heq, -⟩
    · exact hsame (by rw [apply, setValueI, heq])
    · rw [apply, setValueI, heq] at hfalse
      cases hfalse
  | deleteValue s k =>
    rcases deleteValue_spec h s k with ⟨heq, -⟩ | ⟨f', _, _, heq, -⟩
    · exact hsame (by rw [apply, heq])
    · rw [apply, heq] at hfalse
      cases hfalse
  | deleteKey s =>
    rcases deleteKey_spec h s with ⟨heq, -⟩ | ⟨f', _, heq, -⟩
    · exact hsame (by rw [apply, heq])
    · rw [apply, heq] at hfalse
      cases hfalse
  | reset => cases hfalse
  | readFile content =>
    cases content with
    | none => exact ⟨rfl, rfl⟩
    | some text => cases hfalse

/-- **`IniFile` is an ordered map of ordered maps.** After every sequence of calls, the vectors are
    parallel and hold, without duplicates, the map to which the same calls lead from the empty map;
    every query is answered as this map answers it; every update has its effect on it and on nothing
    else, and the next call returns what it returns there; and a call that returns false leaves
    sections, names and values as they were. -/
theorem run_is_map (ops : List Op) :
    (run ops).Rep (IniMap.run ops) ∧ (run ops).Wf ∧ (run ops).Answers (IniMap.run ops) ∧
      (run ops).Updates (IniMap.run ops) ∧
      ∀ op, ((run ops).apply op).1 = ((IniMap.run ops).apply op).1 ∧
        (((run ops).apply op).1 = false →
          ((run ops).apply op).2.names = (run ops).names ∧
            ((run ops).apply op).2.keys = (run ops).keys) := by
  have hrep := run_refines ops
  exact ⟨hrep, wf_of_rep hrep, answers hrep, updates hrep,
    fun op => ⟨(apply_refines hrep op).1, apply_false hrep op⟩⟩

end IniFile

end Pdk.Config
