import Mathlib.Algebra.GroupWithZero.Nat
import Mathlib.Data.List.Basic
import Mathlib.Data.List.Nodup
import Mathlib.Tactic.Common

/-!
# Maps that keep the order of insertion

An ordered map is a list of entries with distinct keys. Inserting under a key that is there replaces
its value in place; inserting under a new key appends. `Columns` relates a map to the way programs
often store one: a vector of keys beside a vector of cells, where a cell is any representation of
the value.

## Contents

- `OrderedMap`: `lookup`, `insert`, `erase` and how they compose
- `Columns`: two parallel vectors that hold the keys and the cells of a list of entries, and what
  `push_back`, an assignment and `erase` at an index do to it
-/

namespace Foundation

variable {K V C : Type*} [DecidableEq K]

/-! ## Lists of entries -/

/-- The index at which a search from the front finds the key. -/
def position (ks : List K) (k : K) : Option ℕ :=
  ks.idxOf? k

theorem position_cons (k' : K) (ks : List K) (k : K) :
    position (k' :: ks) k = if k' = k then some 0 else (position ks k).map (· + 1) := by
  rw [position, List.idxOf?_cons]
  simp only [beq_iff_eq]
  rfl

/-- The value of the first entry under the key. -/
def assocLookup (k : K) (es : List (K × V)) : Option V :=
  es.lookup k

/-- Replace the value of the first entry under the key, or append an entry. -/
def assocInsert (k : K) (v : V) : List (K × V) → List (K × V)
  | [] => [(k, v)]
  | (k', v') :: es => if k' = k then (k', v) :: es else (k', v') :: assocInsert k v es

/-- Remove the entries under the key. -/
def assocErase (k : K) (es : List (K × V)) : List (K × V) :=
  es.filter fun e => e.1 ≠ k

theorem lookup_cons_of_ne {k k' : K} (h : k ≠ k') (v : V) (es : List (K × V)) :
    ((k', v) :: es).lookup k = es.lookup k := by
  have hbeq : (k == k') = false := beq_eq_false_iff_ne.mpr h
  rw [List.lookup_cons, hbeq]

theorem assocLookup_cons_self (k : K) (v : V) (es : List (K × V)) :
    assocLookup k ((k, v) :: es) = some v :=
  List.lookup_cons_self

/-- A key that was pushed to the end is found there. -/
theorem position_push {ks : List K} {k : K} (h : position ks k = none) :
    position (ks ++ [k]) k = some ks.length := by
  induction ks with
  | nil => simp [position]
  | cons k' ks ih =>
    rw [position_cons] at h
    by_cases hk : k' = k
    · rw [if_pos hk] at h
      cases h
    · rw [if_neg hk, Option.map_eq_none_iff] at h
      rw [List.cons_append, position_cons, if_neg hk, ih h]
      rfl

theorem map_fst_assocInsert (k : K) (v : V) (es : List (K × V)) :
    (assocInsert k v es).map Prod.fst =
      if k ∈ es.map Prod.fst then es.map Prod.fst else es.map Prod.fst ++ [k] := by
  induction es with
  | nil => rfl
  | cons e es ih =>
    obtain ⟨k', v'⟩ := e
    by_cases hk : k' = k
    · simp [assocInsert, hk]
    · have hk' : ¬k = k' := fun h => hk h.symm
      simp only [assocInsert, hk, if_false, List.map_cons, ih, List.mem_cons, hk', false_or]
      split <;> rfl

theorem lookup_assocInsert_self (k : K) (v : V) (es : List (K × V)) :
    (assocInsert k v es).lookup k = some v := by
  induction es with
  | nil => simp [assocInsert]
  | cons e es ih =>
    obtain ⟨k', v'⟩ := e
    by_cases hk : k' = k
    · simp [assocInsert, hk]
    · rw [assocInsert, if_neg hk, lookup_cons_of_ne fun h => hk h.symm]
      exact ih

theorem lookup_assocInsert_of_ne {k k' : K} (h : k' ≠ k) (v : V) (es : List (K × V)) :
    (assocInsert k v es).lookup k' = es.lookup k' := by
  induction es with
  | nil => exact lookup_cons_of_ne h v []
  | cons e es ih =>
    obtain ⟨k'', v''⟩ := e
    by_cases hk : k'' = k
    · subst hk
      rw [assocInsert, if_pos rfl, lookup_cons_of_ne h, lookup_cons_of_ne h]
    · rw [assocInsert, if_neg hk, List.lookup_cons, List.lookup_cons, ih]

/-- The second of two values under the same key is the one that counts. -/
theorem assocInsert_assocInsert (k : K) (v v' : V) (es : List (K × V)) :
    assocInsert k v' (assocInsert k v es) = assocInsert k v' es := by
  induction es with
  | nil => simp [assocInsert]
  | cons e es ih =>
    obtain ⟨k', v''⟩ := e
    by_cases hk : k' = k
    · simp [assocInsert, hk]
    · simp [assocInsert, hk, ih]

/-- Each of several entries under distinct keys is found. -/
theorem assocLookup_of_mem {k : K} {v : V} {es : List (K × V)} (hnodup : (es.map Prod.fst).Nodup)
    (h : (k, v) ∈ es) : assocLookup k es = some v := by
  induction es with
  | nil => cases h
  | cons e es ih =>
    obtain ⟨k', v'⟩ := e
    obtain ⟨hnotMem, hnodup'⟩ := List.nodup_cons.mp hnodup
    rcases List.mem_cons.mp h with heq | hmem
    · cases heq
      exact assocLookup_cons_self k v es
    · have hne : k ≠ k' := by
        rintro rfl
        exact hnotMem (List.mem_map.mpr ⟨_, hmem, rfl⟩)
      rw [assocLookup, lookup_cons_of_ne hne]
      exact ih hnodup' hmem

theorem mem_of_assocLookup {k : K} {v : V} {es : List (K × V)} (h : assocLookup k es = some v) :
    (k, v) ∈ es := by
  induction es with
  | nil => cases h
  | cons e es ih =>
    obtain ⟨k', v'⟩ := e
    by_cases hk : k = k'
    · subst hk
      rw [assocLookup_cons_self] at h
      cases h
      exact List.mem_cons_self
    · rw [assocLookup, lookup_cons_of_ne hk] at h
      exact List.mem_cons_of_mem _ (ih h)

/-- What stands in the list after an insertion stood there before, or was inserted. -/
theorem mem_assocInsert {k : K} {v : V} {es : List (K × V)} {e : K × V}
    (h : e ∈ assocInsert k v es) : e = (k, v) ∨ e ∈ es := by
  induction es with
  | nil => exact .inl (List.mem_singleton.mp h)
  | cons e' es ih =>
    obtain ⟨k', v'⟩ := e'
    rw [assocInsert] at h
    by_cases hk : k' = k
    · rw [if_pos hk, hk] at h
      exact (List.mem_cons.mp h).imp id (List.mem_cons_of_mem _)
    · rw [if_neg hk] at h
      rcases List.mem_cons.mp h with heq | hmem
      · exact .inr (heq ▸ List.mem_cons_self)
      · exact (ih hmem).imp id (List.mem_cons_of_mem _)

theorem assocInsert_ne_nil (k : K) (v : V) (es : List (K × V)) : assocInsert k v es ≠ [] := by
  cases es with
  | nil => nofun
  | cons e es =>
    obtain ⟨k', v'⟩ := e
    rw [assocInsert]
    split <;> nofun

theorem assocInsert_of_lookup {k : K} {v : V} {es : List (K × V)} (h : assocLookup k es = some v) :
    assocInsert k v es = es := by
  induction es with
  | nil => cases h
  | cons e es ih =>
    obtain ⟨k', v'⟩ := e
    by_cases hk : k' = k
    · subst hk
      rw [assocLookup_cons_self] at h
      cases h
      rw [assocInsert, if_pos rfl]
    · rw [assocLookup, lookup_cons_of_ne fun heq => hk heq.symm] at h
      rw [assocInsert, if_neg hk, ih h]

/-- A new key goes behind all entries. -/
theorem assocInsert_of_notMem {k : K} {es : List (K × V)} (h : k ∉ es.map Prod.fst) (v : V) :
    assocInsert k v es = es ++ [(k, v)] := by
  induction es with
  | nil => rfl
  | cons e es ih =>
    obtain ⟨k', v'⟩ := e
    simp only [List.map_cons, List.mem_cons, not_or] at h
    rw [assocInsert, if_neg fun heq => h.1 heq.symm, ih h.2]
    rfl

/-- An insertion passes over entries under other keys. -/
theorem assocInsert_append {k : K} {as : List (K × V)} (h : k ∉ as.map Prod.fst) (v : V)
    (bs : List (K × V)) : assocInsert k v (as ++ bs) = as ++ assocInsert k v bs := by
  induction as with
  | nil => rfl
  | cons e as ih =>
    obtain ⟨k', v'⟩ := e
    simp only [List.map_cons, List.mem_cons, not_or] at h
    rw [List.cons_append, assocInsert, if_neg fun heq => h.1 heq.symm, ih h.2]
    rfl

/-- Behind entries under other keys, a key is looked up in the rest. -/
theorem assocLookup_append {k : K} {as : List (K × V)} (h : k ∉ as.map Prod.fst)
    (bs : List (K × V)) : assocLookup k (as ++ bs) = assocLookup k bs := by
  unfold assocLookup
  induction as with
  | nil => rfl
  | cons e as ih =>
    obtain ⟨k', v'⟩ := e
    simp only [List.map_cons, List.mem_cons, not_or] at h
    rw [List.cons_append, lookup_cons_of_ne h.1, ih h.2]

/-- Inserting commutes with a change of the representation of the values. -/
theorem map_assocInsert {W : Type*} (g : V → W) (k : K) (v : V) (es : List (K × V)) :
    (assocInsert k v es).map (Prod.map id g) = assocInsert k (g v) (es.map (Prod.map id g)) := by
  induction es with
  | nil => rfl
  | cons e es ih =>
    obtain ⟨k', v'⟩ := e
    by_cases hk : k' = k
    · simp [assocInsert, hk]
    · simp [assocInsert, hk, ih]

theorem assocLookup_map {W : Type*} (g : V → W) (k : K) (es : List (K × V)) :
    assocLookup k (es.map (Prod.map id g)) = (assocLookup k es).map g := by
  unfold assocLookup
  induction es with
  | nil => rfl
  | cons e es ih =>
    obtain ⟨k', v'⟩ := e
    by_cases hk : k = k'
    · subst hk
      simp
    · rw [List.map_cons, lookup_cons_of_ne hk, ← ih]
      exact lookup_cons_of_ne hk (g v') _

/-- An insertion replaces the contribution of the old value to a sum over the entries. -/
theorem sum_assocInsert (g : K × V → ℕ) (k : K) (v : V) (es : List (K × V)) :
    ((assocInsert k v es).map g).sum + ((assocLookup k es).map fun old => g (k, old)).getD 0 =
      (es.map g).sum + g (k, v) := by
  unfold assocLookup
  induction es with
  | nil => simp [assocInsert]
  | cons e es ih =>
    obtain ⟨k', v'⟩ := e
    by_cases hk : k' = k
    · subst hk
      simp only [assocInsert, if_true, List.map_cons, List.sum_cons, List.lookup_cons_self,
        Option.map_some, Option.getD_some]
      omega
    · rw [assocInsert, if_neg hk, lookup_cons_of_ne fun heq => hk heq.symm]
      simp only [List.map_cons, List.sum_cons]
      omega

theorem map_fst_assocErase {k : K} {es : List (K × V)} :
    (assocErase k es).map Prod.fst = (es.map Prod.fst).filter fun k' => k' ≠ k := by
  rw [List.filter_map]
  rfl

theorem lookup_assocErase_self (k : K) (es : List (K × V)) : (assocErase k es).lookup k = none := by
  rw [List.lookup_eq_none_iff]
  intro e he
  have hne : e.1 ≠ k := by simpa using (List.mem_filter.mp he).2
  simpa using fun h => hne h.symm

theorem lookup_assocErase_of_ne {k k' : K} (h : k' ≠ k) (es : List (K × V)) :
    (assocErase k es).lookup k' = es.lookup k' := by
  induction es with
  | nil => rfl
  | cons e es ih =>
    obtain ⟨k'', v''⟩ := e
    by_cases hk : k'' = k
    · subst hk
      rw [lookup_cons_of_ne h]
      simpa [assocErase] using ih
    · simp only [assocErase, ne_eq, hk, not_false_iff, decide_true, List.filter_cons_of_pos,
        List.lookup_cons] at ih ⊢
      rw [ih]

theorem lookup_eq_none_iff_notMem {k : K} {es : List (K × V)} :
    es.lookup k = none ↔ k ∉ es.map Prod.fst := by
  simp only [List.lookup_eq_none_iff, bne_iff_ne, ne_eq, List.mem_map, not_exists, not_and]
  exact ⟨fun h e he hk => h e he hk.symm, fun h e he hk => h e he hk.symm⟩

/-! ## Ordered maps -/

structure OrderedMap (K V : Type*) where
  entries : List (K × V)
  nodup : (entries.map Prod.fst).Nodup

namespace OrderedMap

def empty : OrderedMap K V :=
  ⟨[], List.nodup_nil⟩

def keys (m : OrderedMap K V) : List K :=
  m.entries.map Prod.fst

def lookup (m : OrderedMap K V) (k : K) : Option V :=
  m.entries.lookup k

def insert (m : OrderedMap K V) (k : K) (v : V) : OrderedMap K V where
  entries := assocInsert k v m.entries
  nodup := by
    rw [map_fst_assocInsert]
    split
    · exact m.nodup
    · rename_i hk
      exact m.nodup.append (List.nodup_singleton k) (by simpa using hk)

def erase (m : OrderedMap K V) (k : K) : OrderedMap K V where
  entries := assocErase k m.entries
  nodup := by
    rw [map_fst_assocErase]
    exact m.nodup.filter _

omit [DecidableEq K] in
@[ext]
theorem ext_entries {m m' : OrderedMap K V} (h : m.entries = m'.entries) : m = m' := by
  cases m
  cases m'
  cases h
  rfl

variable (m : OrderedMap K V) {k k' : K} {v : V}

@[simp]
theorem lookup_insert_self : (m.insert k v).lookup k = some v :=
  lookup_assocInsert_self k v m.entries

theorem lookup_insert_of_ne (h : k' ≠ k) : (m.insert k v).lookup k' = m.lookup k' :=
  lookup_assocInsert_of_ne h v m.entries

theorem insert_insert (v' : V) : (m.insert k v).insert k v' = m.insert k v' :=
  ext_entries (assocInsert_assocInsert k v v' m.entries)

/-- Inserting the value that is there changes nothing. -/
theorem insert_of_lookup (h : m.lookup k = some v) : m.insert k v = m :=
  ext_entries (assocInsert_of_lookup h)

@[simp]
theorem lookup_erase_self : (m.erase k).lookup k = none :=
  lookup_assocErase_self k m.entries

theorem lookup_erase_of_ne (h : k' ≠ k) : (m.erase k).lookup k' = m.lookup k' :=
  lookup_assocErase_of_ne h m.entries

theorem lookup_eq_none : m.lookup k = none ↔ k ∉ m.keys :=
  lookup_eq_none_iff_notMem

/-- Each entry is found. -/
theorem lookup_of_mem (h : (k, v) ∈ m.entries) : m.lookup k = some v :=
  assocLookup_of_mem m.nodup h

theorem keys_erase : (m.erase k).keys = m.keys.filter fun k' => k' ≠ k :=
  map_fst_assocErase

/-- A key that is there keeps its place. -/
theorem keys_insert_of_mem (h : k ∈ m.keys) : (m.insert k v).keys = m.keys := by
  rw [keys, insert, map_fst_assocInsert]
  exact if_pos h

/-- A new key goes to the end. -/
theorem keys_insert_of_notMem (h : k ∉ m.keys) : (m.insert k v).keys = m.keys ++ [k] := by
  rw [keys, insert, map_fst_assocInsert]
  exact if_neg h

/-- Inserting never moves a key. -/
theorem keys_prefix_insert : m.keys <+: (m.insert k v).keys := by
  by_cases h : k ∈ m.keys
  · exact ⟨[], by rw [List.append_nil, keys_insert_of_mem m h]⟩
  · rw [keys_insert_of_notMem m h]
    exact List.prefix_append _ _

end OrderedMap

/-! ## Keys and cells in parallel vectors -/

/-- Two vectors hold the keys and the representations of the values of a list of entries. -/
inductive Columns (R : C → V → Prop) : List K → List C → List (K × V) → Prop where
  | nil : Columns R [] [] []
  | cons {k : K} {c : C} {v : V} {ks : List K} {cs : List C} {es : List (K × V)}
      (hcell : R c v) (hrest : Columns R ks cs es) : Columns R (k :: ks) (c :: cs) ((k, v) :: es)

namespace Columns

variable {R : C → V → Prop} {ks : List K} {cs : List C} {es : List (K × V)} {k : K} {c : C} {v : V}

omit [DecidableEq K] in
theorem keys_eq (h : Columns R ks cs es) : ks = es.map Prod.fst := by
  induction h with
  | nil => rfl
  | cons hcell hrest ih => rw [ih]; rfl

omit [DecidableEq K] in
theorem length_eq (h : Columns R ks cs es) : ks.length = cs.length := by
  induction h with
  | nil => rfl
  | cons hcell hrest ih => rw [List.length_cons, List.length_cons, ih]

omit [DecidableEq K] in
/-- The three lists at an index. -/
theorem getElem (h : Columns R ks cs es) {i : ℕ} (hi : i < ks.length) :
    ∃ k c v, ks[i]? = some k ∧ cs[i]? = some c ∧ es[i]? = some (k, v) ∧ R c v := by
  induction h generalizing i with
  | nil => cases hi
  | @cons k c v ks cs es hcell hrest ih =>
    cases i with
    | zero => exact ⟨k, c, v, rfl, rfl, rfl, hcell⟩
    | succ i => exact ih (Nat.lt_of_succ_lt_succ hi)

/-- Searching the keys is looking up. -/
theorem position_eq_none (h : Columns R ks cs es) : position ks k = none ↔ es.lookup k = none := by
  rw [position, List.idxOf?_eq_none_iff, lookup_eq_none_iff_notMem, h.keys_eq]

/-- The cell at the index that the search finds represents the value under the key. -/
theorem position_eq_some (h : Columns R ks cs es) {i : ℕ} (hi : position ks k = some i) :
    ∃ c v, cs[i]? = some c ∧ es.lookup k = some v ∧ R c v ∧ ks[i]? = some k := by
  induction h generalizing i with
  | nil => cases hi
  | @cons k' c v ks cs es hcell hrest ih =>
    rw [position_cons] at hi
    by_cases hk : k' = k
    · subst hk
      simp only [if_true, Option.some.injEq] at hi
      subst hi
      exact ⟨c, v, rfl, by simp, hcell, rfl⟩
    · simp only [hk, if_false, Option.map_eq_some_iff] at hi
      obtain ⟨j, hj, rfl⟩ := hi
      obtain ⟨c', v', hc', hv', hR, hkj⟩ := ih hj
      refine ⟨c', v', hc', ?_, hR, hkj⟩
      rw [lookup_cons_of_ne fun h => hk h.symm]
      exact hv'

/-- `push_back` on both vectors under a new key. -/
theorem push (h : Columns R ks cs es) (hnew : es.lookup k = none) (hcell : R c v) :
    Columns R (ks ++ [k]) (cs ++ [c]) (assocInsert k v es) := by
  induction h with
  | nil => exact .cons hcell .nil
  | @cons k' c' v' ks cs es hcell' hrest ih =>
    have hnotMem := lookup_eq_none_iff_notMem.mp hnew
    simp only [List.map_cons, List.mem_cons, not_or] at hnotMem
    have hk : ¬k' = k := fun h => hnotMem.1 h.symm
    rw [assocInsert, if_neg hk]
    exact .cons hcell' (ih (lookup_eq_none_iff_notMem.mpr hnotMem.2))

/-- Assigning the cell at the index that the search finds. -/
theorem set (h : Columns R ks cs es) {i : ℕ} (hi : position ks k = some i) (hcell : R c v) :
    Columns R ks (cs.set i c) (assocInsert k v es) := by
  induction h generalizing i with
  | nil => cases hi
  | @cons k' c' v' ks cs es hcell' hrest ih =>
    rw [position_cons] at hi
    by_cases hk : k' = k
    · subst hk
      simp only [if_true, Option.some.injEq] at hi
      subst hi
      rw [assocInsert, if_pos rfl]
      exact .cons hcell hrest
    · simp only [hk, if_false, Option.map_eq_some_iff] at hi
      obtain ⟨j, hj, rfl⟩ := hi
      rw [assocInsert, if_neg hk]
      exact .cons hcell' (ih hj)

/-- Erasing both vectors at the index that the search finds. -/
theorem eraseIdx (h : Columns R ks cs es) (hnodup : ks.Nodup) {i : ℕ}
    (hi : position ks k = some i) :
    Columns R (ks.eraseIdx i) (cs.eraseIdx i) (assocErase k es) := by
  induction h generalizing i with
  | nil => cases hi
  | @cons k' c' v' ks cs es hcell' hrest ih =>
    obtain ⟨hnotMem, hnodup'⟩ := List.nodup_cons.mp hnodup
    rw [position_cons] at hi
    by_cases hk : k' = k
    · subst hk
      simp only [if_true, Option.some.injEq] at hi
      subst hi
      have hsame : assocErase k' es = es := by
        apply List.filter_eq_self.mpr
        intro e he
        rw [hrest.keys_eq] at hnotMem
        simp only [ne_eq, decide_eq_true_eq]
        rintro rfl
        exact hnotMem (List.mem_map_of_mem he)
      have hdrop : assocErase k' ((k', v') :: es) = assocErase k' es := by simp [assocErase]
      rw [hdrop, hsame]
      exact hrest
    · simp only [hk, if_false, Option.map_eq_some_iff] at hi
      obtain ⟨j, hj, rfl⟩ := hi
      have hkeep : assocErase k ((k', v') :: es) = (k', v') :: assocErase k es := by
        simp [assocErase, hk]
      rw [hkeep]
      exact .cons hcell' (ih hnodup' hj)

end Columns

end Foundation
