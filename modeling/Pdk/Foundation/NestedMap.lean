import Pdk.Foundation.OrderedMap

/-!
# Maps of maps

A map from outer keys to maps from inner keys to values, as programs keep one that is indexed by a
pair: an inner map is made when its first value is stored, and removed with its last value.

## Contents

- `value`, `store`, `discard`: the three accesses under a pair of keys
- `value_store_eq_some`, `value_discard_eq_some`: what is found after an update
- `NoEmpty`: no inner map is empty, and both updates keep it so
-/

namespace Foundation

namespace OrderedMap

variable {K L V : Type*} [DecidableEq K] [DecidableEq L]

/-- The value under two keys. -/
def value (m : OrderedMap K (OrderedMap L V)) (k : K) (l : L) : Option V :=
  (m.lookup k).bind (·.lookup l)

/-- The inner map, which is created empty when it is not there. -/
def inner (m : OrderedMap K (OrderedMap L V)) (k : K) : OrderedMap L V :=
  (m.lookup k).getD empty

/-- Set the value under two keys. -/
def store (m : OrderedMap K (OrderedMap L V)) (k : K) (l : L) (v : V) : OrderedMap K (OrderedMap L V) :=
  m.insert k ((m.inner k).insert l v)

/-- Remove the value under two keys, and the inner map if it was its last one. -/
def discard (m : OrderedMap K (OrderedMap L V)) (k : K) (l : L) : OrderedMap K (OrderedMap L V) :=
  if ((m.inner k).erase l).entries = [] then m.erase k else m.insert k ((m.inner k).erase l)

/-- No inner map is empty. -/
def NoEmpty (m : OrderedMap K (OrderedMap L V)) : Prop :=
  ∀ k inner, m.lookup k = some inner → inner.entries ≠ []

variable (m : OrderedMap K (OrderedMap L V)) {k k' : K} {l l' : L} {v : V}

omit [DecidableEq L] in
theorem inner_of_lookup {inner : OrderedMap L V} (h : m.lookup k = some inner) :
    m.inner k = inner := by
  rw [OrderedMap.inner, h, Option.getD_some]

theorem value_eq_inner (k : K) (l : L) : m.value k l = (m.inner k).lookup l := by
  rw [value, inner]
  cases m.lookup k <;> rfl

/-- Values under other outer keys are not touched by a change of one inner map. -/
theorem value_insert_of_ne {inner : OrderedMap L V} (h : k' ≠ k) (l : L) :
    (m.insert k inner).value k' l = m.value k' l := by
  rw [value, lookup_insert_of_ne m h, value]

theorem value_insert_self {inner : OrderedMap L V} (l : L) :
    (m.insert k inner).value k l = inner.lookup l := by
  rw [value, lookup_insert_self, Option.bind_some]

theorem value_store_self : (m.store k l v).value k l = some v := by
  rw [store, value_insert_self, lookup_insert_self]

theorem value_store_of_ne (h : (k', l') ≠ (k, l)) : (m.store k l v).value k' l' = m.value k' l' := by
  rw [store]
  by_cases hk : k' = k
  · subst hk
    have hl : l' ≠ l := fun heq => h (by rw [heq])
    rw [value_insert_self, lookup_insert_of_ne _ hl, value_eq_inner]
  · exact value_insert_of_ne m hk l'

theorem value_discard_self : (m.discard k l).value k l = none := by
  rw [discard]
  split
  · rw [value, lookup_erase_self, Option.bind_none]
  · rw [value_insert_self, lookup_erase_self]

theorem value_discard_of_ne (h : (k', l') ≠ (k, l)) :
    (m.discard k l).value k' l' = m.value k' l' := by
  rw [discard]
  by_cases hk : k' = k
  · subst hk
    have hl : l' ≠ l := fun heq => h (by rw [heq])
    have hinner : ((m.inner k').erase l).lookup l' = m.value k' l' := by
      rw [lookup_erase_of_ne _ hl, value_eq_inner]
    split
    · -- an inner map that is empty had no other value
      rename_i hnil
      rw [← hinner, value, lookup_erase_self, Option.bind_none, lookup, hnil]
      rfl
    · rw [value_insert_self, hinner]
  · split
    · rw [value, lookup_erase_of_ne m hk, value]
    · exact value_insert_of_ne m hk l'

/-- What is found behind `store`: the new value under its keys, and the old ones elsewhere. -/
theorem value_store_eq_some {w : V} :
    (m.store k l v).value k' l' = some w ↔
      ((k', l') = (k, l) ∧ w = v) ∨ ((k', l') ≠ (k, l) ∧ m.value k' l' = some w) := by
  by_cases hkeys : (k', l') = (k, l)
  · obtain ⟨rfl, rfl⟩ := Prod.mk.inj hkeys
    rw [value_store_self]
    simp [eq_comm]
  · rw [value_store_of_ne m hkeys]
    simp [hkeys]

/-- What is found behind `discard`: the old values, except under its keys. -/
theorem value_discard_eq_some {w : V} :
    (m.discard k l).value k' l' = some w ↔ (k', l') ≠ (k, l) ∧ m.value k' l' = some w := by
  by_cases hkeys : (k', l') = (k, l)
  · obtain ⟨rfl, rfl⟩ := Prod.mk.inj hkeys
    rw [value_discard_self]
    simp
  · rw [value_discard_of_ne m hkeys]
    simp [hkeys]

/-- A value that `discard` removes is the one under its keys. -/
theorem eq_of_value_discard_ne {w : V} (hv : m.value k l = some v) (hw : m.value k' l' = some w)
    (hgone : (m.discard k l).value k' l' ≠ some w) : w = v := by
  rw [Ne, value_discard_eq_some, not_and, imp_not_comm] at hgone
  obtain ⟨rfl, rfl⟩ := Prod.mk.inj (not_not.mp (hgone hw))
  rw [hv] at hw
  exact (Option.some.inj hw).symm

omit [DecidableEq L] in
theorem noEmpty_empty : NoEmpty (empty : OrderedMap K (OrderedMap L V)) :=
  nofun

variable {m}

omit [DecidableEq L] in
/-- An inner map that is not empty may take the place of another one. -/
theorem NoEmpty.insert {inner : OrderedMap L V} (h : m.NoEmpty) (hinner : inner.entries ≠ []) (k : K) :
    (m.insert k inner).NoEmpty := by
  intro k' inner' hlookup
  by_cases hk : k' = k
  · subst hk
    rw [lookup_insert_self] at hlookup
    exact Option.some.inj hlookup ▸ hinner
  · rw [lookup_insert_of_ne m hk] at hlookup
    exact h k' inner' hlookup

theorem NoEmpty.store (h : m.NoEmpty) (k : K) (l : L) (v : V) : (m.store k l v).NoEmpty :=
  h.insert (assocInsert_ne_nil l v _) k

theorem NoEmpty.discard (h : m.NoEmpty) (k : K) (l : L) : (m.discard k l).NoEmpty := by
  rw [OrderedMap.discard]
  split
  · intro k' inner' hlookup
    by_cases hk : k' = k
    · subst hk
      rw [lookup_erase_self] at hlookup
      cases hlookup
    · rw [lookup_erase_of_ne m hk] at hlookup
      exact h k' inner' hlookup
  · rename_i hnil
    exact h.insert hnil k

end OrderedMap

end Foundation
