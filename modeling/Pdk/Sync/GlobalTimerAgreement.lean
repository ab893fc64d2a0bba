import Mathlib.Data.List.Nodup
import Pdk.Sync.GlobalTimer

/-!
# Map, list and memory of `GlobalTimer`

`Registered` is the invariant of runs in which no timer is started under a number that does not fit
into a byte: the list names each record once, the map finds each record of the list under its own
owner and number, and it finds nothing else. Ending a timer, by `stop_timer` or by the scan, is one
and the same change of the three structures (`Registered.drop`), so that the scan is a fold of it
over the records whose term has elapsed (`scan_spec`).

A number that does not fit is the one thing that breaks the agreement (`not_agrees_add`).
-/

namespace Pdk.Sync

open Foundation

/-- A number that the record can hold. -/
def Fits (nWhich : CInt) : Prop :=
  0 ≤ nWhich.val ∧ nWhich.val ≤ 255

instance (nWhich : CInt) : Decidable (Fits nWhich) :=
  inferInstanceAs (Decidable (_ ∧ _))

theorem toNat_toUint8 (nWhich : CInt) : ((toUint8 nWhich).toNat : ℤ) = nWhich.val % 256 := by
  have hpos : 0 ≤ nWhich.val % 256 := Int.emod_nonneg _ (by decide)
  have hlt : nWhich.val % 256 < 256 := Int.emod_lt_of_pos _ (by decide)
  rw [toUint8, UInt8.toNat_ofNat_of_lt' (by omega : (nWhich.val % 256).toNat < 2 ^ 8)]
  exact Int.toNat_of_nonneg hpos

/-- The record holds the number exactly when it fits. -/
theorem ofUint8_toUint8 {nWhich : CInt} : ofUint8 (toUint8 nWhich) = nWhich ↔ Fits nWhich := by
  have hnat := toNat_toUint8 nWhich
  constructor
  · intro heq
    have hval : ((toUint8 nWhich).toNat : ℤ) = nWhich.val := congrArg Subtype.val heq
    exact ⟨by omega, by omega⟩
  · intro hfits
    obtain ⟨hmin, hmax⟩ := hfits
    apply Subtype.ext
    show ((toUint8 nWhich).toNat : ℤ) = nWhich.val
    omega

theorem fits_ofUint8 (b : UInt8) : Fits (ofUint8 b) := by
  have hlt := b.toNat_lt
  show 0 ≤ (b.toNat : ℤ) ∧ (b.toNat : ℤ) ≤ 255
  omega

namespace GlobalTimer

variable {O P : Type*} [DecidableEq O] [DecidableEq P]
variable {t t' : GlobalTimer O P} {obj : O} {nWhich : CInt} {p : P} {spec : TimeSpec O}
  {ntv : TimeVal}

/-! ## The invariant -/

structure Registered (t : GlobalTimer O P) : Prop where
  nodup : t.timerList.Nodup
  -- a record of the list is live, and the map has it under what it says itself
  listed : ∀ p ∈ t.timerList, ∃ spec, t.live.lookup p = some spec ∧
    t.timerMap.value spec.obj (ofUint8 spec.nWhich) = some p
  -- a record of the map is live, is in the list, and says itself where the map has it
  mapped : ∀ obj nWhich p, t.timerMap.value obj nWhich = some p → p ∈ t.timerList ∧
    ∃ spec, t.live.lookup p = some spec ∧ spec.obj = obj ∧ ofUint8 spec.nWhich = nWhich
  noEmpty : t.timerMap.NoEmpty

theorem registered_new : (new : GlobalTimer O P).Registered := by
  refine ⟨List.nodup_nil, ?_, ?_, OrderedMap.noEmpty_empty⟩
  · intro p hp
    cases hp
  · intro obj nWhich p hvalue
    have hnone : (new : GlobalTimer O P).timerMap.value obj nWhich = none := rfl
    rw [hnone] at hvalue
    cases hvalue

/-- Two places of the map have different records. -/
theorem Registered.place_unique (h : t.Registered) {obj' : O} {nWhich' : CInt}
    (hvalue : t.timerMap.value obj nWhich = some p)
    (hvalue' : t.timerMap.value obj' nWhich' = some p) : (obj', nWhich') = (obj, nWhich) := by
  obtain ⟨-, spec, hspec, rfl, rfl⟩ := h.mapped obj nWhich p hvalue
  obtain ⟨-, spec', hspec', rfl, rfl⟩ := h.mapped obj' nWhich' p hvalue'
  rw [hspec] at hspec'
  cases hspec'
  rfl

/-- The record of a place is the one whose data name this place. -/
theorem Registered.value_iff (h : t.Registered) (hp : p ∈ t.timerList)
    (hspec : t.live.lookup p = some spec) :
    t.timerMap.value obj nWhich = some p ↔ spec.obj = obj ∧ ofUint8 spec.nWhich = nWhich := by
  constructor
  · intro hvalue
    obtain ⟨-, spec', hspec', hplace⟩ := h.mapped obj nWhich p hvalue
    rw [hspec] at hspec'
    cases hspec'
    exact hplace
  · intro hplace
    obtain ⟨spec', hspec', hvalue⟩ := h.listed p hp
    rw [hspec] at hspec'
    cases hspec'
    rw [← hplace.1, ← hplace.2]
    exact hvalue

/-! ## Starting a timer -/

/-- `start_timer` of a timer that is running. -/
theorem addElement_running (h : t.timerMap.value obj nWhich = some p) (msecs : CInt) (tv : TimeVal)
    (q : P) : t.addElement obj msecs nWhich tv q = (false, t) := by
  have hrunning : ((t.timerMap.inner obj).lookup nWhich).isSome = true := by
    rw [← OrderedMap.value_eq_inner, h]
    rfl
  -- the inner map was there, so that `timer_map_[obj]` makes none
  have hsame : t.timerMap.insert obj (t.timerMap.inner obj) = t.timerMap := by
    rw [OrderedMap.value, Option.bind_eq_some_iff] at h
    obtain ⟨whichMap, hlookup, -⟩ := h
    rw [OrderedMap.inner_of_lookup _ hlookup]
    exact OrderedMap.insert_of_lookup _ hlookup
  simp only [addElement, hrunning, if_true, hsame]

/-- `start_timer` of a timer that is not running. -/
theorem addElement_new (h : t.timerMap.value obj nWhich = none) (msecs : CInt) (tv : TimeVal)
    (p : P) :
    t.addElement obj msecs nWhich tv p =
      (true, ⟨t.timerMap.store obj nWhich p, t.timerList ++ [p],
        t.live.insert p ⟨tv, msecs, toUint8 nWhich, obj⟩⟩) := by
  have hstopped : ((t.timerMap.inner obj).lookup nWhich).isSome = false := by
    rw [← OrderedMap.value_eq_inner, h]
    rfl
  simp only [addElement, hstopped, OrderedMap.insert_insert]
  rfl

theorem Registered.add (h : t.Registered) (hnone : t.timerMap.value obj nWhich = none)
    (hfresh : t.live.lookup p = none) (hfits : Fits nWhich) (msecs : CInt) (tv : TimeVal) :
    (t.addElement obj msecs nWhich tv p).2.Registered := by
  rw [addElement_new hnone]
  have hnotListed : p ∉ t.timerList := by
    intro hp
    obtain ⟨spec, hspec, -⟩ := h.listed p hp
    rw [hfresh] at hspec
    cases hspec
  have hround := ofUint8_toUint8.mpr hfits
  refine ⟨?_, ?_, ?_, h.noEmpty.store obj nWhich p⟩
  · exact h.nodup.append (List.nodup_singleton p) (by simpa using hnotListed)
  · intro q hq
    rcases List.mem_append.mp hq with hold | hnew
    · obtain ⟨spec, hspec, hvalue⟩ := h.listed q hold
      have hqp : q ≠ p := fun heq => hnotListed (heq ▸ hold)
      refine ⟨spec, by rw [OrderedMap.lookup_insert_of_ne _ hqp]; exact hspec, ?_⟩
      -- the old records stand elsewhere
      have hplace : (spec.obj, ofUint8 spec.nWhich) ≠ (obj, nWhich) := by
        intro heq
        obtain ⟨hobj, hwhich⟩ := Prod.mk.inj heq
        rw [hobj, hwhich, hnone] at hvalue
        cases hvalue
      rw [OrderedMap.value_store_of_ne _ hplace]
      exact hvalue
    · obtain rfl := List.mem_singleton.mp hnew
      refine ⟨_, OrderedMap.lookup_insert_self _, ?_⟩
      show (t.timerMap.store obj nWhich q).value obj (ofUint8 (toUint8 nWhich)) = some q
      rw [hround, OrderedMap.value_store_self]
  · intro obj' nWhich' q hvalue
    rcases (OrderedMap.value_store_eq_some _).mp hvalue with ⟨hplace, rfl⟩ | ⟨-, hold⟩
    · obtain ⟨rfl, rfl⟩ := Prod.mk.inj hplace
      exact ⟨by simp, _, OrderedMap.lookup_insert_self _, rfl, hround⟩
    · obtain ⟨hlisted, spec, hspec, hself⟩ := h.mapped obj' nWhich' q hold
      have hqp : q ≠ p := fun heq => hnotListed (heq ▸ hlisted)
      refine ⟨List.mem_append_left _ hlisted, spec, ?_, hself⟩
      rw [OrderedMap.lookup_insert_of_ne _ hqp]
      exact hspec

/-! ## Ending a timer -/

/-- What the scan does to the map and the memory when it ends a timer. -/
def unlink (t : GlobalTimer O P) (obj : O) (nWhich : CInt) (p : P) : GlobalTimer O P :=
  ⟨t.timerMap.discard obj nWhich, t.timerList, t.live.erase p⟩

/-- The three structures without a record. -/
def drop (t : GlobalTimer O P) (obj : O) (nWhich : CInt) (p : P) : GlobalTimer O P :=
  ⟨t.timerMap.discard obj nWhich, t.timerList.filter (· ≠ p), t.live.erase p⟩

theorem Registered.drop (h : t.Registered) (hvalue : t.timerMap.value obj nWhich = some p) :
    (t.drop obj nWhich p).Registered := by
  refine ⟨h.nodup.filter _, ?_, ?_, h.noEmpty.discard obj nWhich⟩
  · intro q hq
    obtain ⟨hlisted, hne⟩ := List.mem_filter.mp hq
    have hqp : q ≠ p := of_decide_eq_true hne
    obtain ⟨spec, hspec, hplace⟩ := h.listed q hlisted
    refine ⟨spec, (OrderedMap.lookup_erase_of_ne _ hqp).trans hspec, ?_⟩
    refine (OrderedMap.value_discard_of_ne _ ?_).trans hplace
    intro heq
    obtain ⟨hobj, hwhich⟩ := Prod.mk.inj heq
    rw [hobj, hwhich, hvalue] at hplace
    exact hqp (Option.some.inj hplace).symm
  · intro obj' nWhich' q hq
    obtain ⟨hplace, hold⟩ := (OrderedMap.value_discard_eq_some _).mp hq
    have hqp : q ≠ p := by
      intro heq
      exact hplace (h.place_unique hvalue (heq ▸ hold))
    obtain ⟨hlisted, spec, hspec, hself⟩ := h.mapped obj' nWhich' q hold
    exact ⟨List.mem_filter.mpr ⟨hlisted, decide_eq_true hqp⟩, spec,
      (OrderedMap.lookup_erase_of_ne _ hqp).trans hspec, hself⟩

/-- `stop_timer` of a timer that is not running. -/
theorem removeElement_none (h : t.timerMap.value obj nWhich = none) :
    t.removeElement obj nWhich = some (false, t) := by
  unfold removeElement
  cases hlookup : t.timerMap.lookup obj with
  | none => rfl
  | some whichMap =>
    rw [OrderedMap.value, hlookup, Option.bind_some] at h
    simp only [h]

/-- `stop_timer` of a timer that is running. -/
theorem removeElement_some (h : t.timerMap.value obj nWhich = some p)
    (hlive : t.live.lookup p = some spec) :
    t.removeElement obj nWhich = some (true, t.drop obj nWhich p) := by
  rw [OrderedMap.value, Option.bind_eq_some_iff] at h
  obtain ⟨whichMap, hlookup, hwhich⟩ := h
  simp only [removeElement, hlookup, hwhich, hlive, Option.isSome_some, if_true]
  rfl

/-- `stop_timer` of a timer whose record was deleted. -/
theorem removeElement_deleted (h : t.timerMap.value obj nWhich = some p)
    (hdeleted : t.live.lookup p = none) : t.removeElement obj nWhich = none := by
  rw [OrderedMap.value, Option.bind_eq_some_iff] at h
  obtain ⟨whichMap, hlookup, hwhich⟩ := h
  simp only [removeElement, hlookup, hwhich, hdeleted]
  rfl

/-! ## The scan -/

/-- The term of the record has elapsed. -/
def due (t : GlobalTimer O P) (ntv : TimeVal) (p : P) : Bool :=
  (t.live.lookup p).any fun spec => decide (spec.Elapsed ntv)

/-- The event of a record. -/
def eventOf (t : GlobalTimer O P) (ntv : TimeVal) (p : P) : Option (O × EventInfo) :=
  (t.live.lookup p).map fun spec => (spec.obj, timerEvent spec ntv)

/-- What the loop does to a list of records: it ends those that are due. -/
structure Scanned (ntv : TimeVal) (t : GlobalTimer O P) (todo kept : List P)
    (events : List (O × EventInfo)) (t' : GlobalTimer O P) : Prop where
  kept_eq : kept = todo.filter fun p => !t.due ntv p
  events_eq : events = (todo.filter (t.due ntv)).filterMap (t.eventOf ntv)
  live_eq : ∀ q, t'.live.lookup q = if q ∈ todo ∧ t.due ntv q then none else t.live.lookup q
  value_eq : ∀ obj nWhich, t'.timerMap.value obj nWhich =
    (t.timerMap.value obj nWhich).filter fun q => !decide (q ∈ todo ∧ t.due ntv q)

/-- One element under whose owner and number the map finds a record. -/
theorem scanSpec_eq {q : P} (ntv : TimeVal) (hspec : t.live.lookup p = some spec)
    (hvalue : t.timerMap.value spec.obj (ofUint8 spec.nWhich) = some q) :
    scanSpec ntv t p =
      if spec.Elapsed ntv then
        some (some (spec.obj, timerEvent spec ntv), t.unlink spec.obj (ofUint8 spec.nWhich) p)
      else some (none, t) := by
  rw [OrderedMap.value, Option.bind_eq_some_iff] at hvalue
  obtain ⟨whichMap, hlookup, hwhich⟩ := hvalue
  simp only [scanSpec, hspec, hlookup, hwhich]
  rfl

/-- One element under whose owner and number the map finds nothing. -/
theorem scanSpec_none (ntv : TimeVal) (hspec : t.live.lookup p = some spec)
    (hvalue : t.timerMap.value spec.obj (ofUint8 spec.nWhich) = none) :
    scanSpec ntv t p = some (none, t) := by
  unfold scanSpec
  rw [hspec]
  cases hlookup : t.timerMap.lookup spec.obj with
  | none => simp only [hlookup]
  | some whichMap =>
    rw [OrderedMap.value, hlookup, Option.bind_some] at hvalue
    simp only [hlookup, hvalue]

/-- One element is looked at without a look at the list. -/
theorem scanSpec_timerList (ntv : TimeVal) (t : GlobalTimer O P) (p : P) (l : List P) :
    scanSpec ntv { t with timerList := l } p =
      (scanSpec ntv t p).map fun r => (r.1, { r.2 with timerList := l }) := by
  cases hspec : t.live.lookup p with
  | none => simp only [scanSpec, hspec, Option.map_none]
  | some spec =>
    cases hvalue : t.timerMap.value spec.obj (ofUint8 spec.nWhich) with
    | none =>
      rw [scanSpec_none ntv hspec hvalue]
      exact scanSpec_none ntv hspec hvalue
    | some q =>
      rw [scanSpec_eq ntv hspec hvalue]
      refine (scanSpec_eq (t := { t with timerList := l }) ntv hspec hvalue).trans ?_
      split <;> rfl

/-- The other records are as due as they were, and have the events that they had. -/
theorem due_unlink (obj : O) (nWhich : CInt) (ntv : TimeVal) {q : P} (hq : q ≠ p) :
    (t.unlink obj nWhich p).due ntv q = t.due ntv q := by
  have hlive : (t.unlink obj nWhich p).live.lookup q = t.live.lookup q :=
    OrderedMap.lookup_erase_of_ne _ hq
  rw [due, hlive, due]

theorem eventOf_unlink (obj : O) (nWhich : CInt) (ntv : TimeVal) {q : P} (hq : q ≠ p) :
    (t.unlink obj nWhich p).eventOf ntv q = t.eventOf ntv q := by
  have hlive : (t.unlink obj nWhich p).live.lookup q = t.live.lookup q :=
    OrderedMap.lookup_erase_of_ne _ hq
  rw [eventOf, hlive, eventOf]

theorem filter_ne_middle {before todo : List P} (h : (before ++ p :: todo).Nodup) :
    (before ++ p :: todo).filter (· ≠ p) = before ++ todo := by
  rw [List.nodup_middle, List.nodup_cons, List.mem_append, not_or] at h
  obtain ⟨⟨hbefore, htodo⟩, -⟩ := h
  rw [List.filter_append, List.filter_cons_of_neg (by simp)]
  congr 1
  · exact List.filter_eq_self.mpr fun q hq => decide_eq_true fun heq => hbefore (heq ▸ hq)
  · exact List.filter_eq_self.mpr fun q hq => decide_eq_true fun heq => htodo (heq ▸ hq)

/-- The first record is due: the rest of the loop runs without it. -/
theorem Scanned.cons_due {todo kept : List P} {events : List (O × EventInfo)}
    (hp : p ∉ todo) (hspec : t.live.lookup p = some spec) (hdue : spec.Elapsed ntv)
    (hvalue : t.timerMap.value spec.obj (ofUint8 spec.nWhich) = some p)
    (hunique : ∀ obj nWhich, t.timerMap.value obj nWhich = some p →
      (obj, nWhich) = (spec.obj, ofUint8 spec.nWhich))
    (h : Scanned ntv (t.unlink spec.obj (ofUint8 spec.nWhich) p)
      todo kept events t') :
    Scanned ntv t (p :: todo) kept ((spec.obj, timerEvent spec ntv) :: events) t' := by
  have hdues := fun q (hq : q ≠ p) => due_unlink (t := t) spec.obj (ofUint8 spec.nWhich) ntv hq
  have hne : ∀ q ∈ todo, q ≠ p := fun q hq heq => hp (heq ▸ hq)
  have hpdue : t.due ntv p = true := by
    rw [due, hspec]
    exact decide_eq_true hdue
  have hended : ∀ q, q ≠ p →
      ((q ∈ todo ∧ (t.unlink spec.obj (ofUint8 spec.nWhich) p).due ntv q = true) ↔
        (q ∈ p :: todo ∧ t.due ntv q = true)) := by
    intro q hq
    rw [hdues q hq, List.mem_cons, or_iff_right hq]
  refine ⟨?_, ?_, ?_, ?_⟩
  · rw [h.kept_eq, List.filter_cons_of_neg (by simp [hpdue])]
    exact List.filter_congr fun q hq => by rw [hdues q (hne q hq)]
  · have hp_event : t.eventOf ntv p = some (spec.obj, timerEvent spec ntv) := by
      rw [eventOf, hspec, Option.map_some]
    rw [h.events_eq, List.filter_cons_of_pos hpdue, List.filterMap_cons_some hp_event,
      List.filter_congr fun q hq => hdues q (hne q hq)]
    congr 1
    exact List.filterMap_congr fun q hq => eventOf_unlink _ _ ntv (hne q (List.mem_of_mem_filter hq))
  · intro q
    rw [h.live_eq]
    by_cases hq : q = p
    · subst hq
      rw [if_neg fun hmem => hp hmem.1, if_pos ⟨List.mem_cons_self, hpdue⟩]
      exact OrderedMap.lookup_erase_self _
    · simp only [hended q hq]
      split
      · rfl
      · exact OrderedMap.lookup_erase_of_ne _ hq
  · intro obj nWhich
    rw [h.value_eq]
    by_cases hplace : (obj, nWhich) = (spec.obj, ofUint8 spec.nWhich)
    · obtain ⟨rfl, rfl⟩ := Prod.mk.inj hplace
      have hgone : (t.timerMap.discard spec.obj (ofUint8 spec.nWhich)).value spec.obj
          (ofUint8 spec.nWhich) = none := OrderedMap.value_discard_self _
      show Option.filter _ ((t.timerMap.discard spec.obj (ofUint8 spec.nWhich)).value spec.obj
        (ofUint8 spec.nWhich)) = _
      rw [hgone, hvalue, Option.filter_some_neg (by simp [hpdue])]
      rfl
    · have hkeep : (t.timerMap.discard spec.obj (ofUint8 spec.nWhich)).value obj nWhich =
          t.timerMap.value obj nWhich := OrderedMap.value_discard_of_ne _ hplace
      show Option.filter _ ((t.timerMap.discard spec.obj (ofUint8 spec.nWhich)).value obj
        nWhich) = _
      rw [hkeep]
      cases hq : t.timerMap.value obj nWhich with
      | none => rfl
      | some q =>
        have hqp : q ≠ p := fun heq => hplace (hunique obj nWhich (heq ▸ hq))
        simp only [Option.filter, hended q hqp]

/-- The first record is not due: the loop passes over it. -/
theorem Scanned.cons_not_due {todo kept : List P} {events : List (O × EventInfo)}
    (hdue : t.due ntv p = false) (h : Scanned ntv t todo kept events t') :
    Scanned ntv t (p :: todo) (p :: kept) events t' := by
  have hended : ∀ q, (q ∈ p :: todo ∧ t.due ntv q = true) ↔ (q ∈ todo ∧ t.due ntv q = true) := by
    intro q
    constructor
    · intro ⟨hmem, hq⟩
      rcases List.mem_cons.mp hmem with rfl | hmem
      · rw [hdue] at hq
        cases hq
      · exact ⟨hmem, hq⟩
    · intro ⟨hmem, hq⟩
      exact ⟨List.mem_cons_of_mem p hmem, hq⟩
  refine ⟨?_, ?_, ?_, ?_⟩
  · rw [h.kept_eq, List.filter_cons_of_pos (by simp [hdue])]
  · rw [h.events_eq, List.filter_cons_of_neg (by simp [hdue])]
  · intro q
    simp only [hended q]
    exact h.live_eq q
  · intro obj nWhich
    simp only [hended]
    exact h.value_eq obj nWhich

/-- **The loop of the scan.** The records before the iterator and those behind it are registered,
    and stay so. -/
theorem scanList_spec (ntv : TimeVal) (before todo : List P) (t : GlobalTimer O P)
    (h : ({ t with timerList := before ++ todo } : GlobalTimer O P).Registered) :
    ∃ kept events t', scanList ntv todo t = some (kept, events, t') ∧
      ({ t' with timerList := before ++ kept } : GlobalTimer O P).Registered ∧
      Scanned ntv t todo kept events t' := by
  induction todo generalizing before t with
  | nil =>
    refine ⟨[], [], t, rfl, h, rfl, rfl, ?_, ?_⟩
    · intro q
      rw [if_neg fun hmem => List.not_mem_nil hmem.1]
    · intro obj nWhich
      cases t.timerMap.value obj nWhich with
      | none => rfl
      | some q => rw [Option.filter_some_pos (by simp)]
  | cons p todo ih =>
    obtain ⟨spec, hspec, hvalue⟩ := h.listed p (List.mem_append_right _ List.mem_cons_self)
    have hspec' : t.live.lookup p = some spec := hspec
    have hnodup : (before ++ p :: todo).Nodup := h.nodup
    have hstep := scanSpec_eq ntv hspec' hvalue
    by_cases hdue : spec.Elapsed ntv
    · rw [if_pos hdue] at hstep
      have hp : p ∉ todo := by
        rw [List.nodup_middle, List.nodup_cons, List.mem_append, not_or] at hnodup
        exact hnodup.1.2
      have hreg := h.drop hvalue
      rw [GlobalTimer.drop, filter_ne_middle hnodup] at hreg
      obtain ⟨kept, events, t', hscan, hreg', hscanned⟩ := ih before
        (t.unlink spec.obj (ofUint8 spec.nWhich) p) hreg
      refine ⟨kept, (spec.obj, timerEvent spec ntv) :: events, t', ?_, hreg', ?_⟩
      · simp only [scanList, hstep, hscan]
      · exact hscanned.cons_due hp hspec' hdue hvalue fun obj nWhich hq => h.place_unique hvalue hq
    · rw [if_neg hdue] at hstep
      have hnotDue : t.due ntv p = false := by
        rw [due, hspec']
        exact decide_eq_false hdue
      obtain ⟨kept, events, t', hscan, hreg', hscanned⟩ := ih (before ++ [p]) t
        (by rw [List.append_assoc]; exact h)
      refine ⟨p :: kept, events, t', ?_, ?_, hscanned.cons_not_due hnotDue⟩
      · simp only [scanList, hstep, hscan]
      · rw [List.append_assoc] at hreg'
        exact hreg'

/-- **The scan** ends the timers that are due and leaves the others. -/
theorem scan_spec (h : t.Registered) (ntv : TimeVal) :
    ∃ events t', t.scan ntv = some (events, t') ∧ t'.Registered ∧
      Scanned ntv t t.timerList t'.timerList events t' := by
  obtain ⟨kept, events, t', hscan, hreg, hscanned⟩ := scanList_spec ntv [] t.timerList t h
  refine ⟨events, { t' with timerList := kept }, ?_, hreg, ?_⟩
  · rw [scan, hscan]
  · exact ⟨hscanned.kept_eq, hscanned.events_eq, hscanned.live_eq, hscanned.value_eq⟩

/-! ## Agreement -/

/-- Map and list describe the same timers, none of which was deleted, and the next scan ends every
    timer that is due. -/
structure Agrees (t : GlobalTimer O P) : Prop where
  same : ∀ p spec, t.live.lookup p = some spec →
    (p ∈ t.timerList ↔ t.timerMap.value spec.obj (ofUint8 spec.nWhich) = some p)
  once : t.timerList.Nodup
  list_live : ∀ p ∈ t.timerList, (t.live.lookup p).isSome
  map_live : ∀ obj nWhich p, t.timerMap.value obj nWhich = some p → (t.live.lookup p).isSome
  fires : ∀ p spec ntv,
    (p ∈ t.timerList ∨ ∃ obj nWhich, t.timerMap.value obj nWhich = some p) →
      t.live.lookup p = some spec → spec.Elapsed ntv →
      ∃ events t', t.scan ntv = some (events, t') ∧ (spec.obj, timerEvent spec ntv) ∈ events ∧
        p ∉ t'.timerList ∧ ∀ obj nWhich, t'.timerMap.value obj nWhich ≠ some p

theorem Registered.agrees (h : t.Registered) : t.Agrees := by
  refine ⟨?_, h.nodup, ?_, ?_, ?_⟩
  · intro p spec hspec
    constructor
    · intro hp
      exact (h.value_iff hp hspec).mpr ⟨rfl, rfl⟩
    · intro hvalue
      exact (h.mapped _ _ p hvalue).1
  · intro p hp
    obtain ⟨spec, hspec, -⟩ := h.listed p hp
    rw [hspec]
    rfl
  · intro obj nWhich p hvalue
    obtain ⟨-, spec, hspec, -⟩ := h.mapped obj nWhich p hvalue
    rw [hspec]
    rfl
  · intro p spec ntv hreach hspec hdue
    have hp : p ∈ t.timerList := by
      rcases hreach with hp | ⟨obj, nWhich, hvalue⟩
      · exact hp
      · exact (h.mapped obj nWhich p hvalue).1
    have hpdue : t.due ntv p = true := by
      rw [due, hspec]
      exact decide_eq_true hdue
    obtain ⟨events, t', hscan, hreg, hscanned⟩ := scan_spec h ntv
    have hgone : p ∉ t'.timerList := by
      rw [hscanned.kept_eq]
      intro hmem
      have hnot := (List.mem_filter.mp hmem).2
      rw [hpdue] at hnot
      cases hnot
    refine ⟨events, t', hscan, ?_, hgone, ?_⟩
    · rw [hscanned.events_eq, List.mem_filterMap]
      refine ⟨p, List.mem_filter.mpr ⟨hp, hpdue⟩, ?_⟩
      rw [eventOf, hspec, Option.map_some]
    · intro obj nWhich hvalue
      exact hgone (hreg.mapped obj nWhich p hvalue).1

/-- A record that was started under a number that does not fit is in the list only. -/
theorem not_agrees_add (hnone : t.timerMap.value obj nWhich = none) (hfits : ¬Fits nWhich)
    (hagrees : t.Agrees) (hfresh : t.live.lookup p = none) (msecs : CInt) (tv : TimeVal) :
    ¬(t.addElement obj msecs nWhich tv p).2.Agrees := by
  rw [addElement_new hnone]
  intro h
  have hsame := (h.same p ⟨tv, msecs, toUint8 nWhich, obj⟩ (OrderedMap.lookup_insert_self _)).mp
    (List.mem_append_right _ (List.mem_singleton_self p))
  have hplace : (obj, ofUint8 (toUint8 nWhich)) ≠ (obj, nWhich) := by
    intro heq
    exact hfits (ofUint8_toUint8.mp (Prod.mk.inj heq).2)
  -- under the number that the record holds there is another record, or none
  have hold : t.timerMap.value obj (ofUint8 (toUint8 nWhich)) = some p := by
    rw [← hsame]
    exact (OrderedMap.value_store_of_ne _ hplace).symm
  have hlive := hagrees.map_live _ _ p hold
  rw [hfresh] at hlive
  cases hlive

end GlobalTimer

/-! ## Runs -/

/-- A `start_timer` with a number that fits, or another action. -/
def TimerAction.InRange {O P : Type*} : TimerAction O P → Prop
  | .startTimer _ _ nWhich _ _ => Fits nWhich
  | _ => True

namespace TimerSystem

open GlobalTimer

variable {O P : Type*} [DecidableEq O] [DecidableEq P]
variable {s s' : TimerSystem O P} {a : TimerAction O P} {acts : List (TimerAction O P)}

/-- **One step** from a state in which the timers are registered. -/
theorem step_cases (h : s.timer.Registered) (hdefined : s.undefined = false)
    (hstep : s.step a = some s') :
    (∃ obj msecs nWhich tv p q, a = .startTimer obj msecs nWhich tv p ∧
      s.timer.timerMap.value obj nWhich = some q ∧
      s' = s.after s.timer [.started obj nWhich false]) ∨
    (∃ obj msecs nWhich tv p, a = .startTimer obj msecs nWhich tv p ∧
      s.timer.timerMap.value obj nWhich = none ∧ s.timer.live.lookup p = none ∧
      s' = s.after (s.timer.addElement obj msecs nWhich tv p).2 [.started obj nWhich true]) ∨
    (∃ obj nWhich, a = .stopTimer obj nWhich ∧ s.timer.timerMap.value obj nWhich = none ∧
      s' = s.after s.timer [.stopped obj nWhich false]) ∨
    (∃ obj nWhich p, a = .stopTimer obj nWhich ∧ s.timer.timerMap.value obj nWhich = some p ∧
      s' = s.after (s.timer.drop obj nWhich p) [.stopped obj nWhich true]) ∨
    ∃ ntv events timer, a = .scan ntv ∧ timer.Registered ∧
      Scanned ntv s.timer s.timer.timerList timer.timerList events timer ∧
      s' = s.after timer (postings events) := by
  simp only [step, hdefined] at hstep
  cases a with
  | startTimer obj msecs nWhich tv p =>
    cases hvalue : s.timer.timerMap.value obj nWhich with
    | some q =>
      left
      simp only [addElement_running hvalue] at hstep
      cases hstep
      exact ⟨obj, msecs, nWhich, tv, p, q, rfl, hvalue, rfl⟩
    | none =>
      right
      left
      cases hlive : s.timer.live.lookup p with
      | some spec =>
        simp only [addElement_new hvalue, hlive] at hstep
        cases hstep
      | none =>
        refine ⟨obj, msecs, nWhich, tv, p, rfl, hvalue, hlive, ?_⟩
        rw [addElement_new hvalue]
        simp only [addElement_new hvalue, hlive] at hstep
        cases hstep
        rfl
  | stopTimer obj nWhich =>
    right
    right
    cases hvalue : s.timer.timerMap.value obj nWhich with
    | none =>
      left
      simp only [removeElement_none hvalue] at hstep
      cases hstep
      exact ⟨obj, nWhich, rfl, hvalue, rfl⟩
    | some p =>
      right
      left
      obtain ⟨-, spec, hspec, -⟩ := h.mapped obj nWhich p hvalue
      simp only [removeElement_some hvalue hspec] at hstep
      cases hstep
      exact ⟨obj, nWhich, p, rfl, hvalue, rfl⟩
  | scan ntv =>
    right
    right
    right
    right
    obtain ⟨events, timer, hscan, hreg, hscanned⟩ := scan_spec h ntv
    simp only [hscan] at hstep
    cases hstep
    exact ⟨ntv, events, timer, rfl, hreg, hscanned, rfl⟩

/-- A state in which the timers are registered. -/
def Sound (s : TimerSystem O P) : Prop :=
  s.timer.Registered ∧ s.undefined = false

theorem sound_initial : (initial : TimerSystem O P).Sound :=
  ⟨registered_new, rfl⟩

/-- A step with a number that fits keeps the timers registered. -/
theorem sound_step (h : s.Sound) (ha : a.InRange) (hstep : s.step a = some s') : s'.Sound := by
  obtain ⟨hreg, hdefined⟩ := h
  rcases step_cases hreg hdefined hstep with ⟨obj, msecs, nWhich, tv, p, q, rfl, hvalue, rfl⟩ |
    ⟨obj, msecs, nWhich, tv, p, rfl, hnone, hfresh, rfl⟩ | ⟨obj, nWhich, rfl, hnone, rfl⟩ |
    ⟨obj, nWhich, p, rfl, hvalue, rfl⟩ | ⟨ntv, events, timer, rfl, hreg', hscanned, rfl⟩
  · exact ⟨hreg, hdefined⟩
  · exact ⟨hreg.add hnone hfresh ha msecs tv, hdefined⟩
  · exact ⟨hreg, hdefined⟩
  · exact ⟨hreg.drop hvalue, hdefined⟩
  · exact ⟨hreg', hdefined⟩

theorem sound_run (hacts : ∀ a ∈ acts, a.InRange) (hrun : machine.run initial acts = some s) :
    s.Sound := by
  refine Machine.run_preserves_along (P := Sound) ?_ sound_initial
    (Machine.along_of_forall hacts initial) hrun
  intro t a t' ht ha hstep
  exact sound_step ht ha hstep

/-- A step with a number that does not fit starts a timer, and map and list disagree afterwards. -/
theorem not_agrees_step (h : s.Sound) (ha : ¬a.InRange) (hstep : s.step a = some s') :
    ¬s'.timer.Agrees := by
  obtain ⟨hreg, hdefined⟩ := h
  rcases step_cases hreg hdefined hstep with ⟨obj, msecs, nWhich, tv, p, q, rfl, hvalue, rfl⟩ |
    ⟨obj, msecs, nWhich, tv, p, rfl, hnone, hfresh, rfl⟩ | ⟨obj, nWhich, rfl, -⟩ |
    ⟨obj, nWhich, p, rfl, -⟩ | ⟨ntv, events, timer, rfl, -⟩
  · -- a timer that is running has a number that fits
    obtain ⟨-, spec, -, -, hwhich⟩ := hreg.mapped obj nWhich q hvalue
    refine absurd ?_ ha
    rw [← hwhich]
    exact fits_ofUint8 spec.nWhich
  · exact not_agrees_add hnone ha hreg.agrees hfresh msecs tv
  · exact absurd trivial ha
  · exact absurd trivial ha
  · exact absurd trivial ha

/-- **Map and list agree in every state of a run exactly when every number that is started in it
    fits into a byte.** -/
theorem agrees_iff (hrun : machine.run initial acts = some s) :
    (∀ before after t, acts = before ++ after → machine.run initial before = some t →
        t.timer.Agrees ∧ t.undefined = false) ↔ ∀ a ∈ acts, a.InRange := by
  have hgood : ∀ t : TimerSystem O P, t.Sound → t.timer.Agrees ∧ t.undefined = false := by
    intro t ⟨hreg, hdefined⟩
    exact ⟨hreg.agrees, hdefined⟩
  have hexact := Machine.throughout_iff_along (M := machine) hgood
    (fun t a t' => sound_step) (fun t a t' hsound ha hstep hafter =>
      not_agrees_step hsound ha hstep hafter.1) sound_initial hrun
  exact hexact.trans (Machine.along_iff_forall hrun)

/-- A timer that is started under the number 7 and stopped. -/
theorem agrees_iff_seven :
    let acts : List (TimerAction ℕ ℕ) :=
      [.startTimer 0 ⟨100, by decide⟩ ⟨7, by decide⟩ ⟨0, 0⟩ 0, .stopTimer 0 ⟨7, by decide⟩]
    ∃ s, machine.run initial acts = some s ∧
      ((∀ before after t, acts = before ++ after → machine.run initial before = some t →
        t.timer.Agrees ∧ t.undefined = false) ↔ ∀ a ∈ acts, a.InRange) :=
  ⟨_, rfl, agrees_iff rfl⟩

/-- The record of the number 256 holds the number 0, under which the map has nothing. -/
theorem agrees_counterexample :
    ∃ s : TimerSystem ℕ ℕ,
      machine.run initial [.startTimer 0 ⟨100, by decide⟩ ⟨256, by decide⟩ ⟨0, 0⟩ 0] = some s ∧
        ¬s.timer.Agrees := by
  refine ⟨_, rfl, ?_⟩
  intro h
  have hsame := (h.same 0 ⟨⟨0, 0⟩, ⟨100, by decide⟩, 0, 0⟩ rfl).mp (List.mem_singleton_self 0)
  cases hsame

end TimerSystem

end Pdk.Sync
