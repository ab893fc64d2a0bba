import Pdk.Foundation.Transition
import Pdk.Queue.MemListShape

/-!
# Which nodes a `MemList` touches

Runs of all five operations, in any order and for any window. `free_all_items()` deletes the nodes
but does not set `cur_`, which goes on pointing to one of them (`stale`); and a list with a window of
length 0 has no node that `add` could use again. Every other use of a node is one of a node that is
linked in the list.
-/

namespace Pdk.Queue

open Foundation

/-- A list in use. -/
structure MemRun where
  list : MemList
  -- `cur_` pointed to a node when the list was last emptied, and was not set since
  stale : Bool
  -- what the last call, a `get`, has returned
  given : Option ℕ
  -- the fault that has ended the run
  fault : Option Fault

namespace MemRun

def new (nItems : CInt) : MemRun :=
  ⟨MemList.new nItems, false, none, none⟩

/-- Emptying the list leaves `cur_` where it is; `set_serialize` sets it. -/
def staleAfter (s : MemRun) : MemList.Call → Bool
  | .setItems _ | .reset => s.stale || s.list.cur.isSome
  | .setSerialize => false
  | .add _ | .get => s.stale

/-- One call; nothing is said about what happens after a fault. -/
def step (s : MemRun) (c : MemList.Call) : Option MemRun :=
  some <|
    if s.fault.isSome then s
    else
      match s.list.call c with
      | .error fault => { s with given := none, fault := some fault }
      | .ok (given, list) => ⟨list, s.staleAfter c, given, none⟩

def machine (nItems : CInt) : Machine MemRun MemList.Call :=
  ⟨new nItems, step⟩

/-- The node is one of those from `head_` on. -/
def Linked (l : MemList) (i : ℕ) : Prop :=
  ∃ ids, Segment MemItem.pNext l.heap l.head ids none ∧ i ∈ ids

/-- No null pointer and no pointer to a deleted node was followed, and the node that was returned is
    linked in the list. -/
structure Sound (s : MemRun) : Prop where
  null : s.fault ≠ some .nullNode
  freed : s.fault ≠ some .freedNode
  given : ∀ i, s.given = some i → Linked s.list i

/-- The calls that touch linked nodes only: nothing is added to a list with a window of length 0, and
    `get` is not called with a stale iterator. -/
def Safe (s : MemRun) : MemList.Call → Prop
  | .add _ => s.fault = none → s.list.itemCount.val ≠ 0
  | .get => s.fault = none → s.stale = false
  | .setItems _ | .reset | .setSerialize => True

/-! ## The invariant -/

/-- Where `cur_` points to. -/
def Cursor (s : MemRun) (ids : List ℕ) : Prop :=
  ∀ i, s.list.cur = some i →
    (s.stale = false ∧ i ∈ ids) ∨ (s.stale = true ∧ i < s.list.fresh ∧ s.list.heap i = none)

/-- The faults that are not about nodes. -/
def Elsewhere (f : Fault) : Prop :=
  f = .freedBuffer ∨ f = .overflow

inductive Inv (s : MemRun) : Prop where
  | running (ids : List ℕ) (shape : s.list.Shape ids) (cursor : s.Cursor ids)
      (pointing : s.stale = true → s.list.cur.isSome) (given : ∀ i, s.given = some i → i ∈ ids)
      (fault : s.fault = none)
  | ended (f : Fault) (elsewhere : Elsewhere f) (given : s.given = none) (fault : s.fault = some f)

theorem inv_new (nItems : CInt) : (new nItems).Inv :=
  .running [] (MemList.shape_new nItems) nofun nofun nofun rfl

theorem Inv.sound {s : MemRun} (h : s.Inv) : s.Sound := by
  cases h with
  | running ids shape cursor pointing given fault =>
    refine ⟨?_, ?_, fun i hi => ⟨ids, shape.chain, given i hi⟩⟩
    · rw [fault]; nofun
    · rw [fault]; nofun
  | ended f elsewhere given fault =>
    refine ⟨?_, ?_, fun i hi => ?_⟩
    · rw [fault]
      rintro ⟨⟩
      exact elsewhere.elim nofun nofun
    · rw [fault]
      rintro ⟨⟩
      exact elsewhere.elim nofun nofun
    · rw [given] at hi
      cases hi

/-! ## Steps -/

variable {s : MemRun} {ids : List ℕ} {c : MemList.Call}

theorem step_of_ok (hfault : s.fault = none) {given : Option ℕ} {list : MemList}
    (hcall : s.list.call c = .ok (given, list)) :
    s.step c = some ⟨list, s.staleAfter c, given, none⟩ := by
  simp [step, hfault, hcall]

theorem step_of_error (hfault : s.fault = none) {f : Fault} (hcall : s.list.call c = .error f) :
    s.step c = some { s with given := none, fault := some f } := by
  simp [step, hfault, hcall]

/-- An iterator that does not move stays on its node, whether this is linked or deleted. -/
theorem Cursor.of_kept (h : s.Cursor ids) {list : MemList} {ids' : List ℕ} {given : Option ℕ}
    (hkept : s.list.Kept list) (hids : ∀ i ∈ ids, i ∈ ids') :
    Cursor ⟨list, s.stale, given, none⟩ ids' := by
  intro i hi
  rcases h i (hkept.cur.symm.trans hi) with ⟨hstale, hmem⟩ | ⟨hstale, hlt, hnone⟩
  · exact .inl ⟨hstale, hids i hmem⟩
  · exact .inr ⟨hstale, Nat.lt_of_lt_of_le hlt hkept.fresh, hkept.deleted i hlt hnone⟩

/-- An iterator that points to a node when the list is emptied is stale. -/
theorem Cursor.of_emptied (h : s.Cursor ids) {list : MemList} {given : Option ℕ}
    (hshape : s.list.Shape ids) (hcur : list.cur = s.list.cur) (hfresh : s.list.fresh ≤ list.fresh)
    (hfreed : ∀ i ∈ ids, list.heap i = none)
    (hdeleted : ∀ i < s.list.fresh, s.list.heap i = none → list.heap i = none) :
    Cursor ⟨list, s.stale || s.list.cur.isSome, given, none⟩ [] := by
  intro i hi
  have hcur' : s.list.cur = some i := hcur.symm.trans hi
  right
  refine ⟨by simp [hcur'], ?_⟩
  rcases h i hcur' with ⟨-, hmem⟩ | ⟨-, hlt, hnone⟩
  · exact ⟨Nat.lt_of_lt_of_le (hshape.lt_fresh hmem) hfresh, hfreed i hmem⟩
  · exact ⟨Nat.lt_of_lt_of_le hlt hfresh, hdeleted i hlt hnone⟩

/-- `set_items` and `reset` delete every node: an iterator that points to one is stale. -/
theorem inv_emptied (hshape : s.list.Shape ids) (hcursor : s.Cursor ids)
    (hpointing : s.stale = true → s.list.cur.isSome) {list : MemList} (hshape' : list.Shape [])
    (hcur : list.cur = s.list.cur) (hfresh : s.list.fresh ≤ list.fresh)
    (hfreed : ∀ i ∈ ids, list.heap i = none)
    (hdeleted : ∀ i < s.list.fresh, s.list.heap i = none → list.heap i = none) :
    Inv ⟨list, s.stale || s.list.cur.isSome, none, none⟩ := by
  refine .running [] hshape' (hcursor.of_emptied hshape hcur hfresh hfreed hdeleted) ?_ nofun rfl
  intro hstale
  show list.cur.isSome
  rw [hcur]
  exact ((Bool.or_eq_true _ _).mp hstale).elim hpointing id

/-- **A safe call** of a list that is in order leaves it in order, or fails for another reason than a
    node. -/
theorem step_running (hshape : s.list.Shape ids) (hcursor : s.Cursor ids)
    (hpointing : s.stale = true → s.list.cur.isSome) (hfault : s.fault = none) (hsafe : s.Safe c)
    {s' : MemRun} (hstep : s.step c = some s') : s'.Inv := by
  have herror : ∀ f, Elsewhere f → s.list.call c = .error f → s'.Inv := by
    intro f helse hcall
    rw [step_of_error hfault hcall] at hstep
    cases hstep
    exact .ended f helse rfl rfl
  cases c with
  | add b =>
    rcases MemList.add_shape hshape (hsafe hfault) b with hadd | hadd |
      ⟨ret, list, ids', hadd, hshape', hids, hkept⟩
    · exact herror _ (.inl rfl) (by rw [MemList.call, hadd]; rfl)
    · exact herror _ (.inr rfl) (by rw [MemList.call, hadd]; rfl)
    · have hcall : s.list.call (.add b) = .ok (none, list) := by rw [MemList.call, hadd]; rfl
      rw [step_of_ok hfault hcall] at hstep
      cases hstep
      refine .running ids' hshape' (hcursor.of_kept hkept hids) (fun hstale => ?_)
        (fun _ hgiven => by cases hgiven) rfl
      show list.cur.isSome
      rw [hkept.cur]
      exact hpointing hstale
  | setItems nItems =>
    rcases MemList.setItems_shape hshape nItems with ⟨-, hset⟩ |
      ⟨list, hset, hfreed, hshape', -, hkept⟩
    · exact herror _ (.inl rfl) (by rw [MemList.call, hset]; rfl)
    · have hcall : s.list.call (.setItems nItems) = .ok (none, list) := by
        rw [MemList.call, hset]; rfl
      rw [step_of_ok hfault hcall] at hstep
      cases hstep
      exact inv_emptied hshape hcursor hpointing hshape' hkept.cur hkept.fresh hfreed hkept.deleted
  | reset =>
    rcases MemList.reset_shape hshape with ⟨-, hreset⟩ | ⟨list, hreset, hfreed, hshape', hkept⟩
    · exact herror _ (.inl rfl) (by rw [MemList.call, hreset]; rfl)
    · have hcall : s.list.call .reset = .ok (none, list) := by rw [MemList.call, hreset]; rfl
      rw [step_of_ok hfault hcall] at hstep
      cases hstep
      exact inv_emptied hshape hcursor hpointing hshape' hkept.cur hkept.fresh hfreed hkept.deleted
  | setSerialize =>
    rw [step_of_ok hfault rfl] at hstep
    cases hstep
    refine .running ids (hshape.setCur _) (fun i hi => .inl ⟨rfl, ?_⟩)
      (fun hstale => by cases hstale) (fun _ hgiven => by cases hgiven) rfl
    have hhead : s.list.head = some i := hi
    have hchain := hshape.chain
    rw [hhead] at hchain
    exact hchain.start_mem
  | get =>
    cases hcur : s.list.cur with
    | none =>
      have hcall : s.list.call .get = .ok (none, s.list) := by rw [MemList.call, MemList.get, hcur]
      rw [step_of_ok hfault hcall] at hstep
      cases hstep
      exact .running ids hshape hcursor hpointing (fun _ hgiven => by cases hgiven) rfl
    | some i =>
      rcases hcursor i hcur with ⟨-, hmem⟩ | ⟨hstale, -⟩
      · obtain ⟨n, hn⟩ := hshape.chain.live hmem
        rw [step_of_ok (c := .get) hfault (MemList.get_some hcur hn)] at hstep
        cases hstep
        refine .running ids (hshape.setCur _) (fun j hj => .inl ⟨hsafe hfault, ?_⟩)
          (fun hstale => ?_) (fun j hj => ?_) rfl
        · exact hshape.chain.next_mem hmem hn j hj
        · rw [staleAfter, hsafe hfault] at hstale
          cases hstale
        · cases hj
          exact hmem
      · rw [hsafe hfault] at hstale
        cases hstale

/-- **An unsafe call** follows a pointer to no node or to a deleted one. -/
theorem step_of_not_safe (h : s.Inv) (hnotSafe : ¬s.Safe c) {s' : MemRun} (hstep : s.step c = some s') :
    ¬s'.Sound := by
  cases h with
  | running ids hshape hcursor hpointing hgiven hfault =>
    cases c with
    | add b =>
      have hzero : s.list.itemCount.val = 0 := by
        by_contra hne
        exact hnotSafe fun _ => hne
      have hcall : s.list.call (.add b) = .error .nullNode := by
        rw [MemList.call, MemList.add_window_zero hshape hzero]
        rfl
      rw [step_of_error hfault hcall] at hstep
      cases hstep
      exact fun hsound => hsound.null rfl
    | get =>
      have hstale : s.stale = true := by
        cases hs : s.stale with
        | true => rfl
        | false => exact absurd (fun _ => hs) hnotSafe
      obtain ⟨i, hcur⟩ := Option.isSome_iff_exists.mp (hpointing hstale)
      rcases hcursor i hcur with ⟨hfalse, -⟩ | ⟨-, -, hnone⟩
      · rw [hstale] at hfalse
        cases hfalse
      · rw [step_of_error (c := .get) hfault (MemList.get_deleted hcur hnone)] at hstep
        cases hstep
        exact fun hsound => hsound.freed rfl
    | setItems nItems => exact absurd trivial hnotSafe
    | reset => exact absurd trivial hnotSafe
    | setSerialize => exact absurd trivial hnotSafe
  | ended f helse hgiven hfault =>
    -- nothing is said about calls after a fault
    have hnot : s.fault ≠ none := by rw [hfault]; nofun
    cases c with
    | add b => exact absurd (fun hnone => absurd hnone hnot) hnotSafe
    | get => exact absurd (fun hnone => absurd hnone hnot) hnotSafe
    | setItems nItems => exact absurd trivial hnotSafe
    | reset => exact absurd trivial hnotSafe
    | setSerialize => exact absurd trivial hnotSafe

theorem step_inv (h : s.Inv) (hsafe : s.Safe c) {s' : MemRun} (hstep : s.step c = some s') :
    s'.Inv := by
  cases h with
  | running ids hshape hcursor hpointing hgiven hfault =>
    exact step_running hshape hcursor hpointing hfault hsafe hstep
  | ended f helse hgiven hfault =>
    have hsame : s.step c = some s := by simp [step, hfault]
    rw [hsame] at hstep
    cases hstep
    exact .ended f helse hgiven hfault

/-! ## Runs -/

theorem exists_run (s : MemRun) (nItems : CInt) (calls : List MemList.Call) :
    ∃ s', (machine nItems).run s calls = some s' := by
  induction calls generalizing s with
  | nil => exact ⟨s, rfl⟩
  | cons c calls ih => exact ih _

/-- **Nodes that are touched.** For every window that the constructor accepts and every sequence of
    calls: no null pointer and no pointer to a deleted node is followed, and every node that `get`
    returns is linked in the list, exactly when nothing is added while the window has length 0 and
    `get` is never called with an iterator that pointed to a node when the list was last emptied. -/
theorem nodes_sound_iff (nItems : CInt) (calls : List MemList.Call) :
    (machine nItems).Throughout Sound (new nItems) calls ↔
      (machine nItems).Along Safe (new nItems) calls := by
  obtain ⟨s', hrun⟩ := exists_run (new nItems) nItems calls
  exact Machine.throughout_iff_along (fun _ => Inv.sound)
    (fun _ _ _ hinv hsafe hstep => step_inv hinv hsafe hstep)
    (fun _ _ _ hinv hnotSafe hstep => step_of_not_safe hinv hnotSafe hstep) (inv_new nItems) hrun

/-- The first buffer added to a list with a window of length 0, and an iterator that outlives
    `reset`. -/
theorem nodes_counterexample :
    ¬(∀ (nItems : CInt) (calls : List MemList.Call),
      (machine nItems).Throughout Sound (new nItems) calls) ∧
      ¬(machine ⟨0, by decide⟩).Throughout Sound (new ⟨0, by decide⟩)
        [.add ⟨⟨1, by decide⟩, [7], by decide⟩] := by
  constructor
  · intro h
    have hsound := h ⟨2, by decide⟩
      [.add ⟨⟨1, by decide⟩, [7], by decide⟩, .setSerialize, .reset, .get] _ [] _
      (List.append_nil _).symm rfl
    exact hsound.freed rfl
  · intro h
    have hsound := h _ [] _ (List.append_nil _).symm rfl
    exact hsound.null rfl

end MemRun

end Pdk.Queue
