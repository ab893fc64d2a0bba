import Mathlib.Data.List.Perm.Subperm
import Pdk.Queue.MemList

/-!
# The nodes of a `MemList`

`Shape l ids`: the nodes `ids` are, in this order and each of them once, those between `head_` and
`tail_`, and `cur_item_count_` is their number. The parts of `add` keep the shape: moving the first
node to the end (`recycle_shape`), filling a node again (`refill_shape`) and appending a new one
(`append_shape`); `free_all_items()` deletes all of them (`freeAllItems_shape`).
-/

namespace Pdk.Queue.MemList

open Foundation

/-- The nodes of the list, from `head_` to `tail_`. -/
structure Shape (l : MemList) (ids : List ℕ) : Prop where
  chain : Segment MemItem.pNext l.heap l.head ids none
  nodup : ids.Nodup
  tail : l.tail = ids.getLast?
  count : l.curItemCount.val = ids.length
  allocated : ∀ i n, l.heap i = some n → i < l.fresh
  -- a window that is never negative is never exceeded
  bound : 0 ≤ l.itemCount.val → (ids.length : ℤ) ≤ l.itemCount.val

theorem shape_new (nItems : CInt) : (new nItems).Shape [] where
  chain := rfl
  nodup := List.nodup_nil
  tail := rfl
  count := by simp [new]
  allocated := by simp [new]
  bound := by simp

/-- What no operation on the nodes changes: the iterator, the window, and that a deleted node stays
    deleted. -/
structure Kept (l l' : MemList) : Prop where
  cur : l'.cur = l.cur
  itemCount : l'.itemCount = l.itemCount
  fresh : l.fresh ≤ l'.fresh
  deleted : ∀ i < l.fresh, l.heap i = none → l'.heap i = none

namespace Kept

variable {l l' l'' : MemList}

theorem refl (l : MemList) : l.Kept l :=
  ⟨rfl, rfl, Nat.le_refl _, fun _ _ h => h⟩

theorem trans (h : l.Kept l') (h' : l'.Kept l'') : l.Kept l'' where
  cur := h'.cur.trans h.cur
  itemCount := h'.itemCount.trans h.itemCount
  fresh := Nat.le_trans h.fresh h'.fresh
  deleted i hi hnone := h'.deleted i (Nat.lt_of_lt_of_le hi h.fresh) (h.deleted i hi hnone)

end Kept

/-! ## Nodes -/

theorem bind_ok {α β : Type} (a : α) (f : α → Except Fault β) : (Except.ok a >>= f) = f a := rfl

theorem deref_live {l : MemList} {i : ℕ} {n : MemItem} (h : l.heap i = some n) :
    l.deref (some i) = .ok (i, n) := by
  simp [deref, h]

theorem setNext_live {l : MemList} {i : ℕ} {n : MemItem} (h : l.heap i = some n) (q : Option ℕ) :
    l.setNext (some i) q = .ok (l.setNode i (some { n with pNext := q })) := by
  simp [setNext, deref_live h]

@[simp]
theorem setNode_heap_self (l : MemList) (i : ℕ) (n : Option MemItem) : (l.setNode i n).heap i = n := by
  simp [setNode]

theorem setNode_heap_of_ne {i j : ℕ} (h : j ≠ i) (l : MemList) (n : Option MemItem) :
    (l.setNode i n).heap j = l.heap j := by
  simp [setNode, h]

/-- A node that keeps its link keeps all links. -/
theorem setNode_links {l : MemList} {i : ℕ} {n n' : MemItem} (hn : l.heap i = some n)
    (hlink : n'.pNext = n.pNext) (j : ℕ) :
    ((l.setNode i (some n')).heap j).map MemItem.pNext = (l.heap j).map MemItem.pNext := by
  by_cases hj : j = i
  · subst hj
    simp [hn, hlink]
  · rw [setNode_heap_of_ne hj]

/-- Changing a live node. -/
theorem kept_setNode {l : MemList} {i : ℕ} {n : MemItem} (hn : l.heap i = some n)
    (n' : Option MemItem) : l.Kept (l.setNode i n') := by
  refine ⟨rfl, rfl, Nat.le_refl _, fun j _ hj => ?_⟩
  have hne : j ≠ i := by
    rintro rfl
    rw [hn] at hj
    cases hj
  rw [setNode_heap_of_ne hne, hj]

namespace Shape

variable {l : MemList} {ids : List ℕ}

theorem lt_fresh (h : l.Shape ids) {i : ℕ} (hi : i ∈ ids) : i < l.fresh := by
  obtain ⟨n, hn⟩ := h.chain.live hi
  exact h.allocated i n hn

/-- Changing the data of a node, but not its link, keeps the shape. -/
theorem setNode (h : l.Shape ids) {i : ℕ} {n n' : MemItem} (hn : l.heap i = some n)
    (hlink : n'.pNext = n.pNext) : (l.setNode i (some n')).Shape ids := by
  refine ⟨h.chain.frame fun j _ => setNode_links hn hlink j, h.nodup, h.tail, h.count, ?_, h.bound⟩
  intro j m hm
  by_cases hj : j = i
  · exact hj ▸ h.allocated i n hn
  · rw [setNode_heap_of_ne hj] at hm
    exact h.allocated j m hm

/-- The iterator is not part of the shape. -/
theorem setCur (h : l.Shape ids) (p : Option ℕ) : Shape { l with cur := p } ids :=
  ⟨h.chain, h.nodup, h.tail, h.count, h.allocated, h.bound⟩

end Shape

/-! ## Moving the first node to the end -/

variable {l : MemList} {i : ℕ} {ids : List ℕ}

theorem item_setNode_of_link {n : MemItem} (hn : l.heap i = some n) (q : Option ℕ) (j : ℕ) :
    (l.setNode i (some { n with pNext := q })).item j = l.item j := by
  by_cases hj : j = i
  · subst hj
    simp [item, hn]
  · rw [item, setNode_heap_of_ne hj, item]

/-- `recycle` moves the first node to the end and leaves the data of the nodes alone. -/
theorem recycle_shape (h : l.Shape (i :: ids)) (hfull : l.curItemCount = l.itemCount) :
    ∃ l', l.recycle = .ok (some i, l') ∧ l'.Shape (ids ++ [i]) ∧ (∀ j, l'.item j = l.item j) ∧
      l.Kept l' := by
  have hcount : l.itemCount.val = ids.length + 1 := by
    rw [← hfull, h.count, List.length_cons]
    rfl
  rcases List.eq_nil_or_concat' ids with rfl | ⟨mid, t, rfl⟩
  · -- a window of one: the node stays where it is
    refine ⟨l, ?_, h, fun _ => rfl, Kept.refl l⟩
    rw [recycle, if_neg (by simp [hcount]), h.tail]
    rfl
  · obtain ⟨hhead, n, hn, hchain⟩ := h.chain
    obtain ⟨hmid, m, hm, hend⟩ := hchain.concat
    have htail : l.tail = some t := by rw [h.tail, ← List.cons_append, List.getLast?_concat]
    have hnodup := h.nodup
    simp only [List.nodup_cons, List.nodup_append, List.mem_append, List.mem_singleton, not_or]
      at hnodup
    obtain ⟨⟨himid, hit⟩, -, -, htmid⟩ := hnodup
    have hlen : (mid ++ [t] ++ [i]).length = (i :: (mid ++ [t])).length := by simp
    let l₁ : MemList := { l with head := n.pNext }
    let l₂ : MemList := { l₁.setNode t (some { m with pNext := some i }) with tail := some i }
    have hi₂ : l₂.heap i = some n := by
      show (l₁.setNode t _).heap i = _
      rw [setNode_heap_of_ne hit]
      exact hn
    have hother : ∀ j, j ≠ t → j ≠ i → (l₂.setNode i (some { n with pNext := none })).heap j = l.heap j := by
      intro j hjt hji
      rw [setNode_heap_of_ne hji]
      show (l₁.setNode t _).heap j = _
      rw [setNode_heap_of_ne hjt]
    have hlast : (l₂.setNode i (some { n with pNext := none })).heap t = some { m with pNext := some i } := by
      rw [setNode_heap_of_ne (Ne.symm hit)]
      exact setNode_heap_self _ _ _
    refine ⟨l₂.setNode i (some { n with pNext := none }), ?_, ⟨?_, ?_, ?_, ?_, ?_, ?_⟩, ?_, ?_⟩
    · have hmany : l.itemCount.val > 1 := by
        rw [hcount, List.length_append, List.length_singleton]
        omega
      rw [recycle, if_pos hmany, hhead, deref_live hn]
      show (do
        let linked ← l₁.setNext l.tail (some i)
        let ended ← { linked with tail := some i }.setNext (some i) none
        return (some i, ended)) = _
      rw [htail, setNext_live (l := l₁) hm]
      show (do
        let ended ← l₂.setNext (some i) none
        return (some i, ended)) = _
      rw [setNext_live hi₂]
      rfl
    · refine hmid.attach (fun j hj => ?_) hlast rfl (setNode_heap_self _ _ _) rfl
      rw [hother j (fun heq => htmid j hj t rfl heq) (fun heq => himid (heq ▸ hj))]
    · exact (List.nodup_append_comm).mp h.nodup
    · exact List.getLast?_concat.symm
    · rw [hlen]
      exact h.count
    · intro j k hk
      by_cases hji : j = i
      · exact hji ▸ h.allocated i n hn
      · by_cases hjt : j = t
        · exact hjt ▸ h.allocated t m hm
        · rw [hother j hjt hji] at hk
          exact h.allocated j k hk
    · rw [hlen]
      exact h.bound
    · intro j
      rw [item_setNode_of_link hi₂]
      exact item_setNode_of_link (l := l₁) hm (some i) j
    · have hkept₁ : l.Kept l₂ :=
        let hset := kept_setNode (l := l₁) hm (some { m with pNext := some i })
        ⟨hset.cur, hset.itemCount, hset.fresh, hset.deleted⟩
      exact hkept₁.trans (kept_setNode hi₂ _)

/-! ## Filling a node again -/

theorem refill_live {n : MemItem} (hn : l.heap i = some n) (b : Block) :
    l.refill (some i) b =
      match n.pBuffer with
      | none => .error .freedBuffer
      | some bytes =>
        if n.nLength ≠ b.nLength then
          if b.nLength.val < 0 then
            .ok (false, l.setNode i (some { n with nLength := b.nLength, pBuffer := none }))
          else .ok (true, l.setNode i (some { n with nLength := b.nLength, pBuffer := some b.bytes }))
        else
          .ok (true, l.setNode i (some { n with pBuffer := some (Bytes.overwrite bytes 0 b.bytes) })) := by
  rw [refill, deref_live hn]
  rfl

/-- `refill` changes only the data of the node. -/
theorem refill_shape (h : l.Shape ids) (hi : i ∈ ids) (b : Block) :
    l.refill (some i) b = .error .freedBuffer ∨
      ∃ ret l', l.refill (some i) b = .ok (ret, l') ∧ l'.Shape ids ∧ l.Kept l' := by
  obtain ⟨n, hn⟩ := h.chain.live hi
  rw [refill_live hn]
  cases n.pBuffer with
  | none => exact .inl rfl
  | some bytes =>
    right
    dsimp only
    split
    · split
      · exact ⟨false, _, rfl, h.setNode hn rfl, kept_setNode hn _⟩
      · exact ⟨true, _, rfl, h.setNode hn rfl, kept_setNode hn _⟩
    · exact ⟨true, _, rfl, h.setNode hn rfl, kept_setNode hn _⟩

/-! ## Appending a node -/

theorem append_eq {b : Block} (hpos : 0 ≤ b.nLength.val) :
    l.append b = do
      let linked ← (l.allocate b).link l.fresh
      let counted ← linked.countItem
      return (true, counted) :=
  if_neg (Int.not_lt.mpr hpos)

theorem allocate_heap_of_ne {b : Block} {j : ℕ} (h : j ≠ l.fresh) :
    (l.allocate b).heap j = l.heap j :=
  setNode_heap_of_ne h l _

theorem item_allocate_self (b : Block) : (l.allocate b).item l.fresh = some (b.nLength, b.bytes) := by
  simp [item, allocate]

/-- The new node is linked behind the last one. -/
theorem link_shape (h : l.Shape ids) (b : Block) :
    ∃ l', (l.allocate b).link l.fresh = .ok l' ∧
      Segment MemItem.pNext l'.heap l'.head (ids ++ [l.fresh]) none ∧ l'.tail = some l.fresh ∧
      (∀ j n, l'.heap j = some n → j < l'.fresh) ∧ (∀ j, l'.item j = (l.allocate b).item j) ∧
      l.Kept l' ∧ l'.curItemCount = l.curItemCount := by
  have hnew : (l.allocate b).heap l.fresh = some ⟨b.nLength, some b.bytes, none⟩ :=
    setNode_heap_self _ _ _
  have hallocated : ∀ j n, (l.allocate b).heap j = some n → j < l.fresh + 1 := by
    intro j n hj
    by_cases hfresh : j = l.fresh
    · exact hfresh ▸ Nat.lt_succ_self j
    · rw [allocate_heap_of_ne hfresh] at hj
      exact Nat.lt_succ_of_lt (h.allocated j n hj)
  have hkept : l.Kept (l.allocate b) := by
    refine ⟨rfl, rfl, Nat.le_succ _, fun j hj hnone => ?_⟩
    rw [allocate_heap_of_ne (Nat.ne_of_lt hj), hnone]
  rcases List.eq_nil_or_concat' ids with rfl | ⟨mid, t, rfl⟩
  · have hhead : l.head = none := h.chain
    exact ⟨_, if_pos (congrArg Option.isNone hhead), ⟨rfl, _, hnew, rfl⟩, rfl, hallocated,
      fun _ => rfl, ⟨rfl, rfl, hkept.fresh, hkept.deleted⟩, rfl⟩
  · obtain ⟨hmid, m, hm, -⟩ := h.chain.concat
    have hhead : l.head.isNone = false := by
      cases hp : l.head with
      | none =>
        rw [hp] at hmid
        rw [hmid.eq_nil] at hmid
        cases hmid
      | some p => rfl
    have htail : l.tail = some t := by rw [h.tail, List.getLast?_concat]
    have hold : ∀ j ∈ mid ++ [t], j ≠ l.fresh := fun j hj => Nat.ne_of_lt (h.lt_fresh hj)
    have htold : t ≠ l.fresh := hold t (by simp)
    have hm' : (l.allocate b).heap t = some m := by rw [allocate_heap_of_ne htold, hm]
    refine ⟨{ (l.allocate b).setNode t (some { m with pNext := some l.fresh }) with
      tail := some l.fresh }, ?_, ?_, rfl, ?_, ?_, ?_, rfl⟩
    · have hlinked := setNext_live hm' (some l.fresh)
      rw [← htail] at hlinked
      rw [link, if_neg (by rw [show (l.allocate b).head = l.head from rfl, hhead]; decide)]
      exact congrArg (· >>= _) hlinked
    · refine hmid.attach (m := ⟨b.nLength, some b.bytes, none⟩) (fun j hj => ?_)
        (setNode_heap_self _ _ _) rfl ?_ rfl
      · have hjt : j ≠ t := by
          intro heq
          have hnodup := h.nodup
          rw [heq] at hj
          exact (List.nodup_append.mp hnodup).2.2 t hj t (by simp) rfl
        show (((l.allocate b).setNode t _).heap j).map _ = _
        rw [setNode_heap_of_ne hjt, allocate_heap_of_ne (hold j (List.mem_append_left _ hj))]
      · show ((l.allocate b).setNode t _).heap l.fresh = _
        rw [setNode_heap_of_ne (Ne.symm htold)]
        exact hnew
    · intro j n hj
      by_cases hjt : j = t
      · exact hjt ▸ hallocated t m hm'
      · refine hallocated j n ?_
        rw [← hj]
        exact (setNode_heap_of_ne hjt _ _).symm
    · exact item_setNode_of_link hm' (some l.fresh)
    · have hset := hkept.trans (kept_setNode hm' (some { m with pNext := some l.fresh }))
      exact ⟨hset.cur, hset.itemCount, hset.fresh, hset.deleted⟩

/-- `append` puts a new node at the end. Only a list with a negative window can be so long that
    `cur_item_count_` overflows. -/
theorem append_shape (h : l.Shape ids) (hroom : l.curItemCount ≠ l.itemCount) {b : Block}
    (hpos : 0 ≤ b.nLength.val) :
    (l.append b = .error .overflow ∧ l.itemCount.val < 0) ∨
      ∃ l', l.append b = .ok (true, l') ∧ l'.Shape (ids ++ [l.fresh]) ∧
        l'.item l.fresh = some (b.nLength, b.bytes) ∧ (∀ j ∈ ids, l'.item j = l.item j) ∧
        l.Kept l' := by
  obtain ⟨linked, hlink, hchain, htail, hallocated, hitem, hkept, hsame⟩ := link_shape h b
  have hlt : l.itemCount.val < 0 ∨ (ids.length : ℤ) < l.itemCount.val := by
    rcases Int.lt_or_le l.itemCount.val 0 with hneg | hnonneg
    · exact .inl hneg
    · right
      have hbound := h.bound hnonneg
      have hne : l.curItemCount.val ≠ l.itemCount.val := fun heq => hroom (Subtype.ext heq)
      rw [h.count] at hne
      omega
  rw [append_eq hpos, hlink]
  cases hsum : addInt32 l.curItemCount.val 1 with
  | none =>
    have hfault : linked.countItem = .error .overflow := by rw [countItem, hsame, hsum]
    refine .inl ⟨by rw [bind_ok, hfault]; rfl, hlt.resolve_right fun hless => ?_⟩
    have hcount := h.count
    have hmax := l.itemCount.property.2
    have hmin := l.curItemCount.property.1
    rw [addInt32_of_bounds ⟨by omega, by omega⟩] at hsum
    cases hsum
  | some count =>
    have hcounted : linked.countItem = .ok { linked with curItemCount := count } := by
      rw [countItem, hsame, hsum]
    refine .inr ⟨{ linked with curItemCount := count }, by rw [bind_ok, hcounted]; rfl,
      ⟨hchain, ?_, ?_, ?_, hallocated, ?_⟩, ?_, ?_,
      ⟨hkept.cur, hkept.itemCount, hkept.fresh, hkept.deleted⟩⟩
    · refine List.nodup_append.mpr ⟨h.nodup, List.nodup_singleton _, ?_⟩
      intro j hj k hk heq
      rw [List.mem_singleton] at hk
      exact absurd (h.lt_fresh hj) (by omega)
    · rw [List.getLast?_concat]
      exact htail
    · have hval := addInt32_eq_some hsum
      rw [h.count] at hval
      simpa using hval
    · intro hnonneg
      have hless := hlt.resolve_left (Int.not_lt.mpr (by rw [← hkept.itemCount]; exact hnonneg))
      show _ ≤ linked.itemCount.val
      rw [hkept.itemCount, List.length_append, List.length_singleton]
      omega
    · exact (hitem l.fresh).trans (item_allocate_self b)
    · intro j hj
      refine (hitem j).trans ?_
      rw [item, allocate_heap_of_ne (Nat.ne_of_lt (h.lt_fresh hj)), item]

/-! ## Deleting all nodes -/

theorem freeLoop_some {fuel : ℕ} {n : MemItem} (hhead : l.head = some i) (hn : l.heap i = some n) :
    freeLoop (fuel + 1) l =
      if n.pBuffer.isNone then .error .freedBuffer
      else freeLoop fuel { l.setNode i none with head := n.pNext } := by
  rw [freeLoop, hhead]
  dsimp only
  rw [deref_live hn, bind_ok]

/-- The loop deletes the nodes of the list, unless the buffer of one of them was deleted before. -/
theorem freeLoop_segment {fuel : ℕ} (h : Segment MemItem.pNext l.heap l.head ids none)
    (hnodup : ids.Nodup) (hfuel : ids.length < fuel) :
    ((∃ i ∈ ids, l.item i = none) ∧ freeLoop fuel l = .error .freedBuffer) ∨
      ∃ l', freeLoop fuel l = .ok l' ∧ (∀ i ∈ ids, l'.heap i = none) ∧
        (∀ i n, l'.heap i = some n → l.heap i = some n) ∧ l'.fresh = l.fresh ∧ l.Kept l' ∧
        l'.curItemCount = l.curItemCount := by
  induction ids generalizing l fuel with
  | nil =>
    obtain ⟨fuel, rfl⟩ : ∃ k, fuel = k + 1 := ⟨fuel - 1, by simp at hfuel; omega⟩
    have hhead : l.head = none := h
    refine .inr ⟨l, ?_, nofun, fun _ _ hn => hn, rfl, Kept.refl l, rfl⟩
    rw [freeLoop, hhead]
  | cons i ids ih =>
    obtain ⟨fuel, rfl⟩ : ∃ k, fuel = k + 1 := ⟨fuel - 1, by simp at hfuel; omega⟩
    obtain ⟨hhead, n, hn, hrest⟩ := h
    obtain ⟨hnot, hnodup⟩ := List.nodup_cons.mp hnodup
    rw [freeLoop_some hhead hn]
    cases hbuf : n.pBuffer with
    | none => exact .inl ⟨⟨i, List.mem_cons_self, by simp [item, hn, hbuf]⟩, rfl⟩
    | some bytes =>
      have hne : ∀ j ∈ ids, j ≠ i := fun j hj heq => hnot (heq ▸ hj)
      have hchain : Segment MemItem.pNext (l.setNode i none).heap n.pNext ids none :=
        hrest.frame fun j hj => by rw [setNode_heap_of_ne (hne j hj)]
      have hdeleted : l.Kept { l.setNode i none with head := n.pNext } :=
        let hset := kept_setNode hn none
        ⟨hset.cur, hset.itemCount, hset.fresh, hset.deleted⟩
      rcases ih (l := { l.setNode i none with head := n.pNext }) hchain hnodup
          (by simpa using hfuel) with ⟨⟨j, hj, hitem⟩, hfault⟩ |
          ⟨l', hloop, hfreed, honly, hfresh, hkept, hcount⟩
      · refine .inl ⟨⟨j, List.mem_cons_of_mem i hj, ?_⟩, hfault⟩
        have hsame : (l.setNode i none).heap j = l.heap j := setNode_heap_of_ne (hne j hj) l none
        rw [item, ← hsame]
        exact hitem
      · have honly' : ∀ j m, l'.heap j = some m → j ≠ i ∧ l.heap j = some m := by
          intro j m hm
          have hset : (l.setNode i none).heap j = some m := honly j m hm
          by_cases hj : j = i
          · rw [hj, setNode_heap_self] at hset
            cases hset
          · rw [setNode_heap_of_ne hj] at hset
            exact ⟨hj, hset⟩
        refine .inr ⟨l', hloop, ?_, fun j m hm => (honly' j m hm).2, hfresh, hdeleted.trans hkept,
          hcount⟩
        intro j hj
        rcases List.mem_cons.mp hj with rfl | hj
        · cases hheap : l'.heap j with
          | none => rfl
          | some m => exact absurd rfl (honly' j m hheap).1
        · exact hfreed j hj

/-- **`free_all_items()`** empties the list; the bound on its rounds is never reached. `reset` calls
    it after it has changed `cur_item_count_`. -/
theorem freeAllItems_chain (hchain : Segment MemItem.pNext l.heap l.head ids none)
    (hnodup : ids.Nodup) (hallocated : ∀ i n, l.heap i = some n → i < l.fresh) :
    ((∃ i ∈ ids, l.item i = none) ∧ l.freeAllItems = .error .freedBuffer) ∨
      ∃ l', l.freeAllItems = .ok l' ∧ (∀ i ∈ ids, l'.heap i = none) ∧ l'.head = none ∧
        l'.tail = none ∧ (∀ i n, l'.heap i = some n → i < l'.fresh) ∧ l.Kept l' ∧
        l'.curItemCount = l.curItemCount := by
  have hsub : ids ⊆ List.range l.fresh := by
    intro i hi
    obtain ⟨n, hn⟩ := hchain.live hi
    exact List.mem_range.mpr (hallocated i n hn)
  have hlen := (hnodup.subperm hsub).length_le
  rw [List.length_range] at hlen
  rcases freeLoop_segment hchain hnodup (Nat.lt_succ_of_le hlen) with ⟨hdeleted, hfault⟩ |
    ⟨l', hloop, hfreed, honly, hfresh, hkept, hcount⟩
  · exact .inl ⟨hdeleted, by rw [freeAllItems, hfault]; rfl⟩
  · refine .inr ⟨{ l' with head := none, tail := none }, by rw [freeAllItems, hloop]; rfl, hfreed, rfl,
      rfl, fun i n hn => ?_, ⟨hkept.cur, hkept.itemCount, hkept.fresh, hkept.deleted⟩, hcount⟩
    show i < l'.fresh
    rw [hfresh]
    exact hallocated i n (honly i n hn)

theorem reset_shape (h : l.Shape ids) :
    ((∃ i ∈ ids, l.item i = none) ∧ l.reset = .error .freedBuffer) ∨
      ∃ l', l.reset = .ok l' ∧ (∀ i ∈ ids, l'.heap i = none) ∧ l'.Shape [] ∧ l.Kept l' := by
  rcases freeAllItems_chain (l := { l with curItemCount := ⟨0, by decide⟩ }) h.chain h.nodup
    h.allocated with hfault | ⟨l', hfree, hfreed, hhead, htail, hallocated, hkept, hcount⟩
  · exact .inl hfault
  · refine .inr ⟨l', hfree, hfreed, ⟨hhead, List.nodup_nil, htail, ?_, hallocated, ?_⟩,
      ⟨hkept.cur, hkept.itemCount, hkept.fresh, hkept.deleted⟩⟩
    · rw [hcount]
      rfl
    · simp

theorem setItems_shape (h : l.Shape ids) (nItems : CInt) :
    ((∃ i ∈ ids, l.item i = none) ∧ l.setItems nItems = .error .freedBuffer) ∨
      ∃ l', l.setItems nItems = .ok l' ∧ (∀ i ∈ ids, l'.heap i = none) ∧ l'.Shape [] ∧
        l'.itemCount = nItems ∧ l.Kept { l' with itemCount := l.itemCount } := by
  rcases freeAllItems_chain h.chain h.nodup h.allocated with ⟨hdeleted, hfault⟩ |
    ⟨l', hfree, hfreed, hhead, htail, hallocated, hkept, -⟩
  · exact .inl ⟨hdeleted, by rw [setItems, hfault]; rfl⟩
  · refine .inr ⟨{ l' with itemCount := nItems, curItemCount := ⟨0, by decide⟩ },
      by rw [setItems, hfree]; rfl, hfreed, ⟨hhead, List.nodup_nil, htail, ?_, hallocated, ?_⟩, rfl,
      ⟨hkept.cur, rfl, hkept.fresh, hkept.deleted⟩⟩
    · rfl
    · simp

/-! ## Adding -/

/-- A list whose window is full and not of length 0 has a first node. -/
theorem Shape.exists_cons (h : l.Shape ids) (hfull : l.curItemCount = l.itemCount)
    (hne : l.itemCount.val ≠ 0) : ∃ i rest, ids = i :: rest := by
  cases ids with
  | nil =>
    have hcount := h.count
    rw [hfull] at hcount
    exact absurd hcount hne
  | cons i rest => exact ⟨i, rest, rfl⟩

/-- **`add`** keeps the shape, and no node leaves the list. -/
theorem add_shape (h : l.Shape ids) (hne : l.itemCount.val ≠ 0) (b : Block) :
    l.add b = .error .freedBuffer ∨ l.add b = .error .overflow ∨
      ∃ ret l' ids', l.add b = .ok (ret, l') ∧ l'.Shape ids' ∧ (∀ i ∈ ids, i ∈ ids') ∧ l.Kept l' := by
  by_cases hfull : l.curItemCount = l.itemCount
  · obtain ⟨i, rest, rfl⟩ := h.exists_cons hfull hne
    obtain ⟨recycled, hrecycle, hshape, -, hkept⟩ := recycle_shape h hfull
    have hadd : l.add b = recycled.refill (some i) b := by
      rw [add, if_pos hfull, hrecycle]
      rfl
    rw [hadd]
    rcases refill_shape hshape (i := i) (by simp) b with hfault |
      ⟨ret, l', hrefill, hshape', hkept'⟩
    · exact .inl hfault
    · refine .inr (.inr ⟨ret, l', rest ++ [i], hrefill, hshape', ?_, hkept.trans hkept'⟩)
      intro j hj
      rw [List.mem_append, List.mem_singleton]
      exact (List.mem_cons.mp hj).symm
  · rw [add, if_neg hfull]
    by_cases hneg : b.nLength.val < 0
    · -- `new char[nLength]` throws
      refine .inr (.inr ⟨false, { l with fresh := l.fresh + 1 }, ids, if_pos hneg, ?_, fun _ hi => hi, ?_⟩)
      · exact ⟨h.chain, h.nodup, h.tail, h.count,
          fun i n hn => Nat.lt_succ_of_lt (h.allocated i n hn), h.bound⟩
      · exact ⟨rfl, rfl, Nat.le_succ _, fun _ _ hnone => hnone⟩
    · rcases append_shape h hfull (Int.not_lt.mp hneg) with ⟨hfault, -⟩ |
        ⟨l', happend, hshape, -, -, hkept⟩
      · exact .inr (.inl hfault)
      · exact .inr (.inr ⟨true, l', _, happend, hshape, fun i hi => List.mem_append_left _ hi, hkept⟩)

/-- A list with a window of length 0 is never filled: `add` uses its last node, which it does not
    have. -/
theorem add_window_zero (h : l.Shape ids) (hzero : l.itemCount.val = 0) (b : Block) :
    l.add b = .error .nullNode := by
  have hlen := h.bound (Int.le_of_eq hzero.symm)
  have hnil : ids = [] := List.eq_nil_of_length_eq_zero (by omega)
  subst hnil
  have hfull : l.curItemCount = l.itemCount := Subtype.ext (h.count.trans hzero.symm)
  have hrecycle : l.recycle = .ok (none, l) := by
    rw [recycle, if_neg (by omega), h.tail]
    rfl
  rw [add, if_pos hfull, hrecycle]
  rfl

/-! ## Iterating -/

theorem get_some {i : ℕ} {n : MemItem} (hcur : l.cur = some i) (hn : l.heap i = some n) :
    l.get = .ok (some i, { l with cur := n.pNext }) := by
  rw [get, hcur]
  dsimp only
  rw [deref_live hn]
  rfl

/-- An iterator that points to a deleted node. -/
theorem get_deleted (hcur : l.cur = some i) (hnone : l.heap i = none) :
    l.get = .error .freedNode := by
  have hderef : l.deref (some i) = .error .freedNode := by simp [deref, hnone]
  rw [get, hcur]
  dsimp only
  rw [hderef]
  rfl

end Pdk.Queue.MemList
