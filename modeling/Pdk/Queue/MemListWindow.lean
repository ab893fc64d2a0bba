import Pdk.Queue.MemListShape

/-!
# The window of a `MemList`

What a list holds is the end of the sequence of buffers that were added since it was last emptied:
as many of them as there are, at most `item_count_` (`Holds`). Iterating yields them, oldest first.
-/

namespace Pdk.Queue

open Foundation

/-! ## Blocks -/

/-- What a caller finds in a node that was filled with the block. -/
def Block.item (b : Block) : CInt × List UInt8 :=
  (b.nLength, b.bytes)

theorem Block.length_bytes (b : Block) : b.bytes.length = b.nLength.val.toNat := by
  have hinside := b.inside
  rw [Block.bytes, List.length_take]
  omega

/-! ## The window as a list -/

/-- A full window loses its first element. -/
theorem rtake_succ_tail {α : Type*} {l : List α} {n : ℕ} (h : n < l.length) :
    (l.rtake (n + 1)).tail = l.rtake n := by
  rw [List.rtake, List.rtake, List.tail_drop]
  congr 1
  omega

theorem rtake_of_length_le {α : Type*} {l : List α} {n : ℕ} (h : l.length ≤ n) : l.rtake n = l := by
  rw [List.rtake, Nat.sub_eq_zero_of_le h, List.drop_zero]

theorem length_rtake {α : Type*} (l : List α) (n : ℕ) : (l.rtake n).length = min l.length n := by
  rw [List.rtake, List.length_drop]
  omega

namespace MemList

/-! ## What a list holds -/

variable {l : MemList} {ids : List ℕ}

/-- The nodes hold the blocks. -/
def Holds (l : MemList) (ids : List ℕ) (blocks : List Block) : Prop :=
  ids.map l.item = blocks.map fun b => some b.item

/-- Filling a node again replaces what it holds, whether its buffer is kept or not. -/
theorem refill_item (h : l.Shape ids) {i : ℕ} (hi : i ∈ ids) {old b : Block}
    (hold : l.item i = some old.item) (hpos : 0 ≤ b.nLength.val) :
    ∃ l', l.refill (some i) b = .ok (true, l') ∧ l'.Shape ids ∧ l'.item i = some b.item ∧
      (∀ j, j ≠ i → l'.item j = l.item j) ∧ l.Kept l' := by
  obtain ⟨n, hn⟩ := h.chain.live hi
  have hother : ∀ n' j, j ≠ i → (l.setNode i n').item j = l.item j := by
    intro n' j hj
    rw [item, setNode_heap_of_ne hj, item]
  rw [item, hn, Option.bind_some, Option.map_eq_some_iff] at hold
  obtain ⟨bytes, hbuf, heq⟩ := hold
  obtain ⟨hlen, hbytes⟩ := Prod.mk.inj heq
  rw [refill_live hn, hbuf]
  dsimp only
  by_cases hsame : n.nLength = b.nLength
  · -- the buffer has the right length, and `memcpy` overwrites all of it
    have hcopy : Bytes.overwrite bytes 0 b.bytes = b.bytes := by
      have hlength : b.bytes.length = bytes.length := by
        rw [hbytes, Block.length_bytes, Block.length_bytes, ← hlen, hsame]
      rw [Bytes.overwrite_zero (Nat.le_of_eq hlength), hlength, List.drop_length, List.append_nil]
    rw [if_neg (not_not.mpr hsame), hcopy]
    refine ⟨_, rfl, h.setNode hn rfl, ?_, hother _, kept_setNode hn _⟩
    simp [item, Block.item, hsame]
  · rw [if_pos hsame, if_neg (Int.not_lt.mpr hpos)]
    refine ⟨_, rfl, h.setNode hn rfl, ?_, hother _, kept_setNode hn _⟩
    simp [item, Block.item]

/-- **`add`** moves the window by one block. -/
theorem add_holds {all : List Block} {n : ℕ} (h : l.Shape ids) (hn : l.itemCount.val = n + 1)
    (hholds : l.Holds ids (all.rtake (n + 1))) {b : Block} (hpos : 0 ≤ b.nLength.val) :
    ∃ l' ids', l.add b = .ok (true, l') ∧ l'.Shape ids' ∧
      l'.Holds ids' ((all ++ [b]).rtake (n + 1)) ∧ l.Kept l' := by
  have hlen : ids.length = min all.length (n + 1) := by
    have heq := congrArg List.length hholds
    rwa [List.length_map, List.length_map, length_rtake] at heq
  rw [List.rtake_concat_succ]
  by_cases hfull : l.curItemCount = l.itemCount
  · have hids : ids.length = n + 1 := by
      have hcount := h.count
      rw [hfull] at hcount
      omega
    obtain ⟨i, rest, rfl⟩ := h.exists_cons hfull (by omega)
    obtain ⟨recycled, hrecycle, hshape, hitems, hkept⟩ := recycle_shape h hfull
    have hadd : l.add b = recycled.refill (some i) b := by
      rw [add, if_pos hfull, hrecycle]
      rfl
    have hrest : rest.map l.item = (all.rtake n).map fun b => some b.item := by
      have htail := congrArg List.tail hholds
      rwa [List.map_cons, List.tail_cons, ← List.map_tail, rtake_succ_tail (by omega)] at htail
    obtain ⟨old, hold⟩ : ∃ old : Block, l.item i = some old.item := by
      have hmem : l.item i ∈ (all.rtake (n + 1)).map fun b => some b.item :=
        hholds ▸ List.mem_map_of_mem List.mem_cons_self
      obtain ⟨old, -, heq⟩ := List.mem_map.mp hmem
      exact ⟨old, heq.symm⟩
    obtain ⟨l', hrefill, hshape', hself, hother, hkept'⟩ := refill_item hshape (i := i) (by simp)
      ((hitems i).trans hold) hpos
    refine ⟨l', rest ++ [i], hadd.trans hrefill, hshape', ?_, hkept.trans hkept'⟩
    have hnot : i ∉ rest := (List.nodup_cons.mp h.nodup).1
    have hkeep : rest.map l'.item = rest.map l.item :=
      List.map_congr_left fun j hj => (hother j fun heq => hnot (heq ▸ hj)).trans (hitems j)
    rw [Holds, List.map_append, List.map_append, hkeep, hrest, List.map_singleton,
      List.map_singleton, hself]
  · have hlt : ids.length ≤ n := by
      have hbound := h.bound (by omega)
      have hne : l.curItemCount.val ≠ l.itemCount.val := fun heq => hfull (Subtype.ext heq)
      rw [h.count] at hne
      omega
    have hall : all.rtake (n + 1) = all ∧ all.rtake n = all :=
      ⟨rtake_of_length_le (by omega), rtake_of_length_le (by omega)⟩
    rcases append_shape h hfull hpos with ⟨-, hneg⟩ | ⟨l', happend, hshape, hnew, hold, hkept⟩
    · omega
    · refine ⟨l', ids ++ [l.fresh], ?_, hshape, ?_, hkept⟩
      · rw [add, if_neg hfull, happend]
      · have hkeep : ids.map l'.item = ids.map l.item := List.map_congr_left hold
        rw [hall.1] at hholds
        rw [Holds, List.map_append, List.map_append, hkeep, hholds, hall.2, List.map_singleton,
          List.map_singleton, hnew]
        rfl

/-- A list whose buffers are all there is emptied. -/
theorem Holds.item_ne_none {blocks : List Block} (h : l.Holds ids blocks) {i : ℕ} (hi : i ∈ ids) :
    l.item i ≠ none := by
  intro hnone
  have hmem : l.item i ∈ blocks.map fun b => some b.item := h ▸ List.mem_map_of_mem hi
  obtain ⟨b, -, heq⟩ := List.mem_map.mp hmem
  rw [hnone] at heq
  cases heq

/-! ## Iterating -/

/-- `get()` until it returns null visits the nodes from the iterator on. -/
theorem serialize_segment {fuel : ℕ} (h : Segment MemItem.pNext l.heap l.cur ids none)
    (hfuel : ids.length < fuel) : serialize fuel l = .ok (ids.map l.item) := by
  induction ids generalizing l fuel with
  | nil =>
    obtain ⟨fuel, rfl⟩ : ∃ k, fuel = k + 1 := ⟨fuel - 1, by simp at hfuel; omega⟩
    have hcur : l.cur = none := h
    have hget : l.get = .ok (none, l) := by rw [get, hcur]
    rw [serialize, hget]
    rfl
  | cons i ids ih =>
    obtain ⟨fuel, rfl⟩ : ∃ k, fuel = k + 1 := ⟨fuel - 1, by simp at hfuel; omega⟩
    obtain ⟨hcur, n, hn, hrest⟩ := h
    have hlater := ih (l := { l with cur := n.pNext }) hrest (by simpa using hfuel)
    rw [serialize, get_some hcur hn, bind_ok]
    dsimp only
    rw [hlater]
    rfl

/-! ## Runs -/

/-- `add` with a length that is not negative, `reset`, and `set_items` with a window of at least
    one. -/
def Call.Filling : Call → Prop
  | .add b => 0 ≤ b.nLength.val
  | .setItems nItems => 1 ≤ nItems.val
  | .reset => True
  | .setSerialize | .get => False

/-- The window and the blocks that were added since the list was last emptied. -/
def recent (window : CInt × List Block) : Call → CInt × List Block
  | .add b => (window.1, window.2 ++ [b])
  | .setItems nItems => (nItems, [])
  | .reset => (window.1, [])
  | .setSerialize | .get => window

/-- The list after the calls that led to a window. -/
structure Represents (l : MemList) (ids : List ℕ) (window : CInt × List Block) : Prop where
  shape : l.Shape ids
  itemCount : l.itemCount = window.1
  positive : 1 ≤ window.1.val
  holds : l.Holds ids (window.2.rtake window.1.val.toNat)

theorem represents_empty {nItems : CInt} (h : l.Shape []) (hitem : l.itemCount = nItems)
    (hpos : 1 ≤ nItems.val) : l.Represents [] (nItems, []) :=
  ⟨h, hitem, hpos, by simp [Holds, List.rtake]⟩

theorem call_represents {window : CInt × List Block} (h : l.Represents ids window) {c : Call}
    (hc : c.Filling) :
    ∃ l' ids', (l.call c).map Prod.snd = .ok l' ∧ l'.Represents ids' (recent window c) := by
  cases c with
  | add b =>
    obtain ⟨n, hn⟩ : ∃ n : ℕ, window.1.val = n + 1 := ⟨(window.1.val - 1).toNat, by
      have hpos := h.positive
      omega⟩
    have htoNat : window.1.val.toNat = n + 1 := by omega
    have hholds := h.holds
    rw [htoNat] at hholds
    obtain ⟨l', ids', hadd, hshape, hholds', hkept⟩ := add_holds h.shape (h.itemCount ▸ hn) hholds hc
    refine ⟨l', ids', by rw [call, hadd]; rfl, hshape, hkept.itemCount.trans h.itemCount, h.positive, ?_⟩
    show l'.Holds ids' ((window.2 ++ [b]).rtake window.1.val.toNat)
    rw [htoNat]
    exact hholds'
  | setItems nItems =>
    rcases setItems_shape h.shape nItems with ⟨⟨i, hi, hnone⟩, -⟩ | ⟨l', hset, -, hshape, hitem, -⟩
    · exact absurd hnone (h.holds.item_ne_none hi)
    · exact ⟨l', [], by rw [call, hset]; rfl, represents_empty hshape hitem hc⟩
  | reset =>
    rcases reset_shape h.shape with ⟨⟨i, hi, hnone⟩, -⟩ | ⟨l', hreset, -, hshape, hkept⟩
    · exact absurd hnone (h.holds.item_ne_none hi)
    · exact ⟨l', [], by rw [call, hreset]; rfl,
        represents_empty hshape (hkept.itemCount.trans h.itemCount) h.positive⟩
  | setSerialize => cases hc
  | get => cases hc

theorem runCalls_represents {window : CInt × List Block} (h : l.Represents ids window)
    {calls : List Call} (hcalls : ∀ c ∈ calls, c.Filling) :
    ∃ l' ids', l.runCalls calls = .ok l' ∧ l'.Represents ids' (calls.foldl recent window) := by
  induction calls generalizing l ids window with
  | nil => exact ⟨l, ids, rfl, h⟩
  | cons c calls ih =>
    obtain ⟨l₁, ids₁, hcall, hrep₁⟩ := call_represents h (hcalls c List.mem_cons_self)
    obtain ⟨l₂, ids₂, hrun, hrep₂⟩ := ih hrep₁ fun d hd => hcalls d (List.mem_cons_of_mem c hd)
    refine ⟨l₂, ids₂, ?_, hrep₂⟩
    rw [runCalls, List.foldlM_cons, hcall]
    exact hrun

/-- **The window.** Whatever the list was told to hold and whatever was added to it, `set_serialize()`
    and `get()` until it returns null yield the last buffers that were added since the list was last
    emptied, as many as the window admits, oldest first; the nodes of the list are distinct, `tail_`
    is the last of them and `cur_item_count_` their number. -/
theorem serialize_recent (nItems : CInt) (hpos : 1 ≤ nItems.val) (calls : List Call)
    (hcalls : ∀ c ∈ calls, c.Filling) :
    ∃ l ids, (new nItems).runCalls calls = .ok l ∧
      (Segment MemItem.pNext l.heap l.head ids none ∧ ids.Nodup ∧ l.tail = ids.getLast? ∧
        l.curItemCount.val = ids.length) ∧
      ∀ fuel, ids.length < fuel →
        l.setSerialize.serialize fuel =
          .ok (((calls.foldl recent (nItems, [])).2.rtake
            (calls.foldl recent (nItems, [])).1.val.toNat).map fun b => some b.item) := by
  obtain ⟨l, ids, hrun, hrep⟩ :=
    runCalls_represents (represents_empty (shape_new nItems) rfl hpos) hcalls
  have hshape := hrep.shape
  refine ⟨l, ids, hrun, ⟨hshape.chain, hshape.nodup, hshape.tail, hshape.count⟩, fun fuel hfuel => ?_⟩
  have hserialize := serialize_segment (l := l.setSerialize) hshape.chain hfuel
  exact hserialize.trans (congrArg Except.ok hrep.holds)

/-- A block of one byte. -/
def oneByte (byte : UInt8) : Block :=
  ⟨⟨1, int32_one⟩, [byte], Int.le_refl 1⟩

/-- The last two of three blocks. -/
theorem serialize_recent_two :
    ∃ (l : MemList) (ids : List ℕ),
      (new ⟨2, by decide⟩).runCalls [.add (oneByte 1), .add (oneByte 2), .add (oneByte 3)] = .ok l ∧
      ids.Nodup ∧ ∀ fuel, ids.length < fuel →
        l.setSerialize.serialize fuel = .ok [some (oneByte 2).item, some (oneByte 3).item] := by
  obtain ⟨l, ids, hrun, ⟨-, hnodup, -⟩, hserialize⟩ := serialize_recent ⟨2, by decide⟩ (by decide)
    [.add (oneByte 1), .add (oneByte 2), .add (oneByte 3)]
    (by simp [Call.Filling, oneByte])
  exact ⟨l, ids, hrun, hnodup, hserialize⟩

end MemList

end Pdk.Queue
