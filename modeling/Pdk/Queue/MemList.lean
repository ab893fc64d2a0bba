import Mathlib.Data.List.DropRight
import Pdk.Foundation.Bytes
import Pdk.Foundation.LinkedNodes

/-!
# `MemList`

Model of the list of recent buffers of `include/util.hpp` and `src/util.cpp`. Nodes live in a heap
and are known by their identity: `new` gives a node an identity that no other one has had, so that a
pointer to a deleted node leads nowhere, whatever is allocated later. Following a null pointer or a
pointer to a deleted node, using a deleted buffer, and a `cur_item_count_` that leaves the range of an
`int` are faults.

`new char[nLength]` throws for a negative length; what `add` has changed by then stays changed.
-/

namespace Pdk.Queue

open Foundation

/-! ## Nodes -/

/-- `MEMITEM`. -/
structure MemItem where
  nLength : CInt
  -- the bytes behind `pBuffer`, `none` once they are deleted
  pBuffer : Option (List UInt8)
  pNext : Option ℕ
  deriving DecidableEq, Repr

inductive Fault where
  | nullNode
  | freedNode
  | freedBuffer
  | overflow
  | diverges
  deriving DecidableEq, Repr

/-- What `add` is called with: `pBuffer` has at least `nLength` bytes. -/
structure Block where
  nLength : CInt
  pBuffer : List UInt8
  inside : nLength.val ≤ pBuffer.length

/-- The bytes that `memcpy` copies. -/
def Block.bytes (b : Block) : List UInt8 :=
  b.pBuffer.take b.nLength.val.toNat

structure MemList where
  -- the live nodes, and the identity of the next one
  heap : ℕ → Option MemItem
  fresh : ℕ
  itemCount : CInt
  curItemCount : CInt
  head : Option ℕ
  tail : Option ℕ
  cur : Option ℕ

namespace MemList

/-- `MemList(nItems)`. -/
def new (nItems : CInt) : MemList :=
  ⟨fun _ => none, 0, nItems, ⟨0, int32_zero⟩, none, none, none⟩

/-- `*p`. -/
def deref (l : MemList) : Option ℕ → Except Fault (ℕ × MemItem)
  | none => .error .nullNode
  | some i =>
    match l.heap i with
    | none => .error .freedNode
    | some n => .ok (i, n)

def setNode (l : MemList) (i : ℕ) (n : Option MemItem) : MemList :=
  { l with heap := Function.update l.heap i n }

/-- `p->pNext = q`. -/
def setNext (l : MemList) (p q : Option ℕ) : Except Fault MemList := do
  let (i, n) ← l.deref p
  return l.setNode i (some { n with pNext := q })

/-! ## Deleting all nodes -/

/-- The loop of `free_all_items()`, at most `fuel` rounds of it. -/
def freeLoop : ℕ → MemList → Except Fault MemList
  | 0, _ => .error .diverges
  | fuel + 1, l =>
    match l.head with
    | none => .ok l
    | some i => do
      let (_, n) ← l.deref (some i)
      -- `delete[] pItem->pBuffer; delete pItem`
      if n.pBuffer.isNone then .error .freedBuffer
      else freeLoop fuel { l.setNode i none with head := n.pNext }

/-- `free_all_items()`: there are never more nodes in the list than were allocated. -/
def freeAllItems (l : MemList) : Except Fault MemList := do
  let freed ← freeLoop (l.fresh + 1) l
  return { freed with head := none, tail := none }

/-- `set_items(nItems)`. -/
def setItems (l : MemList) (nItems : CInt) : Except Fault MemList := do
  let freed ← l.freeAllItems
  return { freed with itemCount := nItems, curItemCount := ⟨0, int32_zero⟩ }

/-- `reset()`. -/
def reset (l : MemList) : Except Fault MemList :=
  freeAllItems { l with curItemCount := ⟨0, int32_zero⟩ }

/-! ## Adding -/

/-- The node that a full list uses again, and the list after it was moved to the end. -/
def recycle (l : MemList) : Except Fault (Option ℕ × MemList) :=
  if l.itemCount.val > 1 then do
    let pItem := l.head
    let (_, n) ← l.deref l.head
    let popped := { l with head := n.pNext }
    let linked ← popped.setNext popped.tail pItem
    let ended ← { linked with tail := pItem }.setNext pItem none
    return (pItem, ended)
  else .ok (l.tail, l)

/-- The buffer of a node that is used again: whether this returns, and the list when it does or
    throws. -/
def refill (l : MemList) (pItem : Option ℕ) (b : Block) : Except Fault (Bool × MemList) := do
  let (i, n) ← l.deref pItem
  match n.pBuffer with
  -- both `delete[]` and `memcpy` need the buffer
  | none => .error .freedBuffer
  | some bytes =>
    if n.nLength ≠ b.nLength then
      if b.nLength.val < 0 then
        return (false, l.setNode i (some { n with nLength := b.nLength, pBuffer := none }))
      else
        return (true, l.setNode i (some { n with nLength := b.nLength, pBuffer := some b.bytes }))
    else
      return (true, l.setNode i (some { n with pBuffer := some (Bytes.overwrite bytes 0 b.bytes) }))

/-- `new MEMITEM`, filled. -/
def allocate (l : MemList) (b : Block) : MemList :=
  { l.setNode l.fresh (some ⟨b.nLength, some b.bytes, none⟩) with fresh := l.fresh + 1 }

/-- The new node becomes the first one or is linked behind the last one. -/
def link (l : MemList) (pItem : ℕ) : Except Fault MemList :=
  if l.head.isNone then .ok { l with head := some pItem, tail := some pItem }
  else do
    let linked ← l.setNext l.tail (some pItem)
    return { linked with tail := some pItem }

/-- `cur_item_count_++`. -/
def countItem (l : MemList) : Except Fault MemList :=
  match addInt32 l.curItemCount.val 1 with
  | none => .error .overflow
  | some count => .ok { l with curItemCount := count }

/-- A new node at the end: whether this returns, and the list when it does or throws. -/
def append (l : MemList) (b : Block) : Except Fault (Bool × MemList) :=
  -- the `MEMITEM` that was allocated first is lost: no pointer leads to it
  if b.nLength.val < 0 then .ok (false, { l with fresh := l.fresh + 1 })
  else do
    let linked ← (l.allocate b).link l.fresh
    let counted ← linked.countItem
    return (true, counted)

/-- `add(nLength, pBuffer)`. -/
def add (l : MemList) (b : Block) : Except Fault (Bool × MemList) :=
  if l.curItemCount = l.itemCount then do
    let (pItem, recycled) ← l.recycle
    recycled.refill pItem b
  else l.append b

/-! ## Iterating -/

/-- `set_serialize()`. -/
def setSerialize (l : MemList) : MemList :=
  { l with cur := l.head }

/-- `get()`. -/
def get (l : MemList) : Except Fault (Option ℕ × MemList) :=
  match l.cur with
  | none => .ok (none, l)
  | some i => do
    let (_, n) ← l.deref (some i)
    return (some i, { l with cur := n.pNext })

/-- The length and the bytes that a caller finds in a node. -/
def item (l : MemList) (i : ℕ) : Option (CInt × List UInt8) :=
  (l.heap i).bind fun n => n.pBuffer.map fun bytes => (n.nLength, bytes)

/-- `get()` until it returns null, at most `fuel` calls of it, and what the caller finds in the
    nodes. -/
def serialize : ℕ → MemList → Except Fault (List (Option (CInt × List UInt8)))
  | 0, _ => .error .diverges
  | fuel + 1, l => do
    let (pItem, l') ← l.get
    match pItem with
    | none => return []
    | some i =>
      let items ← serialize fuel l'
      return l.item i :: items

/-! ## Calls -/

inductive Call where
  | add (b : Block)
  | setItems (nItems : CInt)
  | reset
  | setSerialize
  | get

/-- The node that `get` returns, and the list after the call. -/
def call (l : MemList) : Call → Except Fault (Option ℕ × MemList)
  | .add b => (l.add b).map fun result => (none, result.2)
  | .setItems nItems => (l.setItems nItems).map fun l' => (none, l')
  | .reset => l.reset.map fun l' => (none, l')
  | .setSerialize => .ok (none, l.setSerialize)
  | .get => l.get

/-- The calls one after the other, up to the first fault. -/
def runCalls (l : MemList) (calls : List Call) : Except Fault MemList :=
  calls.foldlM (fun l c => (l.call c).map Prod.snd) l

end MemList

end Pdk.Queue
