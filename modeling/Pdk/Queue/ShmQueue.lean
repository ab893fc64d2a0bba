import Mathlib.Data.Int.Notation
import Mathlib.Logic.Function.Basic
import Pdk.Foundation.Bytes
import Pdk.Foundation.Transition

/-!
# `ShmQueue<T>`

Model of the queue in shared memory of `include/sharedmemory.hpp`. The indices and the length are
used under `shm_->lock()`, but `put` copies its object into the slot after it has released the lock,
and `get` takes a slot without looking at it. The slots are adjacent, and `put` copies as many bytes as
its caller asks for, where these are more than a slot holds also into the slots behind.

A call is a sequence of atomic steps: `put` tries to take a token of `sem_put_`, reserves a slot
under the lock, copies, and posts `sem_get_`; `get` and `try_get` take a token of `sem_get_`, take a
slot under the lock, and post `sem_put_`. The callers may be threads of several processes. What is
done under the lock is one step: the lock is taken to exclude the other processes, which it does as
long as no process attaches to the segment or leaves it while another one is inside
(`SharedSystem.lock_contract`).

The history (`puts`, `copies`, `posts`, `gets`) is not part of the source. It numbers the
reservations in the order of the lock.
-/

namespace Pdk.Queue

open Foundation

/-! ## The segment -/

/-- `TShmBuffer` with the slots behind it. The slots are their bytes, `sizeof(T)` of them each. -/
structure ShmQueue where
  objectSize : ℕ
  semPut : ℕ
  semGet : ℕ
  max : ℕ
  nextPut : ℕ
  nextGet : ℕ
  curQueueLen : ℤ
  queueObjects : List (List UInt8)
  deriving DecidableEq, Repr

namespace ShmQueue

/-- `initialize(n)` on a new segment, whose bytes are zero. -/
def new (objectSize n : ℕ) : ShmQueue :=
  ⟨objectSize, n, 0, n, 0, 0, 0, List.replicate n (List.replicate objectSize 0)⟩

/-- `nLen` of `put`, which is not negative: zero stands for the whole object. -/
def copyLength (q : ShmQueue) (nLen : ℕ) : ℕ :=
  if nLen = 0 then q.objectSize else nLen

/-- An index after `++` and the test against `max_`. -/
def advance (q : ShmQueue) (next : ℕ) : ℕ :=
  if next + 1 = q.max then 0 else next + 1

/-- The slot that `put` reserves. -/
def putSlot (q : ShmQueue) : ℕ :=
  q.nextPut % q.max

/-- The slot that `get` takes. -/
def getSlot (q : ShmQueue) : ℕ :=
  q.nextGet % q.max

/-- The locked part of `put`. -/
def reserve (q : ShmQueue) : ShmQueue :=
  { q with nextPut := q.advance q.nextPut, curQueueLen := q.curQueueLen + 1 }

/-- `memcpy(queue_objects_[slot], object, nLen)`, from the begin of the slot on into as many slots as
    it takes. What would fall behind the last slot is nothing of the queue. -/
def copy (q : ShmQueue) (slot : ℕ) (object : List UInt8) (nLen : ℕ) : ShmQueue :=
  { q with
    queueObjects := Bytes.overwriteCells q.objectSize slot (object.take (q.copyLength nLen))
      q.queueObjects }

/-- The locked part of `get` and `try_get`, on a queue that is not empty. -/
def take (q : ShmQueue) : ShmQueue :=
  { q with nextGet := q.advance q.nextGet, curQueueLen := q.curQueueLen - 1 }

/-! ### The bytes of the slots -/

/-- Every slot has the size of an object. -/
def Sized (q : ShmQueue) : Prop :=
  ∀ object ∈ q.queueObjects, object.length = q.objectSize

theorem sized_new (objectSize n : ℕ) : (new objectSize n).Sized := by
  intro object hobject
  rw [List.eq_of_mem_replicate hobject, List.length_replicate]
  rfl

variable {q : ShmQueue} {slot nLen : ℕ} {object : List UInt8}

theorem Sized.copy (h : q.Sized) : (q.copy slot object nLen).Sized :=
  fun _ hobject => Bytes.length_of_mem_overwriteCells h hobject

@[simp]
theorem length_copy (q : ShmQueue) (slot : ℕ) (object : List UInt8) (nLen : ℕ) :
    (q.copy slot object nLen).queueObjects.length = q.queueObjects.length :=
  Bytes.length_overwriteCells ..

/-- The copy of `put` is one copy into the bytes of the segment. -/
theorem flatten_copy (h : q.Sized) : (q.copy slot object nLen).queueObjects.flatten =
    Bytes.overwrite q.queueObjects.flatten (slot * q.objectSize)
      (object.take (q.copyLength nLen)) :=
  Bytes.flatten_overwriteCells slot _ h

-- three bytes into slots of two
example : ((new 2 3).copy 1 [7, 8, 9] 3).queueObjects = [[0, 0], [7, 8], [9, 0]] := by decide

theorem getElem?_copy_self (q : ShmQueue) (slot : ℕ) (object : List UInt8) (nLen : ℕ) :
    (q.copy slot object nLen).queueObjects[slot]? =
      q.queueObjects[slot]?.map fun dst => Bytes.overwrite dst 0 (object.take (q.copyLength nLen)) :=
  Bytes.getElem?_overwriteCells_self ..

/-- A put that copies no more than a slot holds leaves the other slots alone. -/
theorem getElem?_copy_of_ne (hfits : q.copyLength nLen ≤ q.objectSize) {j : ℕ} (hne : j ≠ slot) :
    (q.copy slot object nLen).queueObjects[j]? = q.queueObjects[j]? := by
  apply Bytes.getElem?_overwriteCells_of_ne _ hne
  rw [List.length_take]
  omega

/-- The payload of a put that fits into its slot is in front of it afterwards. -/
theorem prefix_copy (h : q.Sized) (hfits : q.copyLength nLen ≤ q.objectSize)
    (hslot : slot < q.queueObjects.length) :
    ∃ c, (q.copy slot object nLen).queueObjects[slot]? = some c ∧
      object.take (q.copyLength nLen) <+: c := by
  have hsize := h _ (List.getElem_mem hslot)
  refine ⟨Bytes.overwrite q.queueObjects[slot] 0 (object.take (q.copyLength nLen)), ?_, ?_⟩
  · rw [getElem?_copy_self, List.getElem?_eq_getElem hslot]
    rfl
  · rw [Bytes.overwrite_zero (by rw [List.length_take]; omega)]
    exact List.prefix_append _ _

end ShmQueue

/-! ## Callers -/

inductive ShmOp where
  | put (object : List UInt8) (nLen : ℕ)
  | get
  | tryGet
  deriving DecidableEq, Repr

/-- What a call returns; a pointer is the number of its slot. -/
inductive ShmResult where
  | put (code : ℤ)
  | get (object : Option ℕ)
  | tryGet (code : ℤ) (object : Option ℕ)
  deriving DecidableEq, Repr

/-- The points between the atomic steps of a call. `k` is the number of the reservation. -/
inductive ShmPc where
  | idle
  -- `put` holds a token of `sem_put_`
  | reserving (object : List UInt8) (nLen : ℕ)
  -- `put` has left the lock and is about to copy
  | copying (k : ℕ) (slot : ℕ) (object : List UInt8) (nLen : ℕ)
  -- `put` is about to post `sem_get_`
  | posting (k : ℕ)
  -- `get` found the queue empty and is about to wait again
  | waiting
  -- `get`, or else `try_get`, holds a token of `sem_get_`
  | taking (isGet : Bool)
  -- the call has left the lock and is about to post `sem_put_`
  | releasing (isGet : Bool) (slot : ℕ)
  deriving DecidableEq, Repr

/-- A reservation: the slot and the bytes that are to be copied. -/
structure ShmPut where
  slot : ℕ
  payload : List UInt8
  deriving DecidableEq, Repr

/-- A slot that was taken: its bytes at that moment, and whether the reservation of the same number
    had been copied. -/
structure ShmGet where
  slot : ℕ
  content : List UInt8
  written : Bool
  deriving DecidableEq, Repr

structure ShmSystem (ι : Type*) where
  q : ShmQueue
  pc : ι → ShmPc
  returned : List (ι × ShmResult)
  -- the reservations, in the order of the lock
  puts : List ShmPut
  -- the numbers of the reservations, in the order of the copies
  copies : List ℕ
  -- the numbers of the reservations, in the order of the posts of `sem_get_`
  posts : List ℕ
  -- the slots that were taken, in the order of the lock
  gets : List ShmGet

inductive ShmAct (ι : Type*) where
  -- the first atomic step of a call
  | call (i : ι) (op : ShmOp)
  -- the next atomic step of the call that `i` is in
  | next (i : ι)
  deriving DecidableEq, Repr

namespace ShmSystem

variable {ι : Type*} [DecidableEq ι]

/-- `i` moves to another point. -/
def move (s : ShmSystem ι) (i : ι) (pc : ShmPc) : ShmSystem ι :=
  { s with pc := Function.update s.pc i pc }

/-- The call of `i` returns. -/
def finish (s : ShmSystem ι) (i : ι) (result : ShmResult) : ShmSystem ι :=
  { s.move i .idle with returned := s.returned ++ [(i, result)] }

/-- A token of `sem_get_` is taken. -/
def acquireGet (s : ShmSystem ι) (i : ι) (isGet : Bool) : ShmSystem ι :=
  { s with q := { s.q with semGet := s.q.semGet - 1 } }.move i (.taking isGet)

/-- The first step of a call. -/
def start (s : ShmSystem ι) (i : ι) : ShmOp → Option (ShmSystem ι)
  | .put object nLen =>
    if 0 < s.q.semPut then
      some ({ s with q := { s.q with semPut := s.q.semPut - 1 } }.move i (.reserving object nLen))
    else some (s.finish i (.put (-1)))
  | .get => if 0 < s.q.semGet then some (s.acquireGet i true) else none
  | .tryGet =>
    if 0 < s.q.semGet then some (s.acquireGet i false) else some (s.finish i (.tryGet 0 none))

/-- `put` reserves a slot. -/
def reserve (s : ShmSystem ι) (i : ι) (object : List UInt8) (nLen : ℕ) : ShmSystem ι :=
  { s with
    q := s.q.reserve
    puts := s.puts ++ [ShmPut.mk s.q.putSlot (object.take (s.q.copyLength nLen))] }.move i
      (.copying s.puts.length s.q.putSlot object nLen)

@[simp]
theorem reserve_pc (s : ShmSystem ι) (i : ι) (object : List UInt8) (nLen : ℕ) :
    (s.reserve i object nLen).pc =
      Function.update s.pc i (.copying s.puts.length s.q.putSlot object nLen) := rfl

/-- `put` copies its object. -/
def copy (s : ShmSystem ι) (i : ι) (k slot : ℕ) (object : List UInt8) (nLen : ℕ) : ShmSystem ι :=
  { s with q := s.q.copy slot object nLen, copies := s.copies ++ [k] }.move i (.posting k)

@[simp]
theorem copy_pc (s : ShmSystem ι) (i : ι) (k slot : ℕ) (object : List UInt8) (nLen : ℕ) :
    (s.copy i k slot object nLen).pc = Function.update s.pc i (.posting k) := rfl

/-- `put` posts `sem_get_` and returns. -/
def post (s : ShmSystem ι) (i : ι) (k : ℕ) : ShmSystem ι :=
  { s with q := { s.q with semGet := s.q.semGet + 1 }, posts := s.posts ++ [k] }.finish i (.put 0)

/-- What is known of the slot that is being taken. -/
def taken (s : ShmSystem ι) : ShmGet :=
  ⟨s.q.getSlot, s.q.queueObjects.getD s.q.getSlot [], decide (s.gets.length ∈ s.copies)⟩

/-- The locked part of `get` and `try_get`. Only `get` looks at the length, and at the vector of the
    slots behind the lock. -/
def take (s : ShmSystem ι) (i : ι) (isGet : Bool) : ShmSystem ι :=
  if isGet = true ∧ s.q.curQueueLen = 0 then s.move i .waiting
  else if isGet = true ∧ s.q.queueObjects = [] then
    { s with q := s.q.take, gets := s.gets ++ [s.taken] }.finish i (.get none)
  else
    { s with q := s.q.take, gets := s.gets ++ [s.taken] }.move i (.releasing isGet s.q.getSlot)

/-- `get` and `try_get` post `sem_put_` and return. -/
def release (s : ShmSystem ι) (i : ι) (isGet : Bool) (slot : ℕ) : ShmSystem ι :=
  { s with q := { s.q with semPut := s.q.semPut + 1 } }.finish i
    (if isGet then .get (some slot) else .tryGet 1 (some slot))

/-- The steps of a call after the first one. -/
def proceed (s : ShmSystem ι) (i : ι) : ShmPc → Option (ShmSystem ι)
  | .idle => none
  | .reserving object nLen => some (s.reserve i object nLen)
  | .copying k slot object nLen => some (s.copy i k slot object nLen)
  | .posting k => some (s.post i k)
  | .waiting => if 0 < s.q.semGet then some (s.acquireGet i true) else none
  | .taking isGet => some (s.take i isGet)
  | .releasing isGet slot => some (s.release i isGet slot)

def step (s : ShmSystem ι) : ShmAct ι → Option (ShmSystem ι)
  | .call i op => if s.pc i = .idle then s.start i op else none
  | .next i => s.proceed i (s.pc i)

omit [DecidableEq ι] in
def initial (ι : Type*) (objectSize n : ℕ) : ShmSystem ι :=
  ⟨.new objectSize n, fun _ => .idle, [], [], [], [], []⟩

/-- A queue of `n` slots with no call under way. -/
def machine (ι : Type*) [DecidableEq ι] (objectSize n : ℕ) : Machine (ShmSystem ι) (ShmAct ι) :=
  ⟨initial ι objectSize n, step⟩

/-- A put that is about to copy has no more to copy than its slot holds. -/
def CopyFits (s : ShmSystem ι) : ShmAct ι → Prop
  | .next i =>
    match s.pc i with
    | .copying _ _ _ nLen => s.q.copyLength nLen ≤ s.q.objectSize
    | _ => True
  | .call _ _ => True

instance (s : ShmSystem ι) (a : ShmAct ι) : Decidable (s.CopyFits a) :=
  match a with
  | .next i =>
    match hpc : s.pc i with
    | .copying _ _ _ nLen => decidable_of_iff (s.q.copyLength nLen ≤ s.q.objectSize)
        (by simp only [CopyFits, hpc])
    | .idle | .reserving _ _ | .posting _ | .waiting | .taking _ | .releasing _ _ =>
      isTrue (by simp only [CopyFits, hpc])
  | .call _ _ => isTrue trivial

/-! ## What a step can do -/

/-- What the steps of the system can be. -/
inductive Stepped (s : ShmSystem ι) : ShmAct ι → ShmSystem ι → Prop where
  -- a call finds no token and does not wait for one
  | refused (i : ι) (op : ShmOp) (result : ShmResult) (hpc : s.pc i = .idle) :
      Stepped s (.call i op) (s.finish i result)
  | acquirePut (i : ι) (object : List UInt8) (nLen : ℕ) (hpc : s.pc i = .idle)
      (htoken : 0 < s.q.semPut) :
      Stepped s (.call i (.put object nLen))
        ({ s with q := { s.q with semPut := s.q.semPut - 1 } }.move i (.reserving object nLen))
  | acquireGet (a : ShmAct ι) (i : ι) (isGet : Bool) (hpc : s.pc i = .idle ∨ s.pc i = .waiting)
      (htoken : 0 < s.q.semGet) : Stepped s a (s.acquireGet i isGet)
  | reserve (i : ι) (object : List UInt8) (nLen : ℕ) (hpc : s.pc i = .reserving object nLen) :
      Stepped s (.next i) (s.reserve i object nLen)
  | copy (i : ι) (k slot : ℕ) (object : List UInt8) (nLen : ℕ)
      (hpc : s.pc i = .copying k slot object nLen) :
      Stepped s (.next i) (s.copy i k slot object nLen)
  | post (i : ι) (k : ℕ) (hpc : s.pc i = .posting k) : Stepped s (.next i) (s.post i k)
  | take (i : ι) (isGet : Bool) (hpc : s.pc i = .taking isGet) :
      Stepped s (.next i) (s.take i isGet)
  | release (i : ι) (isGet : Bool) (slot : ℕ) (hpc : s.pc i = .releasing isGet slot) :
      Stepped s (.next i) (s.release i isGet slot)

theorem stepped_of_step {s s' : ShmSystem ι} {a : ShmAct ι} (h : s.step a = some s') :
    Stepped s a s' := by
  cases a with
  | call i op =>
    rw [step] at h
    split at h
    · rename_i hpc
      cases op with
      | put object nLen =>
        simp only [start] at h
        split at h
        · rename_i htoken
          cases h
          exact .acquirePut i object nLen hpc htoken
        · cases h
          exact .refused i _ _ hpc
      | get =>
        simp only [start] at h
        split at h
        · rename_i htoken
          cases h
          exact .acquireGet _ i true (.inl hpc) htoken
        · cases h
      | tryGet =>
        simp only [start] at h
        split at h
        · rename_i htoken
          cases h
          exact .acquireGet _ i false (.inl hpc) htoken
        · cases h
          exact .refused i _ _ hpc
    · cases h
  | next i =>
    rw [step] at h
    cases hpc : s.pc i with
    | idle =>
      rw [hpc] at h
      cases h
    | reserving object nLen =>
      rw [hpc] at h
      cases h
      exact .reserve i object nLen hpc
    | copying k slot object nLen =>
      rw [hpc] at h
      cases h
      exact .copy i k slot object nLen hpc
    | posting k =>
      rw [hpc] at h
      cases h
      exact .post i k hpc
    | waiting =>
      rw [hpc] at h
      simp only [proceed] at h
      split at h
      · rename_i htoken
        cases h
        exact .acquireGet _ i true (.inr hpc) htoken
      · cases h
    | taking isGet =>
      rw [hpc] at h
      cases h
      exact .take i isGet hpc
    | releasing isGet slot =>
      rw [hpc] at h
      cases h
      exact .release i isGet slot hpc

end ShmSystem

end Pdk.Queue
