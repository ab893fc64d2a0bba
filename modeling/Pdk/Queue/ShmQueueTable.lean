import Pdk.Queue.ShmQueue

/-!
# The slot table of `ShmQueue<T>`

`initialize` (`include/sharedmemory.hpp`) creates a `SharedMemory` object, takes its `data()`, which
maps the segment, and fills `queue_objects_` with the addresses of the slots. The object that was
there before is destroyed when the new one is assigned, and its destructor unmaps the segment. When
`initialize` is called by `reset`, it returns before it fills the table.

So the table holds addresses in the mapping of the constructor, and the segment is where `shmat` has
put it last. `table_points_iff` says that the two agree exactly when `shmat` always returns the same
address.
-/

namespace Pdk.Queue

open Foundation

/-- Sizes and offsets that the compiler decides. -/
structure ShmLayout where
  -- `sizeof(pthread_mutex_t)`
  mutexSize : ℕ
  -- the offset of `m_szData` in `TShmBuffer`
  dataOffset : ℕ
  -- `sizeof(T)`
  objectSize : ℕ

/-- `&shm_buffer_->m_szData + sizeof(T) * i`. -/
def ShmLayout.slot (l : ShmLayout) (shmBuffer i : ℕ) : ℕ :=
  shmBuffer + l.dataOffset + l.objectSize * i

/-! ## Mappings -/

/-- The pointers of a `SharedMemory` object. -/
structure ShmMapping where
  mutexPtr : Option ℕ
  buffer : Option ℕ
  deriving DecidableEq, Repr

namespace ShmMapping

/-- After the constructor, or a `unique_ptr` without an object. -/
def null : ShmMapping := ⟨none, none⟩

/-- `attach`, when `shmat` returns `address`. -/
def attach (l : ShmLayout) (address : ℕ) : ShmMapping :=
  ⟨some address, some (address + l.mutexSize)⟩

/-- `data`. -/
def data (l : ShmLayout) (m : ShmMapping) (address : ℕ) : ShmMapping :=
  match m.buffer with
  | some _ => m
  | none => attach l address

/-- `detach`, on the addresses at which the process has mapped the segment. -/
def detach (m : ShmMapping) (mapped : List ℕ) : List ℕ :=
  match m.mutexPtr with
  | some address => mapped.erase address
  | none => mapped

end ShmMapping

/-! ## The queue object of a process -/

structure ShmTable (ι : Type*) where
  -- the segment and the calls that are under way
  system : ShmSystem ι
  shm : ShmMapping
  shmBuffer : Option ℕ
  queueObjects : List ℕ
  -- where the process has mapped the segment
  mapped : List ℕ

inductive TableAct (ι : Type*) where
  -- a step of `put`, `get` or `try_get`
  | call (a : ShmAct ι)
  -- `reset`, when `shmat` returns `address`
  | reset (address : ℕ)
  deriving DecidableEq, Repr

/-- The part of `initialize` that sets the segment up. -/
def ShmQueue.setUp (q : ShmQueue) (n : ℕ) : ShmQueue :=
  { q with semPut := n, semGet := 0, nextPut := 0, nextGet := 0, curQueueLen := 0, max := n }

namespace ShmTable

variable {ι : Type*}

/-- `initialize(n, bForce)`. -/
def initializeTable (l : ShmLayout) (s : ShmTable ι) (n : ℕ) (bForce origin : Bool) (address : ℕ) :
    ShmTable ι :=
  -- the new object is assigned to `shm_`, which destroys the old one, and is mapped then
  let shm := ShmMapping.null.data l address
  let mapped := address :: s.shm.detach s.mapped
  let q := if !origin || bForce then s.system.q.setUp n else s.system.q
  let s := { s with
    system := { s.system with q := q }
    shm := shm
    shmBuffer := shm.buffer
    mapped := mapped }
  if bForce then s
  else { s with queueObjects := (List.range n).map fun i => l.slot (shm.buffer.getD 0) i }

/-- `reset`. -/
def reset (l : ShmLayout) (s : ShmTable ι) (address : ℕ) : ShmTable ι :=
  s.initializeTable l s.system.q.max true true address

/-- The constructor, on a segment that is new or was there before. -/
def construct (l : ShmLayout) (n : ℕ) (segment : ShmQueue) (origin : Bool) (address : ℕ) :
    ShmTable ι :=
  initializeTable l ⟨⟨segment, fun _ => .idle, [], [], [], [], []⟩, .null, none, [], []⟩ n false
    origin address

variable [DecidableEq ι]

def step (l : ShmLayout) (s : ShmTable ι) : TableAct ι → Option (ShmTable ι)
  | .call a => (s.system.step a).map fun system => { s with system }
  | .reset address => some (s.reset l address)

def machine (ι : Type*) [DecidableEq ι] (l : ShmLayout) (n : ℕ) (segment : ShmQueue)
    (origin : Bool) (address : ℕ) : Machine (ShmTable ι) (TableAct ι) :=
  ⟨construct l n segment origin address, step l⟩

/-! ## The property and the condition -/

omit [DecidableEq ι] in
/-- `shm_buffer_` is in the segment as it is mapped, and the table has the addresses of its slots. -/
structure Points (l : ShmLayout) (n : ℕ) (s : ShmTable ι) : Prop where
  buffer : ∃ address ∈ s.mapped, s.shmBuffer = some (address + l.mutexSize)
  slots : ∀ i < n, ∃ shmBuffer, s.shmBuffer = some shmBuffer ∧
    s.queueObjects[i]? = some (l.slot shmBuffer i)

omit [DecidableEq ι] in
/-- `shmat` returns the address that it returned before. -/
def SameAddress (s : ShmTable ι) : TableAct ι → Prop
  | .call _ => True
  | .reset address => s.shm.mutexPtr = some address

instance (s : ShmTable ι) : ∀ a, Decidable (s.SameAddress a)
  | .call _ => inferInstanceAs (Decidable True)
  | .reset address => inferInstanceAs (Decidable (s.shm.mutexPtr = some address))

/-! ## The mapping of the constructor -/

omit [DecidableEq ι] in
/-- The segment is mapped once, at `address`, and the table was filled for `base`. -/
structure Mapped (l : ShmLayout) (n base address : ℕ) (s : ShmTable ι) : Prop where
  shm : s.shm = .attach l address
  mapped : s.mapped = [address]
  shmBuffer : s.shmBuffer = some (address + l.mutexSize)
  queueObjects : s.queueObjects = (List.range n).map fun i => l.slot (base + l.mutexSize) i

variable {l : ShmLayout} {n base address : ℕ} {s s' : ShmTable ι}

omit [DecidableEq ι] in
theorem mapped_construct (segment : ShmQueue) (origin : Bool) (address : ℕ) :
    Mapped l n address address (construct (ι := ι) l n segment origin address) :=
  ⟨rfl, rfl, rfl, rfl⟩

omit [DecidableEq ι] in
/-- A reset maps the segment again, and leaves the table as it is. -/
theorem Mapped.reset (h : Mapped l n base address s) (address' : ℕ) :
    Mapped l n base address' (s.reset l address') := by
  refine ⟨rfl, ?_, rfl, h.queueObjects⟩
  show address' :: s.shm.detach s.mapped = [address']
  rw [h.shm, h.mapped]
  simp [ShmMapping.detach, ShmMapping.attach]

theorem Mapped.call (h : Mapped l n base address s) {a : ShmAct ι}
    (hstep : s.step l (.call a) = some s') : Mapped l n base address s' := by
  obtain ⟨system, -, rfl⟩ := Option.map_eq_some_iff.mp hstep
  exact ⟨h.shm, h.mapped, h.shmBuffer, h.queueObjects⟩

omit [DecidableEq ι] in
/-- The table is right exactly for the mapping that it was filled for. -/
theorem Mapped.points_iff (hn : 1 ≤ n) (h : Mapped l n base address s) :
    s.Points l n ↔ base = address := by
  constructor
  · intro hpoints
    obtain ⟨shmBuffer, hbuffer, hslot⟩ := hpoints.slots 0 hn
    rw [h.shmBuffer] at hbuffer
    cases hbuffer
    rw [h.queueObjects, List.getElem?_map, List.getElem?_range hn, Option.map_some] at hslot
    have haddress := Option.some.inj hslot
    simp only [ShmLayout.slot] at haddress
    omega
  · rintro rfl
    refine ⟨⟨base, by simp [h.mapped], h.shmBuffer⟩, ?_⟩
    intro i hi
    exact ⟨_, h.shmBuffer, by simp [h.queueObjects, hi]⟩

/-- **The table points into the segment, in every state of a run, exactly when every `reset` finds
    the segment where it was.** -/
theorem table_points_iff (hn : 1 ≤ n) {segment : ShmQueue} {origin : Bool} {acts : List (TableAct ι)}
    (hrun : (machine ι l n segment origin address).run (construct l n segment origin address) acts =
      some s) :
    (machine ι l n segment origin address).Throughout (Points l n)
        (construct l n segment origin address) acts ↔
      (machine ι l n segment origin address).Along SameAddress
        (construct l n segment origin address) acts := by
  refine Machine.throughout_iff_along (I := fun s => ∃ base, Mapped l n base base s) ?_ ?_ ?_
    ⟨address, mapped_construct segment origin address⟩ hrun
  · intro s ⟨base, h⟩
    exact (h.points_iff hn).mpr rfl
  · intro s a s' ⟨base, h⟩ hok hstep
    cases a with
    | call a => exact ⟨base, h.call hstep⟩
    | reset address =>
      cases hstep
      rw [SameAddress, h.shm] at hok
      cases hok
      exact ⟨base, h.reset base⟩
  · intro s a s' ⟨base, h⟩ hnot hstep
    cases a with
    | call a => exact absurd trivial hnot
    | reset address =>
      cases hstep
      rw [(h.reset address).points_iff hn]
      rintro rfl
      exact hnot (by rw [SameAddress, h.shm]; rfl)

/-- A put and a get around a reset that finds the segment where it was. -/
theorem table_points_same_address :
    let l : ShmLayout := ⟨40, 80, 4096⟩
    let acts : List (TableAct (Fin 1)) :=
      [.call (.call 0 (.put [1] 1)), .call (.next 0), .call (.next 0), .call (.next 0),
        .reset 4096, .call (.call 0 .tryGet)]
    ∃ s, (machine (Fin 1) l 2 (.new 4096 2) false 4096).run
        (construct l 2 (.new 4096 2) false 4096) acts = some s ∧
      s.queueObjects = [4216, 8312] ∧
      (machine (Fin 1) l 2 (.new 4096 2) false 4096).Throughout (Points l 2)
        (construct l 2 (.new 4096 2) false 4096) acts := by
  intro l acts
  exact ⟨_, rfl, by decide, (table_points_iff (by decide) rfl).mpr (by decide)⟩

/-- The segment is mapped at another address by the reset: the table still has the addresses in the
    mapping that is gone. -/
theorem table_points_counterexample :
    let l : ShmLayout := ⟨40, 80, 4096⟩
    let acts : List (TableAct (Fin 1)) := [.reset 65536]
    ∃ s, (machine (Fin 1) l 2 (.new 4096 2) false 4096).run
        (construct l 2 (.new 4096 2) false 4096) acts = some s ∧
      s.mapped = [65536] ∧ s.shmBuffer = some 65576 ∧ s.queueObjects = [4216, 8312] ∧
      ¬(machine (Fin 1) l 2 (.new 4096 2) false 4096).Throughout (Points l 2)
        (construct l 2 (.new 4096 2) false 4096) acts := by
  intro l acts
  refine ⟨_, rfl, by decide, by decide, by decide, ?_⟩
  intro h
  obtain ⟨shmBuffer, hbuffer, hslot⟩ := (h acts [] _ (List.append_nil acts).symm rfl).slots 0 (by decide)
  cases hbuffer
  exact absurd hslot (by decide)

end ShmTable

end Pdk.Queue
