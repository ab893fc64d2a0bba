import Pdk.Queue.ShmQueueOrder

/-!
# The length of a `ShmQueue`

The remaining entry points of `ShmQueue<T>`, around the system of `put`, `get` and `try_get`:
`put_event`, which posts `sem_get_` without a message, `peek`, and the timed `try_get`, which calls
`try_get` until it returns 1 or its time is over. The congestion thread of `ShmQThread` calls
`put_event` again and again.

A token of `sem_get_` therefore does not stand for a message. `get` looks at the length before it
takes a slot, `try_get` does not. The length is the number of the reservations less the number of
the takes, and stays between 0 and `max_`, exactly as long as no `try_get` takes a slot of an empty
queue (`exact_iff`).
-/

namespace Pdk.Queue

open Foundation

/-! ## The other calls -/

/-- The points of the calls that are not `put`, `get` or `try_get`. -/
inductive ShmExtra where
  | none
  -- inside the timed `try_get`: before a call of `try_get`, or in it and behind it
  | timed (called : Bool)
  -- inside `put_event`, about to post
  | posting (bRet : Bool)
  -- inside `peek`, past the test without the lock
  | peeking (value : List UInt8) (len offset : ℕ)
  deriving DecidableEq, Repr

inductive ShmExtraResult where
  | putEvent (bRet : Bool)
  | tryGetTimed (code : ℤ)
  | peek (bOk : ℤ)
  deriving DecidableEq, Repr

/-- The loop of `peek`: an object of the queue has the value at the offset. -/
def ShmQueue.finds (q : ShmQueue) (value : List UInt8) (len offset : ℕ) : Bool :=
  (List.range q.curQueueLen.toNat).any fun i =>
    let src := q.queueObjects.getD ((q.nextGet + i) % q.max) []
    decide ((src.drop offset).take len = value.take len)

structure ShmEventSystem (ι : Type*) where
  base : ShmSystem ι
  extra : ι → ShmExtra
  results : List (ι × ShmExtraResult)
  -- the length that the last take of a thread found
  found : ι → ℤ
  -- the lengths that were found by the `try_get`s that have returned 1
  tries : List ℤ

inductive ShmEventAct (ι : Type*) where
  | shm (a : ShmAct ι)
  -- the timed `try_get`: its begin, and what it does when its `try_get` has returned
  | timedTryGet (i : ι)
  | timedNext (i : ι) (late : Bool)
  -- `put_event`: the locked part, and the post
  | putEvent (i : ι)
  | putEventPost (i : ι)
  -- `peek`: the test without the lock, and the locked part
  | peek (i : ι) (value : List UInt8) (len offset : ℕ)
  | peekScan (i : ι)
  deriving DecidableEq, Repr

namespace ShmEventSystem

variable {ι : Type*} [DecidableEq ι]

/-- `i` is not inside any call. -/
def Free (s : ShmEventSystem ι) (i : ι) : Prop :=
  s.extra i = .none ∧ s.base.pc i = .idle

instance (s : ShmEventSystem ι) (i : ι) : Decidable (s.Free i) :=
  inferInstanceAs (Decidable (_ ∧ _))

def goTo (s : ShmEventSystem ι) (i : ι) (extra : ShmExtra) : ShmEventSystem ι :=
  { s with extra := Function.update s.extra i extra }

def finish (s : ShmEventSystem ι) (i : ι) (result : ShmExtraResult) : ShmEventSystem ι :=
  { s.goTo i .none with results := s.results ++ [(i, result)] }

/-- What the last `try_get` of `i` has returned. -/
def lastTry (s : ShmEventSystem ι) (i : ι) : ℤ :=
  match s.base.returned.reverse.find? (·.1 = i) with
  | some (_, .tryGet code _) => code
  | _ => 0

/-- The length that a take finds. -/
def foundAfter (s : ShmEventSystem ι) : ShmAct ι → ι → ℤ
  | .next i =>
    match s.base.pc i with
    | .taking _ => Function.update s.found i s.base.q.curQueueLen
    | _ => s.found
  | .call _ _ => s.found

omit [DecidableEq ι] in
/-- A `try_get` that returns 1. -/
def triesAfter (s : ShmEventSystem ι) : ShmAct ι → List ℤ
  | .next i =>
    match s.base.pc i with
    | .releasing false _ => s.tries ++ [s.found i]
    | _ => s.tries
  | .call _ _ => s.tries

/-- A step of `put`, `get` or `try_get`. -/
def apply (s : ShmEventSystem ι) (a : ShmAct ι) : Option (ShmEventSystem ι) :=
  (s.base.step a).map fun base =>
    { s with base := base, found := s.foundAfter a, tries := s.triesAfter a }

def stepShm (s : ShmEventSystem ι) : ShmAct ι → Option (ShmEventSystem ι)
  | .call i op =>
    match s.extra i with
    | .none => s.apply (.call i op)
    | .timed false => if op = .tryGet then (s.goTo i (.timed true)).apply (.call i op) else none
    | _ => none
  | .next i =>
    match s.extra i with
    | .none | .timed true => s.apply (.next i)
    | _ => none

def step (s : ShmEventSystem ι) : ShmEventAct ι → Option (ShmEventSystem ι)
  | .shm a => s.stepShm a
  | .timedTryGet i => if s.Free i then some (s.goTo i (.timed false)) else none
  | .timedNext i late =>
    if s.extra i = .timed true ∧ s.base.pc i = .idle then
      if s.lastTry i = 1 then some (s.finish i (.tryGetTimed 1))
      else if late then some (s.finish i (.tryGetTimed 0))
      else some (s.goTo i (.timed false))
    else none
  | .putEvent i =>
    if s.Free i then some (s.goTo i (.posting (decide (s.base.q.curQueueLen > 1)))) else none
  | .putEventPost i =>
    match s.extra i with
    | .posting bRet =>
      let q := { s.base.q with semGet := s.base.q.semGet + 1 }
      some ({ s with base := { s.base with q := q } }.finish i (.putEvent bRet))
    | _ => none
  | .peek i value len offset =>
    if s.Free i then
      if s.base.q.curQueueLen ≤ 0 then some (s.finish i (.peek 0))
      else some (s.goTo i (.peeking value len offset))
    else none
  | .peekScan i =>
    match s.extra i with
    | .peeking value len offset =>
      some (s.finish i (.peek (if s.base.q.finds value len offset then 1 else 0)))
    | _ => none

omit [DecidableEq ι] in
def initial (ι : Type*) (objectSize n : ℕ) : ShmEventSystem ι :=
  ⟨.initial ι objectSize n, fun _ => .none, [], fun _ => 0, []⟩

/-- A queue of `n` slots with no call under way. -/
def machine (ι : Type*) [DecidableEq ι] (objectSize n : ℕ) :
    Machine (ShmEventSystem ι) (ShmEventAct ι) :=
  ⟨initial ι objectSize n, step⟩

end ShmEventSystem

/-! ## The accounts of the lock -/

namespace ShmSystem

variable {ι : Type*} [DecidableEq ι] [Fintype ι] {n : ℕ} {s s' : ShmSystem ι} {i : ι}

/-- The indices, the length and `sem_put_` agree with the history. Nothing is said of `sem_get_`. -/
structure Exact (n : ℕ) (s : ShmSystem ι) : Prop where
  put : s.q.semPut + tally ShmPc.isReserving s.pc + s.puts.length +
    tally ShmPc.isReleasing s.pc = n + s.gets.length
  taken : s.gets.length ≤ s.puts.length
  length : s.q.curQueueLen = (s.puts.length : ℤ) - s.gets.length
  max : s.q.max = n
  objects : s.q.queueObjects.length = n
  nextPut : s.q.nextPut = s.puts.length % n
  nextGet : s.q.nextGet = s.gets.length % n

omit [DecidableEq ι] in
theorem exact_initial (objectSize n : ℕ) : (initial ι objectSize n).Exact n := by
  have hnobody : ∀ p : ShmPc → Bool, p .idle = false → tally p (initial ι objectSize n).pc = 0 :=
    fun p hp => tally_const hp
  refine ⟨?_, Nat.le_refl _, rfl, rfl, List.length_replicate, (Nat.zero_mod n).symm,
    (Nat.zero_mod n).symm⟩
  rw [hnobody ShmPc.isReserving rfl, hnobody ShmPc.isReleasing rfl]
  rfl

namespace Exact

/-- **Local conservation** of the tokens of `sem_put_`. -/
theorem balance (h : s.Exact n) (s' : ShmSystem ι) (i : ι) (pc : ShmPc)
    (hpc : s'.pc = Function.update s.pc i pc)
    (hput : s'.q.semPut + pc.isReserving.toNat + s'.puts.length + pc.isReleasing.toNat +
        s.gets.length =
      s.q.semPut + (s.pc i).isReserving.toNat + s.puts.length + (s.pc i).isReleasing.toNat +
        s'.gets.length) :
    s'.q.semPut + tally ShmPc.isReserving s'.pc + s'.puts.length +
      tally ShmPc.isReleasing s'.pc = n + s'.gets.length := by
  have hold := h.put
  have hreserving := tally_update ShmPc.isReserving s.pc i pc
  have hreleasing := tally_update ShmPc.isReleasing s.pc i pc
  rw [hpc]
  omega

/-- A call that changes neither the reservations, nor the takes, nor the indices. -/
theorem move (h : s.Exact n) {pc : ShmPc} (hpc : s'.pc = Function.update s.pc i pc)
    (hputs : s'.puts = s.puts) (hgets : s'.gets = s.gets) (hlen : s'.q.curQueueLen = s.q.curQueueLen)
    (hmax : s'.q.max = s.q.max) (hobjects : s'.q.queueObjects.length = s.q.queueObjects.length)
    (hnextPut : s'.q.nextPut = s.q.nextPut) (hnextGet : s'.q.nextGet = s.q.nextGet)
    (hput : s'.q.semPut + pc.isReserving.toNat + pc.isReleasing.toNat =
      s.q.semPut + (s.pc i).isReserving.toNat + (s.pc i).isReleasing.toNat) : s'.Exact n := by
  refine ⟨h.balance s' i pc hpc (by rw [hputs, hgets]; omega), ?_, ?_, hmax.trans h.max,
    hobjects.trans h.objects, ?_, ?_⟩
  · rw [hputs, hgets]
    exact h.taken
  · rw [hputs, hgets]
    exact hlen.trans h.length
  · rw [hputs]
    exact hnextPut.trans h.nextPut
  · rw [hgets]
    exact hnextGet.trans h.nextGet

theorem reserve (h : s.Exact n) (hn : 0 < n) {object : List UInt8} {nLen : ℕ}
    (hpc : s.pc i = .reserving object nLen) : (s.reserve i object nLen).Exact n := by
  have hput := h.balance (s.reserve i object nLen) i _ rfl
    (by simp [hpc, ShmSystem.reserve, ShmSystem.move, ShmQueue.reserve, ShmPc.isReserving,
      ShmPc.isReleasing]; omega)
  have htaken := h.taken
  refine ⟨hput, ?_, ?_, h.max, h.objects, ?_, h.nextGet⟩
  · show s.gets.length ≤ (s.puts ++ [_]).length
    rw [List.length_append]
    exact Nat.le_add_right_of_le htaken
  · show s.q.curQueueLen + 1 = ((s.puts ++ [_]).length : ℤ) - s.gets.length
    rw [h.length, List.length_append, List.length_singleton]
    omega
  · show s.q.advance s.q.nextPut = (s.puts ++ [_]).length % n
    have hadvance := ShmQueue.advance_mod (h.max.symm ▸ hn) s.puts.length
    rw [h.max] at hadvance
    rw [h.nextPut, hadvance, List.length_append, List.length_singleton]

/-- A slot is taken of a queue that is not empty. -/
theorem take (h : s.Exact n) (hn : 0 < n) {isGet : Bool} (hpc : s.pc i = .taking isGet)
    (hnotEmpty : isGet = false → s.q.curQueueLen ≠ 0) : (s.take i isGet).Exact n := by
  have hlen := h.length
  have htaken := h.taken
  rw [ShmSystem.take]
  split
  · -- `get` goes back to its wait
    exact h.move rfl rfl rfl rfl rfl rfl rfl rfl (by rw [hpc]; rfl)
  · rename_i hmessage
    have hlonger : s.q.curQueueLen ≠ 0 := by
      intro hzero
      cases isGet with
      | true => exact hmessage ⟨rfl, hzero⟩
      | false => exact hnotEmpty rfl hzero
    have hobjects : ¬(isGet = true ∧ s.q.queueObjects = []) := by
      rintro ⟨-, hnil⟩
      have hslots := h.objects
      rw [hnil, List.length_nil] at hslots
      omega
    rw [if_neg hobjects]
    have hput := h.balance ({ s with q := s.q.take, gets := s.gets ++ [s.taken] }.move i
        (.releasing isGet s.q.getSlot)) i _ rfl
      (by simp [hpc, ShmSystem.move, ShmQueue.take, ShmPc.isReserving, ShmPc.isReleasing]; omega)
    refine ⟨hput, ?_, ?_, h.max, h.objects, h.nextPut, ?_⟩
    · show (s.gets ++ [_]).length ≤ s.puts.length
      rw [List.length_append, List.length_singleton]
      omega
    · show s.q.curQueueLen - 1 = (s.puts.length : ℤ) - (s.gets ++ [_]).length
      rw [hlen, List.length_append, List.length_singleton]
      omega
    · show s.q.advance s.q.nextGet = (s.gets ++ [_]).length % n
      have hadvance := ShmQueue.advance_mod (h.max.symm ▸ hn) s.gets.length
      rw [h.max] at hadvance
      rw [h.nextGet, hadvance, List.length_append, List.length_singleton]

end Exact

/-- **Step lemma**: a step keeps the accounts unless `try_get` takes a slot of an empty queue. -/
theorem exact_step {a : ShmAct ι} (h : s.Exact n) (hn : 0 < n)
    (hok : ∀ i, a = .next i → s.pc i = .taking false → s.q.curQueueLen ≠ 0)
    (hstep : Stepped s a s') : s'.Exact n := by
  cases hstep with
  | refused i op result hpc => exact h.move rfl rfl rfl rfl rfl rfl rfl rfl (by rw [hpc]; rfl)
  | acquirePut i object nLen hpc htoken =>
    refine h.move rfl rfl rfl rfl rfl rfl rfl rfl ?_
    rw [hpc]
    show s.q.semPut - 1 + 1 + 0 = s.q.semPut
    omega
  | acquireGet _ i isGet hpc htoken =>
    refine h.move rfl rfl rfl rfl rfl rfl rfl rfl ?_
    rcases hpc with hpc | hpc <;> rw [hpc] <;> rfl
  | reserve i object nLen hpc => exact h.reserve hn hpc
  | copy i k slot object nLen hpc =>
    exact h.move rfl rfl rfl rfl rfl (ShmQueue.length_copy ..) rfl rfl (by rw [hpc]; rfl)
  | post i k hpc => exact h.move rfl rfl rfl rfl rfl rfl rfl rfl (by rw [hpc]; rfl)
  | take i isGet hpc =>
    refine h.take hn hpc ?_
    rintro rfl
    exact hok i rfl hpc
  | release i isGet slot hpc => exact h.move rfl rfl rfl rfl rfl rfl rfl rfl (by rw [hpc]; rfl)

end ShmSystem

/-! ## Whole runs -/

namespace ShmEventSystem

variable {ι : Type*} [DecidableEq ι] {n : ℕ} {s s' : ShmEventSystem ι}

/-- What the steps of the system with the other calls can be. -/
inductive EventStepped (s : ShmEventSystem ι) : ShmEventAct ι → ShmEventSystem ι → Prop where
  | shm (a : ShmAct ι) (extra : ι → ShmExtra) (base : ShmSystem ι)
      (hstep : s.base.step a = some base) :
      EventStepped s (.shm a) ⟨base, extra, s.results, s.foundAfter a, s.triesAfter a⟩
  -- a token without a message
  | posts (i : ι) (extra : ι → ShmExtra) (results : List (ι × ShmExtraResult)) :
      EventStepped s (.putEventPost i)
        ⟨{ s.base with q := { s.base.q with semGet := s.base.q.semGet + 1 } }, extra, results,
          s.found, s.tries⟩
  -- nothing of the segment is changed
  | reads (a : ShmEventAct ι) (extra : ι → ShmExtra) (results : List (ι × ShmExtraResult)) :
      EventStepped s a ⟨s.base, extra, results, s.found, s.tries⟩

theorem eventStepped_of_apply {a : ShmAct ι} {i : ι} {extra : ShmExtra}
    (h : (s.goTo i extra).apply a = some s') : EventStepped s (.shm a) s' := by
  rw [apply, Option.map_eq_some_iff] at h
  obtain ⟨base, hstep, rfl⟩ := h
  exact .shm a (Function.update s.extra i extra) base hstep

theorem eventStepped_of_step {a : ShmEventAct ι} (h : s.step a = some s') : EventStepped s a s' := by
  have hstay : ∀ i, s.goTo i (s.extra i) = s := by
    intro i
    rw [goTo, Function.update_eq_self]
  cases a with
  | shm a =>
    cases a with
    | call i op =>
      simp only [step, stepShm] at h
      split at h
      · exact eventStepped_of_apply (i := i) ((hstay i).symm ▸ h)
      · split at h
        · exact eventStepped_of_apply h
        · cases h
      · cases h
    | next i =>
      simp only [step, stepShm] at h
      split at h
      · exact eventStepped_of_apply (i := i) ((hstay i).symm ▸ h)
      · exact eventStepped_of_apply (i := i) ((hstay i).symm ▸ h)
      · cases h
  | timedTryGet i =>
    simp only [step] at h
    split at h
    · cases h
      exact .reads _ _ _
    · cases h
  | timedNext i late =>
    simp only [step] at h
    split at h
    · split at h
      · cases h
        exact .reads _ _ _
      · split at h
        · cases h
          exact .reads _ _ _
        · cases h
          exact .reads _ _ _
    · cases h
  | putEvent i =>
    simp only [step] at h
    split at h
    · cases h
      exact .reads _ _ _
    · cases h
  | putEventPost i =>
    simp only [step] at h
    split at h
    · cases h
      exact .posts i _ _
    · cases h
  | peek i value len offset =>
    simp only [step] at h
    split at h
    · split at h
      · cases h
        exact .reads _ _ _
      · cases h
        exact .reads _ _ _
    · cases h
  | peekScan i =>
    simp only [step] at h
    split at h
    · cases h
      exact .reads _ _ _
    · cases h

/-- A thread that is not about to take a slot finds what it had found. -/
theorem foundAfter_of_releasing (a : ShmAct ι) {k : ι} (hk : (s.base.pc k).isReleasing = true) :
    s.foundAfter a k = s.found k := by
  cases a with
  | call i op => rfl
  | next i =>
    cases hpc : s.base.pc i with
    | taking isGet =>
      have hki : k ≠ i := by
        rintro rfl
        rw [hpc] at hk
        cases hk
      simp only [foundAfter, hpc, Function.update_of_ne hki]
    | _ => simp only [foundAfter, hpc]

omit [DecidableEq ι] in
/-- What the step of a `try_get` that returns 1 records is what its take has found. -/
theorem mem_triesAfter {a : ShmAct ι} {len : ℤ} (h : len ∈ s.triesAfter a) :
    len ∈ s.tries ∨ ∃ i, (s.base.pc i).isReleasing = true ∧ len = s.found i := by
  cases a with
  | call i op => exact .inl h
  | next i =>
    simp only [triesAfter] at h
    split at h
    · rename_i slot hpc
      rcases List.mem_append.mp h with hold | hnew
      · exact .inl hold
      · exact .inr ⟨i, by rw [hpc]; rfl, List.mem_singleton.mp hnew⟩
    · exact .inl h

variable [Fintype ι]

structure Inv (n : ℕ) (s : ShmEventSystem ι) : Prop where
  accounts : s.base.Exact n
  found : ∀ i, (s.base.pc i).isReleasing = true → 0 < s.found i
  tries : ∀ len ∈ s.tries, 0 < len

/-- What a length and its two indices have to be. -/
structure ExactLength (s : ShmEventSystem ι) : Prop where
  -- reservations less takes
  length : s.base.q.curQueueLen = (s.base.puts.length : ℤ) - s.base.gets.length
  nonneg : 0 ≤ s.base.q.curQueueLen
  le_max : s.base.q.curQueueLen ≤ s.base.q.max
  nextPut_lt : s.base.q.nextPut < s.base.q.max
  nextGet_lt : s.base.q.nextGet < s.base.q.max
  distance : (s.base.q.nextPut : ℤ) = (s.base.q.nextGet + s.base.q.curQueueLen) % s.base.q.max
  -- a `try_get` that has returned 1 has found a message
  message : ∀ len ∈ s.tries, 0 < len
  semPut_le : s.base.q.semPut ≤ s.base.q.max

omit [DecidableEq ι] in
theorem Inv.exactLength (h : s.Inv n) (hn : 0 < n) : s.ExactLength := by
  have hexact := h.accounts
  have hlen := hexact.length
  have htaken := hexact.taken
  have hput := hexact.put
  have hmax := hexact.max
  refine ⟨hlen, by omega, by omega, ?_, ?_, ?_, h.tries, by omega⟩
  · rw [hexact.nextPut, hmax]
    exact Nat.mod_lt _ hn
  · rw [hexact.nextGet, hmax]
    exact Nat.mod_lt _ hn
  · have hsum : ((s.base.gets.length : ℤ) + s.base.q.curQueueLen) = s.base.puts.length := by omega
    rw [hexact.nextPut, hexact.nextGet, hmax, Int.natCast_emod, Int.natCast_emod, Int.emod_add_emod,
      hsum]

/-- **The condition**: `try_get` does not take a slot of an empty queue. -/
def TakesMessage (s : ShmEventSystem ι) : ShmEventAct ι → Prop
  | .shm (.next i) => s.base.pc i = .taking false → s.base.q.curQueueLen ≠ 0
  | _ => True

/-- What a take finds is what it needs. -/
theorem found_take {i : ι} {isGet : Bool} (h : s.base.Exact n) (hpc : s.base.pc i = .taking isGet)
    (hnotEmpty : isGet = false → s.base.q.curQueueLen ≠ 0)
    (hreleasing : ((s.base.take i isGet).pc i).isReleasing = true) :
    0 < s.foundAfter (.next i) i := by
  have hlen := h.length
  have htaken := h.taken
  have hlonger : s.base.q.curQueueLen ≠ 0 := by
    intro hzero
    cases isGet with
    | true =>
      rw [ShmSystem.take, if_pos ⟨rfl, hzero⟩] at hreleasing
      simp [ShmSystem.move, ShmPc.isReleasing] at hreleasing
    | false => exact hnotEmpty rfl hzero
  simp only [foundAfter, hpc, Function.update_self]
  omega

omit [Fintype ι] in
/-- A call that moves to a point in which it does not release: the others have found what they had
    found. -/
theorem found_of_update {base : ShmSystem ι} {i : ι} {pc : ShmPc} (a : ShmAct ι)
    (h : ∀ k, (s.base.pc k).isReleasing = true → 0 < s.found k)
    (hpc : base.pc = Function.update s.base.pc i pc) (hnot : pc.isReleasing = false) (k : ι)
    (hk : (base.pc k).isReleasing = true) : 0 < s.foundAfter a k := by
  rw [hpc] at hk
  by_cases hki : k = i
  · subst hki
    rw [Function.update_self, hnot] at hk
    cases hk
  · rw [Function.update_of_ne hki] at hk
    rw [foundAfter_of_releasing a hk]
    exact h k hk

theorem found_step {a : ShmAct ι} {base : ShmSystem ι} (h : s.Inv n)
    (hok : s.TakesMessage (.shm a)) (hstep : ShmSystem.Stepped s.base a base) (k : ι)
    (hk : (base.pc k).isReleasing = true) : 0 < s.foundAfter a k := by
  cases hstep with
  | refused i op result hpc => exact found_of_update _ h.found rfl rfl k hk
  | acquirePut i object nLen hpc htoken => exact found_of_update _ h.found rfl rfl k hk
  | acquireGet _ i isGet hpc htoken => exact found_of_update _ h.found rfl rfl k hk
  | reserve i object nLen hpc => exact found_of_update _ h.found rfl rfl k hk
  | copy i j slot object nLen hpc => exact found_of_update _ h.found rfl rfl k hk
  | post i j hpc => exact found_of_update _ h.found rfl rfl k hk
  | release i isGet slot hpc => exact found_of_update _ h.found rfl rfl k hk
  | take i isGet hpc =>
    by_cases hki : k = i
    · subst hki
      refine found_take h.accounts hpc ?_ hk
      rintro rfl
      exact hok hpc
    · have hsame : (s.base.take i isGet).pc k = s.base.pc k := by
        simp only [ShmSystem.take]
        split
        · exact Function.update_of_ne hki _ _
        · split <;> exact Function.update_of_ne hki _ _
      rw [hsame] at hk
      rw [foundAfter_of_releasing _ hk]
      exact h.found k hk

/-- **Step lemma**: a step keeps the invariant unless `try_get` takes a slot of an empty queue. -/
theorem inv_step {a : ShmEventAct ι} (h : s.Inv n) (hn : 0 < n) (hok : s.TakesMessage a)
    (hstep : EventStepped s a s') : s'.Inv n := by
  cases hstep with
  | shm a extra base hbase =>
    have hstepped := ShmSystem.stepped_of_step hbase
    refine ⟨ShmSystem.exact_step h.accounts hn ?_ hstepped, found_step h hok hstepped, ?_⟩
    · rintro i rfl hpc
      exact hok hpc
    · intro len hlen
      rcases mem_triesAfter hlen with hold | ⟨i, hreleasing, rfl⟩
      · exact h.tries len hold
      · exact h.found i hreleasing
  | posts i extra results =>
    have hexact := h.accounts
    exact ⟨⟨hexact.put, hexact.taken, hexact.length, hexact.max, hexact.objects, hexact.nextPut,
      hexact.nextGet⟩, h.found, h.tries⟩
  | reads a extra results => exact ⟨h.accounts, h.found, h.tries⟩

omit [DecidableEq ι] in
theorem inv_initial (objectSize n : ℕ) : (initial ι objectSize n).Inv n :=
  ⟨ShmSystem.exact_initial objectSize n, nofun, nofun⟩

omit [Fintype ι] in
/-- A `try_get` on an empty queue leaves a negative length. -/
theorem not_exactLength_of_empty {a : ShmEventAct ι} (hnot : ¬s.TakesMessage a)
    (hstep : s.step a = some s') : ¬s'.ExactLength := by
  cases a with
  | shm a =>
    cases a with
    | call i op => exact absurd trivial hnot
    | next i =>
      simp only [TakesMessage, Classical.not_imp, not_not] at hnot
      obtain ⟨hpc, hempty⟩ := hnot
      have hbase : s'.base = s.base.take i false := by
        have happly : s.apply (.next i) = some s' := by
          simp only [step, stepShm] at hstep
          split at hstep
          · exact hstep
          · exact hstep
          · cases hstep
        simp only [apply, ShmSystem.step, hpc, ShmSystem.proceed, Option.map_some,
          Option.some.injEq] at happly
        rw [← happly]
      intro hexact
      have hneg := hexact.nonneg
      rw [hbase] at hneg
      simp [ShmSystem.take, ShmSystem.move, ShmQueue.take, hempty] at hneg
  | _ => exact absurd trivial hnot

/-- **The accounts are exact as long as `try_get` finds messages**: in every run of the calls on a
    queue of at least one slot, by any number of threads and processes, length, indices and
    `sem_put_` are what the reservations and the takes say, and every `try_get` that has returned 1
    has found a message, in every state of the run exactly when no `try_get` enters the lock with a
    token while the queue is empty. -/
theorem exact_iff (objectSize n : ℕ) (hn : 0 < n) (acts : List (ShmEventAct ι))
    (s : ShmEventSystem ι)
    (hrun : (machine ι objectSize n).run (machine ι objectSize n).init acts = some s) :
    (machine ι objectSize n).Throughout ExactLength (machine ι objectSize n).init acts ↔
      (machine ι objectSize n).Along TakesMessage (machine ι objectSize n).init acts := by
  refine Machine.throughout_iff_along (I := Inv n) (fun s hs => hs.exactLength hn) ?_ ?_
    (inv_initial objectSize n) hrun
  · intro s a s' hs hok hstep
    exact inv_step hs hn hok (eventStepped_of_step hstep)
  · intro s a s' _ hnot hstep
    exact not_exactLength_of_empty hnot hstep

/-- A message that is put and taken by `try_get`, with an event before it and a `get` that meets the
    token of the event. -/
theorem exact_iff_event :
    let acts : List (ShmEventAct (Fin 2)) :=
      [.putEvent 0, .putEventPost 0, .shm (.call 1 .get), .shm (.next 1),
        .shm (.call 0 (.put [7] 0)), .shm (.next 0), .shm (.next 0), .shm (.next 0),
        .timedTryGet 0, .shm (.call 0 .tryGet), .shm (.next 0), .shm (.next 0), .timedNext 0 false]
    ∃ s, (machine (Fin 2) 1 2).run (machine (Fin 2) 1 2).init acts = some s ∧ s.tries = [1] ∧
      ((machine (Fin 2) 1 2).Throughout ExactLength (machine (Fin 2) 1 2).init acts ↔
        (machine (Fin 2) 1 2).Along TakesMessage (machine (Fin 2) 1 2).init acts) :=
  ⟨_, rfl, rfl, exact_iff 1 2 (by decide) _ _ rfl⟩

/-- An event and a `try_get` on an empty queue of one slot: it returns 1, the length is -1, and there
    are two tokens for one slot. -/
theorem not_exact_event :
    ∃ s, (machine (Fin 1) 1 1).run (machine (Fin 1) 1 1).init
        [.putEvent 0, .putEventPost 0, .shm (.call 0 .tryGet), .shm (.next 0), .shm (.next 0)] =
          some s ∧
      s.base.returned = [(0, .tryGet 1 (some 0))] ∧ s.base.q.curQueueLen = -1 ∧
      s.base.q.semPut = 2 ∧ ¬s.ExactLength := by
  refine ⟨_, rfl, rfl, rfl, rfl, ?_⟩
  intro hexact
  have hneg := hexact.nonneg
  revert hneg
  decide

end ShmEventSystem

end Pdk.Queue
