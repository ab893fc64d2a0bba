import Pdk.Queue.ShmQueueLength

/-!
# How long a message of a `ShmQueue` lives

`get` and `try_get` return a pointer into the ring and post `sem_put_` before their caller has read
the message. The system here is the one of `put`, `get` and `try_get` with one consumer, and records
the slot that the consumer holds, from the return of a call to the begin of the next one, with the
bytes that were in it.

A put that is about to copy has a number between the number of takes and the number of reservations.
As long as these are less than `max_` apart from the message that is held, none of them has its slot
(`Inv.slot_ne`). They get that far apart only when a put reserves the slot that is held.
-/

namespace Pdk.Queue

open Foundation

structure ShmHold (ι : Type*) where
  base : ShmSystem ι
  -- the slot that the consumer holds, and its bytes when the call returned
  held : Option (ℕ × List UInt8)

/-- The thread is inside `get` or `try_get`. -/
def ShmPc.Takes : ShmPc → Prop
  | .waiting | .taking _ | .releasing _ _ => True
  | _ => False

/-- Neither before the copy of a put nor before the release of a slot. -/
def ShmPc.isQuiet : ShmPc → Bool
  | .copying .. => false
  | .releasing .. => false
  | _ => true

namespace ShmHold

variable {ι : Type*} [DecidableEq ι]

/-- What the consumer holds after an action. -/
def heldAfter (s : ShmHold ι) : ShmAct ι → Option (ℕ × List UInt8)
  | .call _ (.put _ _) => s.held
  | .call _ .get | .call _ .tryGet => none
  | .next i =>
    match s.base.pc i with
    | .releasing _ slot => some (slot, s.base.q.queueObjects.getD slot [])
    | _ => s.held

/-- Only the consumer calls `get` and `try_get`. -/
def Allowed (consumer : ι) : ShmAct ι → Prop
  | .call _ (.put _ _) => True
  | .call i .get | .call i .tryGet => i = consumer
  | .next _ => True

instance (consumer : ι) (a : ShmAct ι) : Decidable (Allowed consumer a) :=
  match a with
  | .call _ (.put _ _) => isTrue trivial
  | .call i .get | .call i .tryGet => inferInstanceAs (Decidable (i = consumer))
  | .next _ => isTrue trivial

def step (consumer : ι) (s : ShmHold ι) (a : ShmAct ι) : Option (ShmHold ι) :=
  if Allowed consumer a then (s.base.step a).map fun base => ⟨base, s.heldAfter a⟩ else none

def machine (consumer : ι) (objectSize n : ℕ) : Machine (ShmHold ι) (ShmAct ι) :=
  ⟨⟨ShmSystem.initial ι objectSize n, none⟩, step consumer⟩

/-- The message that the consumer holds is as it was. -/
def Intact (s : ShmHold ι) : Prop :=
  ∀ slot content, s.held = some (slot, content) → s.base.q.queueObjects.getD slot [] = content

/-- **The condition on the slots**: one is taken only when its reservation was copied, and no put
    reserves the one that the consumer holds. -/
def Leaves (s : ShmHold ι) : ShmAct ι → Prop
  | .next i =>
    match s.base.pc i with
    | .taking isGet =>
      ¬(isGet = true ∧ s.base.q.curQueueLen = 0) → s.base.gets.length ∈ s.base.copies
    | .reserving _ _ => ∀ message ∈ s.held, s.base.q.putSlot ≠ message.1
    | _ => True
  | .call _ _ => True

instance (s : ShmHold ι) (a : ShmAct ι) : Decidable (s.Leaves a) :=
  match a with
  | .next i =>
    match hpc : s.base.pc i with
    | .taking isGet => decidable_of_iff
        (¬(isGet = true ∧ s.base.q.curQueueLen = 0) → s.base.gets.length ∈ s.base.copies)
        (by simp only [Leaves, hpc])
    | .reserving _ _ => decidable_of_iff (∀ message ∈ s.held, s.base.q.putSlot ≠ message.1)
        (by simp only [Leaves, hpc])
    | .idle | .copying _ _ _ _ | .posting _ | .waiting | .releasing _ _ =>
      isTrue (by simp only [Leaves, hpc])
  | .call _ _ => isTrue trivial

/-! ## Puts that are about to copy -/

/-- The puts that have reserved a slot and not copied. -/
structure Pending (n : ℕ) (s : ShmSystem ι) : Prop where
  number : ∀ i k slot object nLen, s.pc i = .copying k slot object nLen →
    slot = k % n ∧ s.gets.length ≤ k ∧ k < s.puts.length ∧ k ∉ s.copies
  unique : ∀ i j k slot object nLen slot' object' nLen', s.pc i = .copying k slot object nLen →
    s.pc j = .copying k slot' object' nLen' → i = j
  copies_lt : ∀ k ∈ s.copies, k < s.puts.length

omit [DecidableEq ι] in
theorem pending_initial (objectSize n : ℕ) : Pending n (ShmSystem.initial ι objectSize n) :=
  ⟨nofun, nofun, nofun⟩

namespace Pending

variable {n : ℕ} {s s' : ShmSystem ι} {i : ι}

/-- A call that neither reserves, nor copies, nor takes. -/
theorem move (h : Pending n s) {pc : ShmPc} (hpc : s'.pc = Function.update s.pc i pc)
    (hnot : ∀ k slot object nLen, pc ≠ .copying k slot object nLen) (hputs : s'.puts = s.puts)
    (hcopies : s'.copies = s.copies) (hgets : s'.gets = s.gets) : Pending n s' := by
  have hold : ∀ j k slot object nLen, s'.pc j = .copying k slot object nLen →
      s.pc j = .copying k slot object nLen := by
    intro j k slot object nLen hj
    rw [hpc] at hj
    by_cases hji : j = i
    · rw [hji, Function.update_self] at hj
      exact absurd hj (hnot k slot object nLen)
    · rwa [Function.update_of_ne hji] at hj
  refine ⟨?_, ?_, ?_⟩
  · intro j k slot object nLen hj
    rw [hputs, hcopies, hgets]
    exact h.number j k slot object nLen (hold _ _ _ _ _ hj)
  · intro j j' k slot object nLen slot' object' nLen' hj hj'
    exact h.unique j j' k _ _ _ _ _ _ (hold _ _ _ _ _ hj) (hold _ _ _ _ _ hj')
  · rw [hputs, hcopies]
    exact h.copies_lt

theorem reserve (h : Pending n s) (hslot : s.q.putSlot = s.puts.length % n)
    (htaken : s.gets.length ≤ s.puts.length) (object : List UInt8) (nLen : ℕ) :
    Pending n (s.reserve i object nLen) := by
  have hlen : (s.reserve i object nLen).puts.length = s.puts.length + 1 := by
    simp [ShmSystem.reserve, ShmSystem.move]
  have hcases : ∀ j k slot object' nLen',
      (s.reserve i object nLen).pc j = .copying k slot object' nLen' →
      (j = i ∧ k = s.puts.length ∧ slot = s.q.putSlot) ∨ s.pc j = .copying k slot object' nLen' := by
    intro j k slot object' nLen' hj
    by_cases hji : j = i
    · rw [hji, ShmSystem.reserve_pc, Function.update_self] at hj
      cases hj
      exact .inl ⟨hji, rfl, rfl⟩
    · rw [ShmSystem.reserve_pc, Function.update_of_ne hji] at hj
      exact .inr hj
  refine ⟨?_, ?_, ?_⟩
  · intro j k slot object' nLen' hj
    rw [hlen]
    rcases hcases j k slot object' nLen' hj with ⟨-, rfl, rfl⟩ | hold
    · exact ⟨hslot, htaken, Nat.lt_succ_self _, fun hmem => Nat.lt_irrefl _ (h.copies_lt _ hmem)⟩
    · obtain ⟨hs, hge, hlt, hnew⟩ := h.number j k slot object' nLen' hold
      exact ⟨hs, hge, Nat.lt_succ_of_lt hlt, hnew⟩
  · intro j j' k slot object₁ nLen₁ slot' object₂ nLen₂ hj hj'
    rcases hcases j k _ _ _ hj with ⟨hji, hk, -⟩ | hold
    · rcases hcases j' k _ _ _ hj' with ⟨hji', -, -⟩ | hold'
      · rw [hji, hji']
      · exact absurd (h.number j' k _ _ _ hold').2.2.1 (by omega)
    · rcases hcases j' k _ _ _ hj' with ⟨-, hk, -⟩ | hold'
      · exact absurd (h.number j k _ _ _ hold).2.2.1 (by omega)
      · exact h.unique j j' k _ _ _ _ _ _ hold hold'
  · intro k hk
    rw [hlen]
    exact Nat.lt_succ_of_lt (h.copies_lt k hk)

theorem copy (h : Pending n s) {k slot nLen : ℕ} {object : List UInt8}
    (hpc : s.pc i = .copying k slot object nLen) : Pending n (s.copy i k slot object nLen) := by
  have hold : ∀ j k' slot' object' nLen',
      (s.copy i k slot object nLen).pc j = .copying k' slot' object' nLen' →
      j ≠ i ∧ s.pc j = .copying k' slot' object' nLen' := by
    intro j k' slot' object' nLen' hj
    by_cases hji : j = i
    · rw [hji, ShmSystem.copy_pc, Function.update_self] at hj
      cases hj
    · rw [ShmSystem.copy_pc, Function.update_of_ne hji] at hj
      exact ⟨hji, hj⟩
  refine ⟨?_, ?_, ?_⟩
  · intro j k' slot' object' nLen' hj
    obtain ⟨hji, hj⟩ := hold j k' slot' object' nLen' hj
    obtain ⟨hs, hge, hlt, hnew⟩ := h.number j k' slot' object' nLen' hj
    refine ⟨hs, hge, hlt, fun hmem => ?_⟩
    rcases List.mem_append.mp hmem with hbefore | hnow
    · exact hnew hbefore
    · rw [List.mem_singleton.mp hnow] at hj
      exact hji (h.unique j i k _ _ _ _ _ _ hj hpc)
  · intro j j' k' slot₁ object₁ nLen₁ slot₂ object₂ nLen₂ hj hj'
    exact h.unique j j' k' _ _ _ _ _ _ (hold _ _ _ _ _ hj).2 (hold _ _ _ _ _ hj').2
  · intro k' hk'
    rcases List.mem_append.mp hk' with hbefore | hnow
    · exact h.copies_lt k' hbefore
    · rw [List.mem_singleton.mp hnow]
      exact (h.number i k _ _ _ hpc).2.2.1

/-- A slot is taken whose reservation was copied. -/
theorem take (h : Pending n s) {pc : ShmPc}
    (hnot : ∀ k slot object nLen, pc ≠ .copying k slot object nLen)
    (hcopied : s.gets.length ∈ s.copies) :
    Pending n ({ s with q := s.q.take, gets := s.gets ++ [s.taken] }.move i pc) := by
  have hmoved : Pending n (s.move i pc) := h.move rfl hnot rfl rfl rfl
  refine ⟨?_, hmoved.unique, h.copies_lt⟩
  intro j k slot object nLen hj
  obtain ⟨hs, hge, hlt, hnew⟩ := hmoved.number j k slot object nLen hj
  refine ⟨hs, ?_, hlt, hnew⟩
  have hne : s.gets.length ≠ k := fun heq => hnew (heq ▸ hcopied)
  show (s.gets ++ [s.taken]).length ≤ k
  rw [List.length_append, List.length_singleton]
  exact Nat.lt_of_le_of_ne hge hne

end Pending

/-! ## The message that is held -/

section Runs

variable [Fintype ι] {n : ℕ} {consumer : ι} {s : ShmHold ι} {base : ShmSystem ι} {i : ι}

/-- The last take and what the consumer holds of it. -/
structure Inv (n : ℕ) (consumer : ι) (s : ShmHold ι) : Prop where
  exact : s.base.Exact n
  pending : Pending n s.base
  takes : ∀ i, (s.base.pc i).Takes → i = consumer
  releasing : ∀ isGet slot, s.base.pc consumer = .releasing isGet slot →
    0 < s.base.gets.length ∧ slot = (s.base.gets.length - 1) % n
  held : ∀ slot content, s.held = some (slot, content) →
    0 < s.base.gets.length ∧ slot = (s.base.gets.length - 1) % n ∧
      s.base.puts.length ≤ s.base.gets.length - 1 + n ∧ ¬(s.base.pc consumer).Takes
  intact : s.Intact

omit [DecidableEq ι] in
theorem inv_initial (consumer : ι) (objectSize n : ℕ) :
    Inv n consumer ⟨ShmSystem.initial ι objectSize n, none⟩ :=
  ⟨ShmSystem.exact_initial objectSize n, pending_initial objectSize n, nofun, nofun, nofun, nofun⟩

omit [DecidableEq ι] in
/-- **No put is about to copy into the slot that is held.** -/
theorem Inv.slot_ne (h : Inv n consumer s) {k slot nLen : ℕ} {object : List UInt8}
    (hpc : s.base.pc i = .copying k slot object nLen) {slot' : ℕ} {content : List UInt8}
    (hheld : s.held = some (slot', content)) : slot ≠ slot' := by
  obtain ⟨hslot, hge, hlt, -⟩ := h.pending.number i k slot object nLen hpc
  obtain ⟨hpos, hslot', hwindow, -⟩ := h.held slot' content hheld
  intro heq
  rw [hslot, hslot'] at heq
  have hsame := eq_of_mod_eq heq (by omega : s.base.gets.length - 1 ≤ k) (Nat.le_refl _)
    (by omega) (by omega)
  omega

omit [DecidableEq ι] in
/-- A consumer that is inside a call holds nothing. -/
theorem Inv.held_none (h : Inv n consumer s) (htakes : (s.base.pc consumer).Takes) :
    s.held = none := by
  cases hheld : s.held with
  | none => rfl
  | some p =>
    obtain ⟨slot, content⟩ := p
    exact absurd htakes (h.held slot content hheld).2.2.2

/-- A step that neither reserves, nor copies, nor takes. -/
theorem Inv.quiet (h : Inv n consumer s) {pc : ShmPc} {held : Option (ℕ × List UInt8)}
    (hexact : base.Exact n) (hpc : base.pc = Function.update s.base.pc i pc)
    (hputs : base.puts = s.base.puts) (hcopies : base.copies = s.base.copies)
    (hgets : base.gets = s.base.gets) (hobjects : base.q.queueObjects = s.base.q.queueObjects)
    (hquiet : pc.isQuiet = true) (htakes : pc.Takes → i = consumer ∧ held = none)
    (hheld : held = none ∨ held = s.held) : Inv n consumer ⟨base, held⟩ := by
  have hcopying : ∀ k slot object nLen, pc ≠ .copying k slot object nLen := by
    rintro k slot object nLen rfl
    cases hquiet
  have hreleasing : ∀ isGet slot, pc ≠ .releasing isGet slot := by
    rintro isGet slot rfl
    cases hquiet
  refine ⟨hexact, h.pending.move hpc hcopying hputs hcopies hgets, ?_, ?_, ?_, ?_⟩
  · intro j hj
    simp only [hpc] at hj
    by_cases hji : j = i
    · rw [hji, Function.update_self] at hj
      exact hji.trans (htakes hj).1
    · rw [Function.update_of_ne hji] at hj
      exact h.takes j hj
  · intro isGet slot hrel
    simp only [hpc] at hrel
    rw [hgets]
    by_cases hci : consumer = i
    · rw [hci, Function.update_self] at hrel
      exact absurd hrel (hreleasing isGet slot)
    · rw [Function.update_of_ne hci] at hrel
      exact h.releasing isGet slot hrel
  · intro slot content hsome
    rcases hheld with hnone | hsame
    · rw [hnone] at hsome
      cases hsome
    · obtain ⟨hpos, hslot, hwindow, hnot⟩ := h.held slot content (hsame ▸ hsome)
      refine ⟨by rw [hgets]; exact hpos, by rw [hgets]; exact hslot,
        by rw [hputs, hgets]; exact hwindow, ?_⟩
      show ¬(base.pc consumer).Takes
      rw [hpc]
      by_cases hci : consumer = i
      · rw [hci, Function.update_self]
        intro hinside
        have hnone := (htakes hinside).2
        rw [hnone] at hsome
        cases hsome
      · rw [Function.update_of_ne hci]
        exact hnot
  · intro slot content hsome
    rcases hheld with hnone | hsame
    · rw [hnone] at hsome
      cases hsome
    · show base.q.queueObjects.getD slot [] = content
      rw [hobjects]
      exact h.intact slot content (hsame ▸ hsome)

omit [Fintype ι] in
/-- A step of a put leaves those that are inside a take where they are. -/
theorem pc_of_takes {pc : ShmPc} (hpc : base.pc = Function.update s.base.pc i pc)
    (hput : ¬pc.Takes) {j : ι} (hj : (base.pc j).Takes) : base.pc j = s.base.pc j := by
  rw [hpc] at hj ⊢
  by_cases hji : j = i
  · rw [hji, Function.update_self] at hj
    exact absurd hj hput
  · exact Function.update_of_ne hji _ _

/-- What the invariant says about the takes, behind a step of a put. -/
theorem Inv.takes_of_put (h : Inv n consumer s) {pc : ShmPc}
    (hpc : base.pc = Function.update s.base.pc i pc) (hput : ¬pc.Takes)
    (hgets : base.gets = s.base.gets) :
    (∀ j, (base.pc j).Takes → j = consumer) ∧
      ∀ isGet slot, base.pc consumer = .releasing isGet slot →
        0 < base.gets.length ∧ slot = (base.gets.length - 1) % n := by
  constructor
  · intro j hj
    exact h.takes j (pc_of_takes hpc hput hj ▸ hj)
  · intro isGet slot hrel
    have hsame := pc_of_takes hpc hput (j := consumer) (by rw [hrel]; trivial)
    rw [hgets]
    exact h.releasing isGet slot (hsame ▸ hrel)

/-- A put reserves a slot, which is not the one that is held. -/
theorem Inv.reserve (h : Inv n consumer s) (hn : 0 < n) {object : List UInt8} {nLen : ℕ}
    (hpc : s.base.pc i = .reserving object nLen)
    (hleaves : ∀ message ∈ s.held, s.base.q.putSlot ≠ message.1) :
    Inv n consumer ⟨s.base.reserve i object nLen, s.held⟩ := by
  have hputSlot : s.base.q.putSlot = s.base.puts.length % n := by
    rw [ShmQueue.putSlot, h.exact.nextPut, h.exact.max, Nat.mod_mod]
  have hlen : (s.base.reserve i object nLen).puts.length = s.base.puts.length + 1 := by
    simp [ShmSystem.reserve, ShmSystem.move]
  have hupdate := ShmSystem.reserve_pc s.base i object nLen
  obtain ⟨htakes, hreleasing⟩ := h.takes_of_put hupdate id rfl
  refine ⟨h.exact.reserve hn hpc, h.pending.reserve hputSlot h.exact.taken object nLen, htakes,
    hreleasing, ?_, h.intact⟩
  · intro slot content hheld
    obtain ⟨hpos, hslot, hwindow, hnot⟩ := h.held slot content hheld
    refine ⟨hpos, hslot, ?_, fun hinside => hnot (pc_of_takes hupdate id hinside ▸ hinside)⟩
    -- the only reservation of the window with the slot that is held would be the last one
    have hne : s.base.puts.length ≠ s.base.gets.length - 1 + n := by
      intro heq
      refine hleaves (slot, content) hheld ?_
      rw [hputSlot, hslot, heq, Nat.add_mod_right]
    show (s.base.reserve i object nLen).puts.length ≤ _
    rw [hlen]
    exact Nat.lt_of_le_of_ne hwindow hne

/-- A put copies, into another slot than the one that is held, and no further. -/
theorem Inv.copy (h : Inv n consumer s) {k slot nLen : ℕ} {object : List UInt8}
    (hpc : s.base.pc i = .copying k slot object nLen)
    (hfits : s.base.q.copyLength nLen ≤ s.base.q.objectSize) :
    Inv n consumer ⟨s.base.copy i k slot object nLen, s.held⟩ := by
  have hupdate := ShmSystem.copy_pc s.base i k slot object nLen
  obtain ⟨htakes, hreleasing⟩ := h.takes_of_put hupdate id rfl
  have hexact : (s.base.copy i k slot object nLen).Exact n :=
    h.exact.move rfl rfl rfl rfl rfl (ShmQueue.length_copy ..) rfl rfl (by rw [hpc]; rfl)
  refine ⟨hexact, h.pending.copy hpc, htakes, hreleasing, ?_, ?_⟩
  · intro slot' content hheld
    obtain ⟨hpos, hslot, hwindow, hnot⟩ := h.held slot' content hheld
    exact ⟨hpos, hslot, hwindow, fun hinside => hnot (pc_of_takes hupdate id hinside ▸ hinside)⟩
  · intro slot' content hheld
    have hsame := h.intact slot' content hheld
    rw [← hsame]
    show (s.base.q.copy slot object nLen).queueObjects.getD slot' [] = _
    rw [List.getD_eq_getElem?_getD,
      ShmQueue.getElem?_copy_of_ne hfits (h.slot_ne hpc hheld).symm,
      ← List.getD_eq_getElem?_getD]

/-- The consumer takes a slot that was copied. -/
theorem Inv.take (h : Inv n consumer s) (hn : 0 < n) {isGet : Bool}
    (hpc : s.base.pc i = .taking isGet)
    (hleaves : ¬(isGet = true ∧ s.base.q.curQueueLen = 0) → s.base.gets.length ∈ s.base.copies) :
    Inv n consumer ⟨s.base.take i isGet, s.held⟩ := by
  obtain rfl : i = consumer := h.takes i (by rw [hpc]; trivial)
  have hnone : s.held = none := h.held_none (by rw [hpc]; trivial)
  have hlen := h.exact.length
  have hexact : (s.base.take i isGet).Exact n := by
    refine h.exact.take hn hpc fun hfalse hzero => ?_
    have hcopied := hleaves fun hempty => by rw [hfalse] at hempty; cases hempty.1
    have hlt := h.pending.copies_lt _ hcopied
    omega
  by_cases hempty : isGet = true ∧ s.base.q.curQueueLen = 0
  · have htake : s.base.take i isGet = s.base.move i .waiting := if_pos hempty
    rw [htake] at hexact ⊢
    exact h.quiet hexact rfl rfl rfl rfl rfl rfl (fun _ => ⟨rfl, hnone⟩) (.inr rfl)
  · have hobjects : ¬(isGet = true ∧ s.base.q.queueObjects = []) := by
      rintro ⟨-, hnil⟩
      have hslots := h.exact.objects
      rw [hnil, List.length_nil] at hslots
      omega
    have htake : s.base.take i isGet =
        { s.base with q := s.base.q.take, gets := s.base.gets ++ [s.base.taken] }.move i
          (.releasing isGet s.base.q.getSlot) := by
      rw [ShmSystem.take, if_neg hempty, if_neg hobjects]
    rw [htake] at hexact ⊢
    refine ⟨hexact, h.pending.take (fun _ _ _ _ hpc => by cases hpc) (hleaves hempty), ?_, ?_, ?_, ?_⟩
    · intro j hj
      by_cases hji : j = i
      · exact hji
      · refine h.takes j ?_
        simp only [ShmSystem.move, Function.update_of_ne hji] at hj
        exact hj
    · intro isGet' slot hrel
      simp only [ShmSystem.move, Function.update_self, ShmPc.releasing.injEq] at hrel
      have hgetSlot : s.base.q.getSlot = s.base.gets.length % n := by
        rw [ShmQueue.getSlot, h.exact.nextGet, h.exact.max, Nat.mod_mod]
      simp [ShmSystem.move, ← hrel.2, hgetSlot]
    · intro slot content hheld
      rw [show (ShmHold.mk _ s.held).held = s.held from rfl, hnone] at hheld
      cases hheld
    · intro slot content hheld
      rw [show (ShmHold.mk _ s.held).held = s.held from rfl, hnone] at hheld
      cases hheld

/-- The call of the consumer returns. The token that it posts is the one for its slot. -/
theorem Inv.release (h : Inv n consumer s) {isGet : Bool} {slot : ℕ}
    (hpc : s.base.pc i = .releasing isGet slot) :
    Inv n consumer
      ⟨s.base.release i isGet slot, some (slot, s.base.q.queueObjects.getD slot [])⟩ := by
  obtain rfl : i = consumer := h.takes i (by rw [hpc]; trivial)
  obtain ⟨hpos, hslot⟩ := h.releasing isGet slot hpc
  have hput := h.exact.put
  have hone : 0 < tally ShmPc.isReleasing s.base.pc := tally_pos (i := i) (by rw [hpc]; rfl)
  have hexact : (s.base.release i isGet slot).Exact n :=
    h.exact.move rfl rfl rfl rfl rfl rfl rfl rfl (by rw [hpc]; rfl)
  have hself : (s.base.release i isGet slot).pc i = .idle := Function.update_self _ _ _
  refine ⟨hexact, h.pending.move rfl nofun rfl rfl rfl, ?_, ?_, ?_, ?_⟩
  · intro j hj
    by_cases hji : j = i
    · exact hji
    · refine h.takes j ?_
      simp only [ShmSystem.release, ShmSystem.finish, ShmSystem.move, Function.update_of_ne hji] at hj
      exact hj
  · intro isGet' slot' hrel
    rw [hself] at hrel
    cases hrel
  · rintro slot' content ⟨⟩
    refine ⟨hpos, hslot, ?_, ?_⟩
    · show s.base.puts.length ≤ s.base.gets.length - 1 + n
      omega
    · rw [hself]
      exact id
  · rintro slot' content ⟨⟩
    rfl

/-- The begin of a call. -/
theorem Inv.call {op : ShmOp} (h : Inv n consumer s) (hallowed : Allowed consumer (.call i op))
    (hexact : base.Exact n) (hstart : s.base.start i op = some base) :
    Inv n consumer ⟨base, s.heldAfter (.call i op)⟩ := by
  cases op with
  | put object nLen =>
    simp only [ShmSystem.start] at hstart
    split at hstart
    · cases hstart
      exact h.quiet hexact rfl rfl rfl rfl rfl rfl False.elim (.inr rfl)
    · cases hstart
      exact h.quiet hexact rfl rfl rfl rfl rfl rfl False.elim (.inr rfl)
  | get =>
    simp only [ShmSystem.start] at hstart
    split at hstart
    · cases hstart
      exact h.quiet hexact rfl rfl rfl rfl rfl rfl (fun _ => ⟨hallowed, rfl⟩) (.inl rfl)
    · cases hstart
  | tryGet =>
    simp only [ShmSystem.start] at hstart
    split at hstart
    · cases hstart
      exact h.quiet hexact rfl rfl rfl rfl rfl rfl (fun _ => ⟨hallowed, rfl⟩) (.inl rfl)
    · cases hstart
      exact h.quiet hexact rfl rfl rfl rfl rfl rfl False.elim (.inl rfl)

/-- The other steps of a call. -/
theorem Inv.next (h : Inv n consumer s) (hn : 0 < n) (hleaves : s.Leaves (.next i))
    (hfits : s.base.CopyFits (.next i))
    (hproceed : s.base.proceed i (s.base.pc i) = some base) :
    Inv n consumer ⟨base, s.heldAfter (.next i)⟩ := by
  simp only [Leaves] at hleaves
  simp only [ShmSystem.CopyFits] at hfits
  cases hpc : s.base.pc i with
  | idle =>
    rw [hpc] at hproceed
    cases hproceed
  | reserving object nLen =>
    have hheld : s.heldAfter (.next i) = s.held := by simp [heldAfter, hpc]
    rw [hpc] at hproceed hleaves
    cases hproceed
    rw [hheld]
    exact h.reserve hn hpc hleaves
  | copying k slot object nLen =>
    have hheld : s.heldAfter (.next i) = s.held := by simp [heldAfter, hpc]
    rw [hpc] at hproceed hfits
    cases hproceed
    rw [hheld]
    exact h.copy hpc hfits
  | posting k =>
    have hheld : s.heldAfter (.next i) = s.held := by simp [heldAfter, hpc]
    rw [hpc] at hproceed
    cases hproceed
    rw [hheld]
    have hexact : (s.base.post i k).Exact n :=
      h.exact.move rfl rfl rfl rfl rfl rfl rfl rfl (by rw [hpc]; rfl)
    exact h.quiet hexact rfl rfl rfl rfl rfl rfl False.elim (.inr rfl)
  | waiting =>
    have hheld : s.heldAfter (.next i) = s.held := by simp [heldAfter, hpc]
    obtain rfl : i = consumer := h.takes i (by rw [hpc]; trivial)
    have hnone : s.held = none := h.held_none (by rw [hpc]; trivial)
    rw [hpc] at hproceed
    simp only [ShmSystem.proceed] at hproceed
    split at hproceed
    · cases hproceed
      rw [hheld]
      have hexact : (s.base.acquireGet i true).Exact n :=
        h.exact.move rfl rfl rfl rfl rfl rfl rfl rfl (by rw [hpc]; rfl)
      exact h.quiet hexact rfl rfl rfl rfl rfl rfl (fun _ => ⟨rfl, hnone⟩) (.inr rfl)
    · cases hproceed
  | taking isGet =>
    have hheld : s.heldAfter (.next i) = s.held := by simp [heldAfter, hpc]
    rw [hpc] at hproceed hleaves
    cases hproceed
    rw [hheld]
    exact h.take hn hpc hleaves
  | releasing isGet slot =>
    have hheld : s.heldAfter (.next i) = some (slot, s.base.q.queueObjects.getD slot []) := by
      simp [heldAfter, hpc]
    rw [hpc] at hproceed
    cases hproceed
    rw [hheld]
    exact h.release hpc

/-- **Step lemma.** -/
theorem inv_step (hn : 0 < n) {a : ShmAct ι} {s' : ShmHold ι} (h : Inv n consumer s)
    (hleaves : s.Leaves a) (hfits : s.base.CopyFits a) (hstep : s.step consumer a = some s') :
    Inv n consumer s' := by
  unfold step at hstep
  split at hstep
  · rename_i hallowed
    rw [Option.map_eq_some_iff] at hstep
    obtain ⟨base, hbase, rfl⟩ := hstep
    cases a with
    | call i op =>
      have hexact : base.Exact n :=
        ShmSystem.exact_step h.exact hn (fun _ heq => by cases heq) (ShmSystem.stepped_of_step hbase)
      rw [ShmSystem.step] at hbase
      split at hbase
      · exact h.call hallowed hexact hbase
      · cases hbase
    | next i => exact h.next hn hleaves hfits hbase
  · cases hstep

/-- **Messages stay intact.** For every capacity, every number of producers and every interleaving:
    what the consumer was given stays as it was until its next call, in every run in which a slot is
    taken only after its reservation was copied, and in which no put reserves the slot that the
    consumer holds, or copies more than its own slot holds. -/
theorem message_intact (consumer : ι) (objectSize n : ℕ) (hn : 1 ≤ n) (acts : List (ShmAct ι))
    (s : ShmHold ι) (hrun : (machine consumer objectSize n).run
      (machine consumer objectSize n).init acts = some s)
    (hleaves : (machine consumer objectSize n).Along (fun s a => s.Leaves a ∧ s.base.CopyFits a)
      (machine consumer objectSize n).init acts) : s.Intact :=
  (Machine.run_preserves_along (P := Inv n consumer)
    (fun _ _ _ h hok hstep => inv_step hn h hok.1 hok.2 hstep)
    (inv_initial consumer objectSize n) hleaves hrun).intact

/-- With two slots, the message that follows the one that is held goes into the other slot. -/
theorem message_intact_two_slots :
    let acts : List (ShmAct (Fin 2)) :=
      [.call 0 (.put [7] 0), .next 0, .next 0, .next 0, .call 1 .get, .next 1, .next 1,
        .call 0 (.put [8] 0), .next 0, .next 0, .next 0]
    ∃ s, (machine (1 : Fin 2) 1 2).run (machine (1 : Fin 2) 1 2).init acts = some s ∧
      s.held = some (0, [7]) ∧ s.Intact := by
  intro acts
  exact ⟨_, rfl, rfl, message_intact 1 1 2 (by decide) acts _ rfl (by decide)⟩

end Runs

/-- A put that reserves the slot that is held overwrites the message with its next step. -/
theorem reserve_overwrites (consumer : ι) (objectSize n : ℕ) {s : ShmHold ι} {i : ι}
    {object content : List UInt8} {nLen slot : ℕ} (hpc : s.base.pc i = .reserving object nLen)
    (hheld : s.held = some (slot, content)) (hslot : s.base.q.putSlot = slot)
    (hintact : s.base.q.queueObjects[slot]? = some content) :
    ∃ s', (machine consumer objectSize n).run s [.next i, .next i] = some s' ∧
      s'.held = some (slot, content) ∧
      s'.base.q.queueObjects.getD slot [] =
        Bytes.overwrite content 0 (object.take (s.base.q.copyLength nLen)) := by
  let base₁ := s.base.reserve i object nLen
  have hpc₁ : base₁.pc i = .copying s.base.puts.length slot object nLen := by
    rw [← hslot]
    exact Function.update_self _ _ _
  have hstep₁ : (machine consumer objectSize n).step s (.next i) = some ⟨base₁, s.held⟩ := by
    simp [machine, step, Allowed, ShmSystem.step, hpc, ShmSystem.proceed, heldAfter, base₁]
  have hstep₂ : (machine consumer objectSize n).step ⟨base₁, s.held⟩ (.next i) =
      some ⟨base₁.copy i s.base.puts.length slot object nLen, s.held⟩ := by
    simp [machine, step, Allowed, ShmSystem.step, hpc₁, ShmSystem.proceed, heldAfter]
  refine ⟨⟨base₁.copy i s.base.puts.length slot object nLen, s.held⟩, ?_, hheld, ?_⟩
  · rw [Machine.run_cons, hstep₁, Option.bind_some, Machine.run_cons, hstep₂]
    rfl
  · show ((s.base.reserve i object nLen).q.copy slot object nLen).queueObjects.getD slot [] = _
    rw [List.getD_eq_getElem?_getD, ShmQueue.getElem?_copy_self]
    show ((s.base.q.queueObjects[slot]?).map _).getD [] = _
    rw [hintact]
    rfl

/-- With one slot, the next message is copied over the one that is held. -/
theorem message_intact_counterexample :
    ¬∀ (objectSize n : ℕ) (acts : List (ShmAct (Fin 2))) (s : ShmHold (Fin 2)), 1 ≤ n →
      (machine 1 objectSize n).run (machine 1 objectSize n).init acts = some s → s.Intact := by
  intro h
  have hintact := h 1 1
    [.call 0 (.put [7] 0), .next 0, .next 0, .next 0, .call 1 .get, .next 1, .next 1,
      .call 0 (.put [8] 0), .next 0, .next 0] _ (by decide) rfl
  exact absurd (hintact 0 [7] rfl) (by decide)

end ShmHold

end Pdk.Queue
