import Pdk.Pool.PgPoolCustody

/-!
# What the pool knows of the connections it gives out

`release` is the only function that looks at a connection: it checks it, resets it, and rebuilds it
if this did not help. When the rebuild fails, the broken connection goes back to `available_pool_`,
"next acquire will try again"; but `acquire` and `try_acquire` give out what they find there.

The system here also records, for every address, whether the last check or repair has failed, and
what was known of each connection that was given out. Without a failed repair no broken connection is
given out (`sound_of_along`). One failed repair is enough for that: whenever the pool is at rest
afterwards, one thread can borrow connections until it gets the broken one (`exists_unsound`).
-/

namespace Pdk.Pool

open Foundation
open Pdk.Sync

/-! ## Checks and repairs -/

/-- The checks, the reset or the rebuild have given a usable connection. -/
def PgOutcome.heals {Ptr : Type*} (o : PgOutcome Ptr) : Bool :=
  o.valid || o.validAfterReset || o.reconnect.isSome

/-- The last check or repair that `release(conn)` makes succeeds. Only a connection that is found in
    `all_connections_` is rebuilt. -/
def PgConnectionPool.repairs {Ptr : Type*} [DecidableEq Ptr] (pool : PgConnectionPool Ptr) (conn : Ptr)
    (o : PgOutcome Ptr) : Bool :=
  o.valid || o.validAfterReset || (o.reconnect.isSome && decide (conn ∈ pool.allConnections))

theorem PgConnectionPool.availablePool_validate {Ptr : Type*} [DecidableEq Ptr]
    (pool : PgConnectionPool Ptr) (conn : Ptr) (o : PgOutcome Ptr) :
    (pool.validate conn o).1.availablePool = pool.availablePool := by
  unfold validate
  split
  · rfl
  split
  · rfl
  · rfl

/-- The connection that goes back is the old one or the new one. -/
theorem PgConnectionPool.validate_snd {Ptr : Type*} [DecidableEq Ptr] (pool : PgConnectionPool Ptr)
    (conn : Ptr) (o : PgOutcome Ptr) :
    (pool.validate conn o).2 = conn ∨ o.reconnect = some (pool.validate conn o).2 := by
  unfold validate
  split
  · exact .inl rfl
  split
  · exact .inl rfl
  · exact rebuild_snd conn o.reconnect pool.allConnections

/-- The thread has the connection in its hands, on the way out of `available_pool_` or into it. -/
def PgPc.Carries {Ptr γ : Type*} (p : Ptr) : PgPc Ptr γ → Prop
  | .popped _ _ conn => conn = p
  | .releasing _ (.pushes conn) => conn = p
  | _ => False

theorem PgPc.Carries.holds {Ptr γ : Type*} [DecidableEq Ptr] {p : Ptr} {pc : PgPc Ptr γ}
    (h : pc.Carries p) : pc.holds p = true := by
  match pc with
  | .popped _ _ conn => exact decide_eq_true h
  | .releasing _ (.pushes conn) => exact decide_eq_true h

/-! ## The lock of the pool -/

namespace PgSystem

variable {Ptr γ ι : Type*} [DecidableEq Ptr] [DecidableEq γ] [DecidableEq ι]

/-- `pool_lock_` is held between steps only inside `acquire` and `try_acquire`. -/
def Locked (s : PgSystem Ptr γ ι) : Prop :=
  ∀ i, s.poolLock = some i → ∃ op g conn, s.pc i = .popped op g conn

omit [DecidableEq Ptr] [DecidableEq γ] in
/-- A thread that does not hold the lock may go anywhere. -/
theorem Locked.goTo {s s' : PgSystem Ptr γ ι} (h : s.Locked) {i : ι} {pc : PgPc Ptr γ}
    (hi : ∀ op g conn, s.pc i ≠ .popped op g conn) (hlock : s'.poolLock = s.poolLock)
    (hpc : s'.pc = Function.update s.pc i pc) : s'.Locked := by
  intro j hj
  obtain ⟨op, g, conn, hpopped⟩ := h j (hlock ▸ hj)
  have hne : j ≠ i := by
    rintro rfl
    exact hi op g conn hpopped
  exact ⟨op, g, conn, by rw [hpc, Function.update_of_ne hne, hpopped]⟩

theorem locked_step {s s' : PgSystem Ptr γ ι} (h : s.Locked) (hstep : Stepped s s') : s'.Locked := by
  cases hstep with
  | fails i op hwait => exact h
  | stays => exact h
  | waits i op g sem hidle huser hguard hwait => exact h.goTo (by simp [hidle]) rfl rfl
  | pops i op g conn rest hpc hpool =>
    intro j hj
    cases hj
    exact ⟨op, g, conn, by simp [PgSystem.goTo]⟩
  | delivers i op g conn hpc =>
    intro j hj
    cases hj
  | transfers i dst src o hidle hne hdst hnull hsrc hguard => exact h
  | destroysNull i g guard hidle huser hguard hnull => exact h
  | handsOver i g guard conn hidle huser hguard hconn => exact h.goTo (by simp [hidle]) rfl rfl
  | handsOverFor i dst src guard o conn hidle hne huser hguard hsrc ho hconn =>
    exact h.goTo (by simp [hidle]) rfl rfl
  | validates i k conn o hpc hfresh => exact h.goTo (by simp [hpc]) rfl rfl
  | pushes i k conn hpc => exact h.goTo (by simp [hpc]) rfl rfl
  | signals i k hpc => exact h.goTo (by simp [hpc]) rfl rfl
  | clears i g hpc => exact h.goTo (by simp [hpc]) rfl rfl
  | assigns i dst src o hpc hguard => exact h.goTo (by simp [hpc]) rfl rfl

end PgSystem

/-! ## The pool with what it knows -/

structure PgHealth (Ptr : Type*) (γ : Type*) (ι : Type*) where
  sys : PgSystem Ptr γ ι
  -- the last check or repair of the connection at this address has failed
  broken : Ptr → Bool
  -- the connections that were given out, and whether they were broken
  given : List (Ptr × Bool)

namespace PgHealth

variable {Ptr γ ι : Type*} [DecidableEq Ptr] [DecidableEq γ] [DecidableEq ι]

def brokenAfter (h : PgHealth Ptr γ ι) (i : ι) (o : PgOutcome Ptr) : Ptr → Bool :=
  match h.sys.pc i with
  | .releasing _ (.validates conn) =>
    Function.update h.broken (h.sys.pool.validate conn o).2 (!h.sys.pool.repairs conn o)
  | _ => h.broken

omit [DecidableEq γ] [DecidableEq ι] in
theorem brokenAfter_validates {h : PgHealth Ptr γ ι} {i : ι} {k : PgThen γ} {conn : Ptr}
    (hpc : h.sys.pc i = .releasing k (.validates conn)) (o : PgOutcome Ptr) :
    h.brokenAfter i o =
      Function.update h.broken (h.sys.pool.validate conn o).2 (!h.sys.pool.repairs conn o) := by
  simp [brokenAfter, hpc]

omit [DecidableEq γ] [DecidableEq ι] in
theorem brokenAfter_of_not {h : PgHealth Ptr γ ι} {i : ι}
    (hpc : ∀ k conn, h.sys.pc i ≠ .releasing k (.validates conn)) (o : PgOutcome Ptr) :
    h.brokenAfter i o = h.broken := by
  unfold brokenAfter
  split
  · rename_i k conn heq
    exact absurd heq (hpc k conn)
  · rfl

def givenAfter (h : PgHealth Ptr γ ι) (i : ι) : List (Ptr × Bool) :=
  match h.sys.pc i with
  | .popped _ _ conn => h.given ++ [(conn, h.broken conn)]
  | _ => h.given

def step (h : PgHealth Ptr γ ι) (a : PgAct Ptr γ ι) : Option (PgHealth Ptr γ ι) :=
  (h.sys.step a).map fun sys =>
    match a with
    | .next i o => ⟨sys, h.brokenAfter i o, h.givenAfter i⟩
    | _ => ⟨sys, h.broken, h.given⟩

/-- A pool over connections that were just made. -/
def machine (conns : List Ptr) (γ ι : Type*) [DecidableEq γ] [DecidableEq ι] :
    Machine (PgHealth Ptr γ ι) (PgAct Ptr γ ι) :=
  ⟨⟨(PgSystem.machine conns γ ι).init, fun _ => false, []⟩, step⟩

/-- No connection was given out whose last check or repair had failed. -/
def Sound (h : PgHealth Ptr γ ι) : Prop :=
  ∀ d ∈ h.given, d.2 = false

/-- The step is not a failed repair. -/
def Heals (h : PgHealth Ptr γ ι) : PgAct Ptr γ ι → Prop
  | .next i o => ∀ k conn, h.sys.pc i = .releasing k (.validates conn) → o.heals = true
  | _ => True

/-! ## What a step can do -/

/-- What a step can do to the connections that are waiting or carried, and to what is known of
    them. -/
inductive Observed (h : PgHealth Ptr γ ι) : PgHealth Ptr γ ι → Prop where
  | quiet (sys : PgSystem Ptr γ ι) (hpool : sys.pool.availablePool = h.sys.pool.availablePool)
      (hpc : ∀ j p, (h.sys.pc j).Carries p → sys.pc j = h.sys.pc j) :
      Observed h ⟨sys, h.broken, h.given⟩
  | pops (i : ι) (op : PgOp) (g : γ) (conn : Ptr) (rest : List Ptr)
      (hpc : h.sys.pc i = .waited op g) (hpool : h.sys.pool.availablePool = conn :: rest) :
      Observed h ⟨{ h.sys with
        pool := { h.sys.pool with availablePool := rest }
        poolLock := some i }.goTo i (.popped op g conn), h.broken, h.given⟩
  | delivers (i : ι) (op : PgOp) (g : γ) (conn : Ptr) (hpc : h.sys.pc i = .popped op g conn) :
      Observed h ⟨h.sys.deliver i op g conn, h.broken, h.given ++ [(conn, h.broken conn)]⟩
  | validates (i : ι) (k : PgThen γ) (conn : Ptr) (o : PgOutcome Ptr)
      (hpc : h.sys.pc i = .releasing k (.validates conn))
      (hfresh : ∀ p ∈ o.reconnect, p ∉ h.sys.pool.allConnections) :
      Observed h ⟨{ h.sys with pool := (h.sys.pool.validate conn o).1 }.goTo i
        (.releasing k (.pushes (h.sys.pool.validate conn o).2)),
        Function.update h.broken (h.sys.pool.validate conn o).2 (!h.sys.pool.repairs conn o), h.given⟩
  | pushes (i : ι) (k : PgThen γ) (conn : Ptr) (hpc : h.sys.pc i = .releasing k (.pushes conn)) :
      Observed h ⟨{ h.sys with
        pool := { h.sys.pool with availablePool := h.sys.pool.availablePool ++ [conn] } }.goTo i
        (.releasing k .signals), h.broken, h.given⟩

omit [DecidableEq Ptr] [DecidableEq γ] in
/-- A thread that is not carrying anything may go anywhere. -/
theorem carries_goTo {s : PgSystem Ptr γ ι} {i : ι} (hi : ∀ p, ¬(s.pc i).Carries p) (pc : PgPc Ptr γ)
    {j : ι} {p : Ptr} (hj : (s.pc j).Carries p) : (s.goTo i pc).pc j = s.pc j := by
  have hne : j ≠ i := by
    rintro rfl
    exact hi p hj
  exact Function.update_of_ne hne _ _

omit [DecidableEq Ptr] in
/-- A call of an idle thread takes no connection out of `available_pool_` and puts none there. -/
theorem quiet_of_call {s s' : PgSystem Ptr γ ι} {i : ι} (hidle : s.pc i = .idle)
    (h : (∃ op g, s.callAcquire i op g = some s') ∨ (∃ dst src, s.callMoveConstruct dst src = some s') ∨
      (∃ dst src, s.callMoveAssign i dst src = some s') ∨ ∃ g, s.callDestroy i g = some s') :
    s'.pool.availablePool = s.pool.availablePool ∧
      ∀ j p, (s.pc j).Carries p → s'.pc j = s.pc j := by
  have hnone : ∀ p, ¬(s.pc i).Carries p := by
    intro p
    rw [hidle]
    exact id
  rcases h with ⟨op, g, h⟩ | ⟨dst, src, h⟩ | ⟨dst, src, h⟩ | ⟨g, h⟩
  · unfold PgSystem.callAcquire at h
    split at h
    · split at h
      · cases h
        exact ⟨rfl, fun _ _ _ => rfl⟩
      · cases h
        exact ⟨rfl, fun j p hj => carries_goTo hnone _ hj⟩
    · cases h
  · unfold PgSystem.callMoveConstruct at h
    split at h
    · split at h
      · cases h
        exact ⟨rfl, fun _ _ _ => rfl⟩
      · cases h
    · cases h
  · unfold PgSystem.callMoveAssign at h
    split at h
    · split at h
      · cases h
        exact ⟨rfl, fun _ _ _ => rfl⟩
      · split at h
        · cases h
          exact ⟨rfl, fun j p hj => carries_goTo hnone _ hj⟩
        · cases h
          exact ⟨rfl, fun _ _ _ => rfl⟩
    · cases h
  · unfold PgSystem.callDestroy at h
    split at h
    · split at h
      · cases h
        exact ⟨rfl, fun j p hj => carries_goTo hnone _ hj⟩
      · cases h
        exact ⟨rfl, fun _ _ _ => rfl⟩
    · cases h

/-- The steps inside a call. -/
theorem observed_of_proceed {h : PgHealth Ptr γ ι} {i : ι} {o : PgOutcome Ptr} {sys : PgSystem Ptr γ ι}
    (hstep : h.sys.proceed i o = some sys) :
    Observed h ⟨sys, h.brokenAfter i o, h.givenAfter i⟩ := by
  unfold PgSystem.proceed at hstep
  unfold brokenAfter givenAfter
  split at hstep
  · cases hstep
  · rename_i op g hpc
    rw [hpc]
    unfold PgSystem.popFront at hstep
    split at hstep
    · rename_i conn rest hlock hpool
      cases hstep
      exact .pops i op g conn rest hpc hpool
    · cases hstep
  · rename_i op g conn hpc
    rw [hpc]
    cases hstep
    exact .delivers i op g conn hpc
  · rename_i k conn hpc
    rw [hpc]
    unfold PgSystem.validateStep at hstep
    split at hstep
    · rename_i hfresh
      cases hstep
      exact .validates i k conn o hpc hfresh
    · cases hstep
  · rename_i k conn hpc
    rw [hpc]
    unfold PgSystem.pushBack at hstep
    split at hstep
    · cases hstep
      exact .pushes i k conn hpc
    · cases hstep
  · rename_i k hpc
    have hnone : ∀ p, ¬(h.sys.pc i).Carries p := fun p => by rw [hpc]; exact id
    rw [hpc]
    cases hstep
    exact .quiet _ rfl fun j p hj => carries_goTo hnone _ hj
  · rename_i k hpc
    have hnone : ∀ p, ¬(h.sys.pc i).Carries p := fun p => by rw [hpc]; exact id
    rw [hpc]
    unfold PgSystem.clear at hstep
    split at hstep
    · cases hstep
      exact .quiet _ rfl fun j p hj => carries_goTo hnone _ hj
    · split at hstep
      · cases hstep
        exact .quiet _ rfl fun j p hj => carries_goTo hnone _ hj
      · cases hstep

/-- **Case analysis of a step.** -/
theorem observed_of_step {h h' : PgHealth Ptr γ ι} {a : PgAct Ptr γ ι} (hstep : h.step a = some h') :
    Observed h h' ∧ h.sys.step a = some h'.sys := by
  unfold step at hstep
  rw [Option.map_eq_some_iff] at hstep
  obtain ⟨sys, hsys, rfl⟩ := hstep
  cases a with
  | next i o => exact ⟨observed_of_proceed hsys, hsys⟩
  | acquire i op g =>
    refine ⟨?_, hsys⟩
    simp only [PgSystem.step] at hsys
    split at hsys
    · obtain ⟨hpool, hpc⟩ := quiet_of_call (PgSystem.isIdle_iff.mp ‹_›) (.inl ⟨op, g, hsys⟩)
      exact .quiet sys hpool hpc
    · cases hsys
  | moveConstruct i dst src =>
    refine ⟨?_, hsys⟩
    simp only [PgSystem.step] at hsys
    split at hsys
    · obtain ⟨hpool, hpc⟩ := quiet_of_call (PgSystem.isIdle_iff.mp ‹_›) (.inr (.inl ⟨dst, src, hsys⟩))
      exact .quiet sys hpool hpc
    · cases hsys
  | moveAssign i dst src =>
    refine ⟨?_, hsys⟩
    simp only [PgSystem.step] at hsys
    split at hsys
    · obtain ⟨hpool, hpc⟩ :=
        quiet_of_call (PgSystem.isIdle_iff.mp ‹_›) (.inr (.inr (.inl ⟨dst, src, hsys⟩)))
      exact .quiet sys hpool hpc
    · cases hsys
  | destroy i g =>
    refine ⟨?_, hsys⟩
    simp only [PgSystem.step] at hsys
    split at hsys
    · obtain ⟨hpool, hpc⟩ := quiet_of_call (PgSystem.isIdle_iff.mp ‹_›) (.inr (.inr (.inr ⟨g, hsys⟩)))
      exact .quiet sys hpool hpc
    · cases hsys

/-! ## Where a broken connection is -/

/-- The connection waits in `available_pool_` or is carried. -/
def Located (h : PgHealth Ptr γ ι) (p : Ptr) : Prop :=
  p ∈ h.sys.pool.availablePool ∨ ∃ i, (h.sys.pc i).Carries p

/-- A broken connection that was not given out yet is on its way. -/
def Tracked (h : PgHealth Ptr γ ι) : Prop :=
  h.Sound → ∀ p, h.broken p = true → h.Located p

theorem tracked_step {h h' : PgHealth Ptr γ ι} (ht : h.Tracked) (hstep : Observed h h') :
    h'.Tracked := by
  cases hstep with
  | quiet sys hpool hpc =>
    intro hsound p hp
    rcases ht hsound p hp with hmem | ⟨j, hj⟩
    · exact .inl (hpool ▸ hmem)
    · exact .inr ⟨j, by rw [hpc j p hj]; exact hj⟩
  | pops i op g conn rest hpc hpool =>
    intro hsound p hp
    rcases ht hsound p hp with hmem | ⟨j, hj⟩
    · rw [hpool] at hmem
      rcases List.mem_cons.mp hmem with rfl | hmem
      · exact .inr ⟨i, by simp [PgSystem.goTo, PgPc.Carries]⟩
      · exact .inl hmem
    · refine .inr ⟨j, ?_⟩
      have hkeep := carries_goTo (s := h.sys) (i := i) (fun q => by rw [hpc]; exact id)
        (.popped op g conn) hj
      show ((h.sys.goTo i (.popped op g conn)).pc j).Carries p
      rw [hkeep]
      exact hj
  | delivers i op g conn hpc =>
    intro hsound p hp
    have hold : h.Sound := fun d hd => hsound d (List.mem_append_left _ hd)
    have hgood : h.broken conn = false := hsound (conn, h.broken conn) (by simp)
    have hne : conn ≠ p := by
      rintro rfl
      rw [hgood] at hp
      cases hp
    rcases ht hold p hp with hmem | ⟨j, hj⟩
    · exact .inl hmem
    · refine .inr ⟨j, ?_⟩
      have hji : j ≠ i := by
        rintro rfl
        rw [hpc] at hj
        exact hne hj
      show (Function.update h.sys.pc i .idle j).Carries p
      rw [Function.update_of_ne hji]
      exact hj
  | validates i k conn o hpc hfresh =>
    intro hsound p hp
    by_cases hr : p = (h.sys.pool.validate conn o).2
    · exact .inr ⟨i, by simp [PgSystem.goTo, PgPc.Carries, hr]⟩
    · simp only [Function.update_of_ne hr] at hp
      rcases ht hsound p hp with hmem | ⟨j, hj⟩
      · left
        show p ∈ (h.sys.pool.validate conn o).1.availablePool
        rw [PgConnectionPool.availablePool_validate]
        exact hmem
      · refine .inr ⟨j, ?_⟩
        have hkeep := carries_goTo (s := h.sys) (i := i) (fun q => by rw [hpc]; exact id)
          (.releasing k (.pushes (h.sys.pool.validate conn o).2)) hj
        show ((h.sys.goTo i (.releasing k (.pushes (h.sys.pool.validate conn o).2))).pc j).Carries p
        rw [hkeep]
        exact hj
  | pushes i k conn hpc =>
    intro hsound p hp
    rcases ht hsound p hp with hmem | ⟨j, hj⟩
    · exact .inl (List.mem_append_left _ hmem)
    · by_cases hji : j = i
      · subst hji
        rw [hpc] at hj
        cases hj
        exact .inl (by simp [PgSystem.goTo])
      · refine .inr ⟨j, ?_⟩
        show (Function.update h.sys.pc i (.releasing k .signals) j).Carries p
        rw [Function.update_of_ne hji]
        exact hj

/-! ## Failed repairs -/

/-- The pool knows a connection to be broken, or has already given one out. -/
def Spoiled (h : PgHealth Ptr γ ι) : Prop :=
  h.Sound → ∃ p, h.broken p = true

section Places

variable [Fintype γ] [Fintype ι]

/-- What holds in every state: the bookkeeping of the guards and of the connections, and where the
    broken ones are. -/
structure Consistent (n : ℕ) (h : PgHealth Ptr γ ι) : Prop where
  orderly : h.sys.Orderly
  custody : h.sys.Custody n
  locked : h.sys.Locked
  tracked : h.Tracked

omit [DecidableEq γ] in
/-- A connection that is being checked is nowhere else. -/
theorem not_located {n : ℕ} {h : PgHealth Ptr γ ι} (hcust : h.sys.Custody n) {i : ι} {k : PgThen γ}
    {conn : Ptr} (hpc : h.sys.pc i = .releasing k (.validates conn)) : ¬h.Located conn := by
  have hplaces := hcust.places conn
  have hone := List.nodup_iff_count_le_one.mp hcust.nodup conn
  have hself : (h.sys.pc i).holds conn = true := by simp [hpc, PgPc.holds]
  unfold PgSystem.places PgSystem.threadsHolding at hplaces
  rintro (hmem | ⟨j, hj⟩)
  · have hwaiting := List.count_pos_iff.mpr hmem
    have hheld : 0 < tally (PgPc.holds conn) h.sys.pc := tally_pos hself
    omega
  · have hne : j ≠ i := by
      rintro rfl
      rw [hpc] at hj
      exact hj
    have hother : (Function.update h.sys.pc i .idle j).holds conn = true := by
      rw [Function.update_of_ne hne]
      exact hj.holds
    have hremoved := tally_update (PgPc.holds conn) h.sys.pc i .idle
    have hleft : 0 < tally (PgPc.holds conn) (Function.update h.sys.pc i .idle) := tally_pos hother
    rw [hself] at hremoved
    simp only [PgPc.holds, Bool.toNat_true, Bool.toNat_false] at hremoved
    omega

omit [DecidableEq γ] [DecidableEq ι] in
theorem mem_of_located {n : ℕ} {h : PgHealth Ptr γ ι} (hcust : h.sys.Custody n) {p : Ptr}
    (hp : h.Located p) : p ∈ h.sys.pool.allConnections := by
  rcases hp with hmem | ⟨j, hj⟩
  · exact hcust.mem_of_available hmem
  · exact hcust.mem_of_thread hj.holds

/-- A repair that succeeds does not hide one that has failed: it is made on another connection. -/
theorem spoiled_step {n : ℕ} {h h' : PgHealth Ptr γ ι} (hcons : h.Consistent n) (hs : h.Spoiled)
    (hstep : Observed h h') : h'.Spoiled := by
  cases hstep with
  | quiet sys hpool hpc => exact hs
  | pops i op g conn rest hpc hpool => exact hs
  | delivers i op g conn hpc =>
    intro hsound
    exact hs fun d hd => hsound d (List.mem_append_left _ hd)
  | validates i k conn o hpc hfresh =>
    intro hsound
    obtain ⟨p, hp⟩ := hs hsound
    have hlocated := hcons.tracked hsound p hp
    refine ⟨p, ?_⟩
    have hne : p ≠ (h.sys.pool.validate conn o).2 := by
      rintro rfl
      rcases h.sys.pool.validate_snd conn o with hsame | hnew
      · rw [hsame] at hlocated
        exact not_located hcons.custody hpc hlocated
      · exact hfresh _ hnew (mem_of_located hcons.custody hlocated)
    rw [← hp]
    exact Function.update_of_ne hne _ _
  | pushes i k conn hpc => exact hs

omit [Fintype γ] [Fintype ι] in
theorem spoiled_of_not_heals {h h' : PgHealth Ptr γ ι} {a : PgAct Ptr γ ι} (hnot : ¬h.Heals a)
    (hstep : h.step a = some h') : h'.Spoiled := by
  cases a with
  | next i o =>
    simp only [Heals, not_forall] at hnot
    obtain ⟨k, conn, hpc, hfailed⟩ := hnot
    unfold step at hstep
    rw [Option.map_eq_some_iff] at hstep
    obtain ⟨sys, -, rfl⟩ := hstep
    intro _
    refine ⟨(h.sys.pool.validate conn o).2, ?_⟩
    simp only [PgOutcome.heals, Bool.or_eq_true, not_or, Bool.not_eq_true] at hfailed
    simp [brokenAfter, hpc, PgConnectionPool.repairs, hfailed]
  | acquire i op g => exact absurd trivial hnot
  | moveConstruct i dst src => exact absurd trivial hnot
  | moveAssign i dst src => exact absurd trivial hnot
  | destroy i g => exact absurd trivial hnot

theorem consistent_step {n : ℕ} (hint : n < 2 ^ 31) {h h' : PgHealth Ptr γ ι} {a : PgAct Ptr γ ι}
    (hcons : h.Consistent n) (hstep : h.step a = some h') : h'.Consistent n := by
  obtain ⟨hobserved, hsys⟩ := observed_of_step hstep
  have hmachine : (PgSystem.machine [] γ ι).step h.sys a = some h'.sys := hsys
  have hstepped := PgSystem.stepped_of_step hmachine
  exact ⟨PgSystem.orderly_step hcons.orderly hstepped,
    PgSystem.custody_step hint hcons.orderly hcons.custody hstepped,
    PgSystem.locked_step hcons.locked hstepped, tracked_step hcons.tracked hobserved⟩

theorem consistent_init {conns : List Ptr} (hdistinct : conns.Nodup) :
    (machine conns γ ι).init.Consistent conns.length :=
  ⟨PgSystem.orderly_init conns, PgSystem.custody_init hdistinct, nofun, fun _ _ hp => by cases hp⟩

/-- After a failed repair the pool is spoiled for good. -/
theorem spoiled_of_run {conns : List Ptr} {n : ℕ} (hint : n < 2 ^ 31) {h h' : PgHealth Ptr γ ι}
    {acts : List (PgAct Ptr γ ι)} (hcons : h.Consistent n)
    (hrun : (machine conns γ ι).run h acts = some h')
    (hbad : h.Spoiled ∨ ¬(machine conns γ ι).Along Heals h acts) : h'.Spoiled := by
  induction acts generalizing h with
  | nil =>
    cases hrun
    exact hbad.resolve_right (not_not.mpr trivial)
  | cons a acts ih =>
    obtain ⟨t, ht, hrest⟩ := Machine.run_cons_eq_some.mp hrun
    refine ih (consistent_step hint hcons ht) hrest ?_
    rcases hbad with hspoiled | hnot
    · exact .inl (spoiled_step hcons hspoiled (observed_of_step ht).1)
    · by_cases hheals : h.Heals a
      · right
        intro halong
        refine hnot ⟨hheals, fun u hu => ?_⟩
        rw [ht] at hu
        cases hu
        exact halong
      · exact .inl (spoiled_of_not_heals hheals ht)

/-- The pool knows of no broken connection. -/
theorem unbroken_step {n : ℕ} {h h' : PgHealth Ptr γ ι} {a : PgAct Ptr γ ι} (hcons : h.Consistent n)
    (hgood : ∀ p, h.broken p = false) (hsound : h.Sound) (hheals : h.Heals a)
    (hstep : h.step a = some h') : (∀ p, h'.broken p = false) ∧ h'.Sound := by
  unfold step at hstep
  rw [Option.map_eq_some_iff] at hstep
  obtain ⟨sys, hsys, rfl⟩ := hstep
  cases a with
  | next i o =>
    constructor
    · intro p
      show h.brokenAfter i o p = false
      by_cases hvalidates : ∃ k conn, h.sys.pc i = .releasing k (.validates conn)
      · obtain ⟨k, conn, hpc⟩ := hvalidates
        have howned : conn ∈ h.sys.pool.allConnections :=
          hcons.custody.mem_of_thread (i := i) (by simp [hpc, PgPc.holds])
        have hrepairs : h.sys.pool.repairs conn o = true := by
          have hhealed := hheals k conn hpc
          simpa [PgConnectionPool.repairs, PgOutcome.heals, howned] using hhealed
        rw [brokenAfter_validates hpc, hrepairs]
        by_cases hp : p = (h.sys.pool.validate conn o).2
        · rw [hp, Function.update_self]
          rfl
        · rw [Function.update_of_ne hp, hgood p]
      · rw [brokenAfter_of_not fun k conn hpc => hvalidates ⟨k, conn, hpc⟩]
        exact hgood p
    · show ∀ d ∈ h.givenAfter i, d.2 = false
      unfold givenAfter
      split
      · rename_i conn hpc
        intro d hd
        rcases List.mem_append.mp hd with hold | hnew
        · exact hsound d hold
        · rw [List.mem_singleton.mp hnew]
          exact hgood conn
      · exact hsound
  | acquire i op g => exact ⟨hgood, hsound⟩
  | moveConstruct i dst src => exact ⟨hgood, hsound⟩
  | moveAssign i dst src => exact ⟨hgood, hsound⟩
  | destroy i g => exact ⟨hgood, hsound⟩

/-- **Soundness**: as long as no repair fails, no broken connection is given out. -/
theorem sound_of_along {conns : List Ptr} (hdistinct : conns.Nodup) (hint : conns.length < 2 ^ 31)
    {acts : List (PgAct Ptr γ ι)} {h : PgHealth Ptr γ ι}
    (hrun : (machine conns γ ι).run (machine conns γ ι).init acts = some h)
    (hheals : (machine conns γ ι).Along Heals (machine conns γ ι).init acts) : h.Sound := by
  have hinv := Machine.run_preserves_along
    (P := fun h : PgHealth Ptr γ ι =>
      h.Consistent conns.length ∧ (∀ p, h.broken p = false) ∧ h.Sound)
    (fun t a t' ht hok hstep =>
      ⟨consistent_step hint ht.1 hstep, unbroken_step ht.1 ht.2.1 ht.2.2 hok hstep⟩)
    ⟨consistent_init hdistinct, fun _ => rfl, nofun⟩ hheals hrun
  exact hinv.2.2

end Places

/-! ## Borrowing until the broken connection comes -/

/-- A connection that libpq answers for. -/
def answers : PgOutcome Ptr :=
  ⟨true, true, none⟩

/-- A thread that can borrow a connection. -/
structure Ready (h : PgHealth Ptr γ ι) (i : ι) (g : γ) : Prop where
  idle : h.sys.pc i = .idle
  lock : h.sys.poolLock = none
  vacant : h.sys.slots g = PgSystem.vacant
  slots : h.sys.pool.availableSlots.count = h.sys.pool.availablePool.length
  size : h.sys.pool.availablePool.length < 2 ^ 31

/-- `try_acquire`. -/
def borrow (i : ι) (g : γ) : List (PgAct Ptr γ ι) :=
  [.acquire i .tryAcquire g, .next i answers, .next i answers]

/-- The end of a guard whose connection works. -/
def giveBack (i : ι) (g : γ) : List (PgAct Ptr γ ι) :=
  [.destroy i g, .next i answers, .next i answers, .next i answers, .next i answers]

theorem run_borrow (conns : List Ptr) {h : PgHealth Ptr γ ι} {i : ι} {g : γ} (hready : h.Ready i g)
    {q : Ptr} {rest : List Ptr} (hpool : h.sys.pool.availablePool = q :: rest) :
    ∃ h', (machine conns γ ι).run h (borrow i g) = some h' ∧
      h'.given = h.given ++ [(q, h.broken q)] ∧ h'.broken = h.broken ∧ h'.sys.pc i = .idle ∧
      h'.sys.poolLock = none ∧ h'.sys.slots g = PgSystem.atRest (PgGuard.new q) ∧
      h'.sys.pool.availablePool = rest ∧ h'.sys.pool.availableSlots.count = rest.length := by
  obtain ⟨hidle, hlock, hvacant, hslots, hsize⟩ := hready
  have hcount : h.sys.pool.availableSlots.count = rest.length + 1 := by rw [hslots, hpool]; rfl
  have hwait : h.sys.pool.availableSlots.wait = some ⟨rest.length⟩ := by
    simp [Semaphore.wait, hcount]
  let s₁ := ({ h.sys with pool := { h.sys.pool with availableSlots := ⟨rest.length⟩ } }.setSlot g
    ⟨none, some i, false⟩).goTo i (.waited .tryAcquire g)
  have hpc₁ : s₁.pc i = .waited .tryAcquire g := Function.update_self _ _ _
  let s₂ := { s₁ with pool := { s₁.pool with availablePool := rest }, poolLock := some i }.goTo i
    (.popped .tryAcquire g q)
  have hpc₂ : s₂.pc i = .popped .tryAcquire g q := Function.update_self _ _ _
  have hstep₁ : (machine conns γ ι).step h (.acquire i .tryAcquire g) = some ⟨s₁, h.broken, h.given⟩ := by
    simp [machine, step, PgSystem.step, PgSystem.isIdle, hidle, PgSystem.callAcquire,
      PgSystem.isVacant, hvacant, PgSystem.vacant, hwait, s₁]
  have hstep₂ : (machine conns γ ι).step ⟨s₁, h.broken, h.given⟩ (.next i answers) =
      some ⟨s₂, h.broken, h.given⟩ := by
    have hpop : s₁.popFront i .tryAcquire g = some s₂ := by
      simp [PgSystem.popFront, s₁, s₂, PgSystem.goTo, PgSystem.setSlot, hlock, hpool]
    simp [machine, step, PgSystem.step, PgSystem.proceed, hpc₁, hpop, brokenAfter, givenAfter]
  have hstep₃ : (machine conns γ ι).step ⟨s₂, h.broken, h.given⟩ (.next i answers) =
      some ⟨s₂.deliver i .tryAcquire g q, h.broken, h.given ++ [(q, h.broken q)]⟩ := by
    simp [machine, step, PgSystem.step, PgSystem.proceed, hpc₂, brokenAfter, givenAfter]
  refine ⟨⟨s₂.deliver i .tryAcquire g q, h.broken, h.given ++ [(q, h.broken q)]⟩, ?_, rfl, rfl, ?_, rfl,
    ?_, rfl, rfl⟩
  · rw [borrow, Machine.run_cons, hstep₁, Option.bind_some, Machine.run_cons, hstep₂, Option.bind_some,
      Machine.run_cons, hstep₃]
    rfl
  · exact Function.update_self _ _ _
  · exact Function.update_self _ _ _

theorem run_giveBack (conns : List Ptr) {h : PgHealth Ptr γ ι} {i : ι} {g : γ} {q : Ptr}
    (hidle : h.sys.pc i = .idle) (hlock : h.sys.poolLock = none)
    (hslot : h.sys.slots g = PgSystem.atRest (PgGuard.new q))
    (hslots : h.sys.pool.availableSlots.count = h.sys.pool.availablePool.length)
    (hsize : h.sys.pool.availablePool.length + 1 < 2 ^ 31) :
    ∃ h', (machine conns γ ι).run h (giveBack i g) = some h' ∧ h'.Ready i g ∧ h'.given = h.given ∧
      h'.broken = Function.update h.broken q false ∧
      h'.sys.pool.availablePool = h.sys.pool.availablePool ++ [q] := by
  let s₁ := h.sys.handOver i (.destroys g) (PgGuard.new q) q
  have hpc₁ : s₁.pc i = .releasing (.destroys g) (.validates q) := Function.update_self _ _ _
  let s₂ := { s₁ with pool := s₁.pool }.goTo i (.releasing (.destroys g) (.pushes q))
  have hpc₂ : s₂.pc i = .releasing (.destroys g) (.pushes q) := Function.update_self _ _ _
  let s₃ := { s₂ with
    pool := { s₂.pool with availablePool := s₂.pool.availablePool ++ [q] } }.goTo i
    (.releasing (.destroys g) .signals)
  have hpc₃ : s₃.pc i = .releasing (.destroys g) .signals := Function.update_self _ _ _
  let s₄ := s₃.signal i (.destroys g)
  have hpc₄ : s₄.pc i = .releasing (.destroys g) .clears := Function.update_self _ _ _
  let s₅ := (s₄.setSlot g PgSystem.vacant).goTo i .idle
  let broken := Function.update h.broken q false
  have hstep₁ : (machine conns γ ι).step h (.destroy i g) = some ⟨s₁, h.broken, h.given⟩ := by
    simp [machine, step, PgSystem.step, PgSystem.isIdle, hidle, PgSystem.callDestroy,
      PgSystem.guardAtRest, hslot, PgSystem.atRest, PgGuard.new, PgGuard.toRelease, s₁]
  have hstep₂ : (machine conns γ ι).step ⟨s₁, h.broken, h.given⟩ (.next i answers) =
      some ⟨s₂, broken, h.given⟩ := by
    simp [machine, step, PgSystem.step, PgSystem.proceed, hpc₁, PgSystem.validateStep, answers,
      PgConnectionPool.validate, PgConnectionPool.repairs, brokenAfter, givenAfter, s₂, broken]
  have hstep₃ : (machine conns γ ι).step ⟨s₂, broken, h.given⟩ (.next i answers) =
      some ⟨s₃, broken, h.given⟩ := by
    have hpush : s₂.pushBack i (.destroys g) q = some s₃ := by
      simp [PgSystem.pushBack, s₁, s₂, s₃, PgSystem.goTo, PgSystem.handOver, PgSystem.setSlot, hlock]
    simp [machine, step, PgSystem.step, PgSystem.proceed, hpc₂, hpush, brokenAfter, givenAfter]
  have hstep₄ : (machine conns γ ι).step ⟨s₃, broken, h.given⟩ (.next i answers) =
      some ⟨s₄, broken, h.given⟩ := by
    simp [machine, step, PgSystem.step, PgSystem.proceed, hpc₃, brokenAfter, givenAfter, s₄]
  have hstep₅ : (machine conns γ ι).step ⟨s₄, broken, h.given⟩ (.next i answers) =
      some ⟨s₅, broken, h.given⟩ := by
    simp [machine, step, PgSystem.step, PgSystem.proceed, hpc₄, PgSystem.clear, brokenAfter,
      givenAfter, s₅]
  have hsignal : s₅.pool.availableSlots.count = h.sys.pool.availablePool.length + 1 := by
    show h.sys.pool.availableSlots.signal.count = _
    rw [Semaphore.count_signal (by omega), hslots]
  refine ⟨⟨s₅, broken, h.given⟩, ?_, ⟨?_, hlock, ?_, ?_, ?_⟩, rfl, rfl, rfl⟩
  · rw [giveBack, Machine.run_cons, hstep₁, Option.bind_some, Machine.run_cons, hstep₂,
      Option.bind_some, Machine.run_cons, hstep₃, Option.bind_some, Machine.run_cons, hstep₄,
      Option.bind_some, Machine.run_cons, hstep₅]
    rfl
  · exact Function.update_self _ _ _
  · exact Function.update_self _ _ _
  · show s₅.pool.availableSlots.count = (h.sys.pool.availablePool ++ [q]).length
    rw [hsignal, List.length_append, List.length_singleton]
  · show (h.sys.pool.availablePool ++ [q]).length < 2 ^ 31
    rw [List.length_append, List.length_singleton]
    exact hsize

/-- Actions that are never a failed repair. -/
theorem along_heals (conns : List Ptr) {acts : List (PgAct Ptr γ ι)}
    (hheals : ∀ a ∈ acts, ∀ t : PgHealth Ptr γ ι, t.Heals a) (h : PgHealth Ptr γ ι) :
    (machine conns γ ι).Along Heals h acts :=
  Machine.along_mono (fun t _ ha => ha t) (Machine.along_of_forall hheals h)

/-- **One thread is enough.** It borrows and gives back the connections in front of the broken one,
    which is then given out; no repair fails meanwhile. -/
theorem exists_unsound (conns : List Ptr) {i : ι} {g : γ} {p : Ptr} {front back : List Ptr}
    {h : PgHealth Ptr γ ι} (hready : h.Ready i g) (hbroken : h.broken p = true)
    (hpool : h.sys.pool.availablePool = front ++ p :: back) :
    ∃ acts h', (∀ a ∈ acts, ∀ t : PgHealth Ptr γ ι, t.Heals a) ∧
      (machine conns γ ι).run h acts = some h' ∧ ¬h'.Sound := by
  have hheals : ∀ a ∈ borrow i g ++ giveBack i g, ∀ t : PgHealth Ptr γ ι, t.Heals a := by
    simp [borrow, giveBack, Heals, answers, PgOutcome.heals]
  induction front generalizing h back with
  | nil =>
    obtain ⟨h', hrun, hgiven, -⟩ := run_borrow conns hready hpool
    refine ⟨borrow i g, h', fun a ha => hheals a (List.mem_append_left _ ha), hrun, ?_⟩
    intro hsound
    have hfalse := hsound (p, h.broken p) (by rw [hgiven]; simp)
    rw [hbroken] at hfalse
    cases hfalse
  | cons q front ih =>
    obtain ⟨h₁, hrun₁, hgiven, hsame, hidle, hlock, hslot, hrest, hcount⟩ := run_borrow conns hready hpool
    by_cases hq : q = p
    · -- the broken connection is given out already
      subst hq
      refine ⟨borrow i g, h₁, fun a ha => hheals a (List.mem_append_left _ ha), hrun₁, ?_⟩
      intro hsound
      have hfalse := hsound (q, h.broken q) (by rw [hgiven]; simp)
      rw [hbroken] at hfalse
      cases hfalse
    · have hsize := hready.size
      rw [hpool, List.cons_append, List.length_cons] at hsize
      obtain ⟨h₂, hrun₂, hready₂, -, hafter, hpool₂⟩ := run_giveBack conns hidle hlock hslot
        (hcount.trans (congrArg List.length hrest.symm)) (by rw [hrest]; exact hsize)
      have hbroken₂ : h₂.broken p = true := by
        rw [hafter, Function.update_of_ne (Ne.symm hq), hsame, hbroken]
      have hpool₃ : h₂.sys.pool.availablePool = front ++ p :: (back ++ [q]) := by
        rw [hpool₂, hrest]
        exact List.append_assoc front (p :: back) [q]
      obtain ⟨acts, h', hall, hrun, hunsound⟩ := ih hready₂ hbroken₂ hpool₃
      refine ⟨borrow i g ++ giveBack i g ++ acts, h', ?_, ?_, hunsound⟩
      · intro a ha
        rcases List.mem_append.mp ha with hfirst | hlater
        · exact hheals a hfirst
        · exact hall a hlater
      · rw [Machine.run_append_eq_some]
        exact ⟨h₂, Machine.run_append_eq_some.mpr ⟨h₁, hrun₁, hrun₂⟩, hrun⟩

/-! ## Runs -/

section Runs

variable [Fintype γ] [Fintype ι]

omit [DecidableEq γ] [DecidableEq ι] in
/-- At rest, a broken connection that was not given out waits in `available_pool_`. -/
theorem mem_of_rest {n : ℕ} {h : PgHealth Ptr γ ι} (hcons : h.Consistent n)
    (hidle : ∀ j, h.sys.pc j = .idle) (hsound : h.Sound) {p : Ptr} (hp : h.broken p = true) :
    p ∈ h.sys.pool.availablePool := by
  rcases hcons.tracked hsound p hp with hmem | ⟨j, hj⟩
  · exact hmem
  · rw [hidle j] at hj
    cases hj

omit [DecidableEq γ] [DecidableEq ι] in
/-- At rest, any thread can borrow. -/
theorem ready_of_rest {n : ℕ} (hint : n < 2 ^ 31) {h : PgHealth Ptr γ ι} (hcons : h.Consistent n)
    (hidle : ∀ j, h.sys.pc j = .idle) (i : ι) {g : γ} (hvacant : h.sys.slots g = PgSystem.vacant) :
    h.Ready i g := by
  have htokens := hcons.custody.tokens
  have hwaited : h.sys.acquirersWaited = 0 := tally_eq_zero_iff.mpr fun j => by rw [hidle j]; rfl
  have hpushed : h.sys.releasersPushed = 0 := tally_eq_zero_iff.mpr fun j => by rw [hidle j]; rfl
  have hlock : h.sys.poolLock = none := by
    cases hheld : h.sys.poolLock with
    | none => rfl
    | some j =>
      obtain ⟨op, g, conn, hpc⟩ := hcons.locked j hheld
      rw [hidle j] at hpc
      cases hpc
  refine ⟨hidle i, hlock, hvacant, ?_, Nat.lt_of_le_of_lt hcons.custody.available_le hint⟩
  rw [hwaited, hpushed] at htokens
  exact htokens

/-- **Broken connections.** For every pool, every number of threads and guards, every interleaving
    and every answer of libpq: if no repair has failed, no connection was given out that the pool
    knew to be broken. If one has failed, and all calls have ended, any thread with room for a guard
    can get a broken connection without another repair failing. -/
theorem given_sound (conns : List Ptr) (hdistinct : conns.Nodup) (hint : conns.length < 2 ^ 31)
    (acts : List (PgAct Ptr γ ι)) (h : PgHealth Ptr γ ι)
    (hrun : (machine conns γ ι).run (machine conns γ ι).init acts = some h) :
    ((machine conns γ ι).Along Heals (machine conns γ ι).init acts → h.Sound) ∧
      (¬(machine conns γ ι).Along Heals (machine conns γ ι).init acts →
        ∀ g : γ, Nonempty ι → (∀ j, h.sys.pc j = .idle) → h.sys.slots g = PgSystem.vacant →
          ∃ more h', (machine conns γ ι).Along Heals h more ∧
            (machine conns γ ι).run h more = some h' ∧ ¬h'.Sound) := by
  refine ⟨sound_of_along hdistinct hint hrun, fun hfailed g ⟨i⟩ hidle hvacant => ?_⟩
  have hcons : h.Consistent conns.length :=
    Machine.run_invariant (consistent_init hdistinct)
      (fun _ _ _ ht hstep => consistent_step hint ht hstep) hrun
  by_cases hsound : h.Sound
  · obtain ⟨p, hp⟩ := spoiled_of_run hint (consistent_init hdistinct) hrun (.inr hfailed) hsound
    obtain ⟨front, back, hpool⟩ := List.append_of_mem (mem_of_rest hcons hidle hsound hp)
    obtain ⟨more, h', hheals, hmore, hunsound⟩ :=
      exists_unsound conns (ready_of_rest hint hcons hidle i hvacant) hp hpool
    refine ⟨more, h', ?_, hmore, hunsound⟩
    exact along_heals conns hheals h
  · exact ⟨[], h, trivial, rfl, hsound⟩

/-- A connection that was reset when it came back is given out again. -/
theorem given_sound_reset :
    ∃ h, (machine [10] (Fin 1) (Fin 1)).run (machine [10] (Fin 1) (Fin 1)).init
        [.acquire 0 .tryAcquire 0, .next 0 answers, .next 0 answers, .destroy 0 0,
          .next 0 ⟨false, true, none⟩, .next 0 answers, .next 0 answers, .next 0 answers,
          .acquire 0 .tryAcquire 0, .next 0 answers, .next 0 answers] = some h ∧ h.Sound := by
  obtain ⟨h, hrun, -⟩ := Machine.exists_of_run_any (machine [10] (Fin 1) (Fin 1))
    (machine [10] (Fin 1) (Fin 1)).init
    [.acquire 0 .tryAcquire 0, .next 0 answers, .next 0 answers, .destroy 0 0,
      .next 0 ⟨false, true, none⟩, .next 0 answers, .next 0 answers, .next 0 answers,
      .acquire 0 .tryAcquire 0, .next 0 answers, .next 0 answers] (fun _ => true) (by decide)
  refine ⟨h, hrun, (given_sound [10] (by decide) (by decide) _ h hrun).1 ?_⟩
  exact along_heals [10] (by simp [Heals, answers, PgOutcome.heals]) _

end Runs

/-- The only connection is broken, cannot be rebuilt, and is given out again. -/
theorem given_broken_counterexample :
    ¬∀ (conns acts) (h : PgHealth ℕ (Fin 1) (Fin 1)), conns.Nodup →
      (machine conns (Fin 1) (Fin 1)).run (machine conns (Fin 1) (Fin 1)).init acts = some h →
      h.Sound := by
  intro hall
  obtain ⟨h, hrun, hgiven⟩ := Machine.exists_of_run_any (machine [10] (Fin 1) (Fin 1))
    (machine [10] (Fin 1) (Fin 1)).init
    [.acquire 0 .tryAcquire 0, .next 0 answers, .next 0 answers, .destroy 0 0,
      .next 0 ⟨false, false, none⟩, .next 0 answers, .next 0 answers, .next 0 answers,
      .acquire 0 .tryAcquire 0, .next 0 answers, .next 0 answers]
    (fun h => decide ((10, true) ∈ h.given)) (by decide)
  have hfalse := hall [10] _ h (by decide) hrun (10, true) (of_decide_eq_true hgiven)
  cases hfalse

end PgHealth

end Pdk.Pool
