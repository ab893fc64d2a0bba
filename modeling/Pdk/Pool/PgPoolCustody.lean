import Mathlib.Data.List.Perm.Subperm
import Pdk.Foundation.Tally
import Pdk.Pool.PgPoolGuards

/-!
# Custody of the pooled connections

Every connection that the pool owns is in exactly one place: in `available_pool_`, in one guard, or
in the hands of one thread inside `acquire` or `release`. The places are counted for each address
separately, so that the statement survives a rebuild, which removes one address from the owned ones
and adds another, and also an allocator that reuses addresses.

A guard whose connection has been passed to `pool_->release` is not a place any more: the thread
inside `release` is.
-/

namespace Pdk.Pool

open Foundation
open Pdk.Sync

/-! ## Rebuilding -/

namespace PgConnectionPool

variable {Ptr : Type*} [DecidableEq Ptr]

theorem length_rebuild (conn : Ptr) (r : Option Ptr) (l : List Ptr) :
    (rebuild conn r l).1.length = l.length := by
  induction l with
  | nil => rfl
  | cons owned rest ih =>
    unfold rebuild
    split
    · cases r <;> rfl
    · simp [ih]

/-- The rebuild trades the address of the old connection for that of the new one. -/
theorem count_rebuild {conn : Ptr} {l : List Ptr} (r : Option Ptr) (hmem : conn ∈ l) (q : Ptr) :
    (rebuild conn r l).1.count q + (decide (conn = q)).toNat =
      l.count q + (decide ((rebuild conn r l).2 = q)).toNat := by
  induction l with
  | nil => cases hmem
  | cons owned rest ih =>
    unfold rebuild
    split
    · rename_i heq
      subst heq
      cases r with
      | none => rfl
      | some p =>
        simp only [List.count_cons, beq_iff_eq]
        split <;> split <;> simp_all
    · rename_i hne
      have hrest : conn ∈ rest := by
        rcases List.mem_cons.mp hmem with heq | hrest
        · exact absurd heq.symm hne
        · exact hrest
      have hcount := ih hrest
      simp only [List.count_cons]
      omega

/-- The connection that goes back is the old one or the new one. -/
theorem rebuild_snd (conn : Ptr) (r : Option Ptr) (l : List Ptr) :
    (rebuild conn r l).2 = conn ∨ r = some (rebuild conn r l).2 := by
  induction l with
  | nil => exact .inl rfl
  | cons owned rest ih =>
    unfold rebuild
    split
    · rename_i heq
      subst heq
      cases r with
      | none => exact .inl rfl
      | some p => exact .inr rfl
    · exact ih

/-- What the first part of `release` does, for a connection that the pool owns. -/
structure Validated (pool pool' : PgConnectionPool Ptr) (conn conn' : Ptr) : Prop where
  available : pool'.availablePool = pool.availablePool
  slots : pool'.availableSlots = pool.availableSlots
  length : pool'.allConnections.length = pool.allConnections.length
  nodup : pool'.allConnections.Nodup
  count : ∀ q, pool'.allConnections.count q + (decide (conn = q)).toNat =
    pool.allConnections.count q + (decide (conn' = q)).toNat

/-- **Specification of the validation**, for every outcome of libpq. -/
theorem validate_spec {pool : PgConnectionPool Ptr} {conn : Ptr} {o : PgOutcome Ptr}
    (hnodup : pool.allConnections.Nodup) (hmem : conn ∈ pool.allConnections)
    (hfresh : ∀ p ∈ o.reconnect, p ∉ pool.allConnections) :
    Validated pool (pool.validate conn o).1 conn (pool.validate conn o).2 := by
  unfold validate
  split
  · exact ⟨rfl, rfl, rfl, hnodup, fun _ => rfl⟩
  split
  · exact ⟨rfl, rfl, rfl, hnodup, fun _ => rfl⟩
  have hcount := count_rebuild o.reconnect hmem
  refine ⟨rfl, rfl, length_rebuild conn o.reconnect _, ?_, hcount⟩
  rw [List.nodup_iff_count_le_one] at hnodup ⊢
  intro q
  have hq := hcount q
  have hle := hnodup q
  rcases rebuild_snd conn o.reconnect pool.allConnections with hsame | hnew
  · rw [hsame] at hq
    simp only
    omega
  · -- the new address was not among the owned ones
    have hzero := List.count_eq_zero.mpr (hfresh _ hnew)
    by_cases hqp : (rebuild conn o.reconnect pool.allConnections).2 = q
    · rw [hqp] at hzero
      simp only [hqp, decide_true, Bool.toNat_true, hzero] at hq
      simp only
      omega
    · simp only [hqp, decide_false, Bool.toNat_false] at hq
      simp only
      omega

end PgConnectionPool

/-! ## The places of a connection -/

section Places

variable {Ptr γ ι : Type*} [DecidableEq Ptr]

/-- The guard holds the connection `p`: it points to it and has not handed it over. -/
def GuardSlot.holds (p : Ptr) (slot : GuardSlot Ptr ι) : Bool :=
  !slot.handed && decide (slot.guard.bind PgGuard.conn = some p)

/-- The thread holds the connection `p`, inside `acquire` or `release`. -/
def PgPc.holds (p : Ptr) : PgPc Ptr γ → Bool
  | .popped _ _ conn => decide (conn = p)
  | .releasing _ (.validates conn) => decide (conn = p)
  | .releasing _ (.pushes conn) => decide (conn = p)
  | _ => false

/-- Between the wait and the pop. -/
def PgPc.isWaited : PgPc Ptr γ → Bool
  | .waited _ _ => true
  | _ => false

/-- Between the push and the signal. -/
def PgPc.isPushed : PgPc Ptr γ → Bool
  | .releasing _ .signals => true
  | _ => false

theorem GuardSlot.holds_of_guard_none {slot : GuardSlot Ptr ι} (h : slot.guard = none) (p : Ptr) :
    slot.holds p = false := by
  simp [holds, h]

theorem GuardSlot.holds_of_handed {slot : GuardSlot Ptr ι} (h : slot.handed = true) (p : Ptr) :
    slot.holds p = false := by
  simp [holds, h]

theorem GuardSlot.holds_of_conn {slot : GuardSlot Ptr ι} {guard : PgGuard Ptr} {conn : Ptr}
    (hhanded : slot.handed = false) (hguard : slot.guard = some guard)
    (hconn : guard.conn = some conn) (p : Ptr) : slot.holds p = decide (conn = p) := by
  unfold holds
  by_cases hp : conn = p <;> simp [hhanded, hguard, hconn, hp]

omit [DecidableEq Ptr] in
theorem PgGuard.conn_of_toRelease {guard : PgGuard Ptr} (h : guard.conn.isSome = guard.pool) :
    guard.toRelease = guard.conn := by
  unfold toRelease
  cases hconn : guard.conn <;> simp_all

end Places

namespace PgSystem

variable {Ptr γ ι : Type*} [DecidableEq Ptr] [Fintype γ] [Fintype ι]

/-- The number of guards that hold `p`. -/
def guardsHolding (s : PgSystem Ptr γ ι) (p : Ptr) : ℕ :=
  tally (GuardSlot.holds p) s.slots

/-- The number of threads that hold `p`. -/
def threadsHolding (s : PgSystem Ptr γ ι) (p : Ptr) : ℕ :=
  tally (PgPc.holds p) s.pc

/-- The places of `p`. -/
def places (s : PgSystem Ptr γ ι) (p : Ptr) : ℕ :=
  s.pool.availablePool.count p + s.guardsHolding p + s.threadsHolding p

/-- Acquirers between the wait and the pop. -/
def acquirersWaited (s : PgSystem Ptr γ ι) : ℕ :=
  tally PgPc.isWaited s.pc

/-- Releasers between the push and the signal. -/
def releasersPushed (s : PgSystem Ptr γ ι) : ℕ :=
  tally PgPc.isPushed s.pc

/-- **Custody**: every owned connection has exactly one place and nothing else has any, and the
    slots of the semaphore are the connections in `available_pool_`. -/
structure Custody (n : ℕ) (s : PgSystem Ptr γ ι) : Prop where
  nodup : s.pool.allConnections.Nodup
  size : s.pool.allConnections.length = n
  places : ∀ p, s.places p = s.pool.allConnections.count p
  tokens : s.pool.availableSlots.count + s.acquirersWaited + s.releasersPushed =
    s.pool.availablePool.length

namespace Custody

variable {n : ℕ} {s s' : PgSystem Ptr γ ι}

/-- A connection with a place is owned. -/
theorem mem_of_places (h : s.Custody n) {p : Ptr} (hpos : 0 < s.places p) :
    p ∈ s.pool.allConnections := by
  rw [h.places p] at hpos
  exact List.count_pos_iff.mp hpos

theorem mem_of_available (h : s.Custody n) {p : Ptr} (hp : p ∈ s.pool.availablePool) :
    p ∈ s.pool.allConnections := by
  apply h.mem_of_places
  have hpos := List.count_pos_iff.mpr hp
  unfold PgSystem.places
  omega

theorem mem_of_guard (h : s.Custody n) {p : Ptr} {g : γ} (hg : (s.slots g).holds p = true) :
    p ∈ s.pool.allConnections := by
  apply h.mem_of_places
  have hpos : 0 < s.guardsHolding p := tally_pos hg
  unfold PgSystem.places
  omega

theorem mem_of_thread (h : s.Custody n) {p : Ptr} {i : ι} (hi : (s.pc i).holds p = true) :
    p ∈ s.pool.allConnections := by
  apply h.mem_of_places
  have hpos : 0 < s.threadsHolding p := tally_pos hi
  unfold PgSystem.places
  omega

/-- There are never more available connections than owned ones. -/
theorem available_le (h : s.Custody n) : s.pool.availablePool.length ≤ n := by
  rw [← h.size]
  apply List.Subperm.length_le
  rw [List.subperm_ext_iff]
  intro p _
  rw [← h.places p]
  unfold PgSystem.places
  omega

/-- **Local conservation**: a step of one thread keeps the custody if what it takes from the pool,
    the guards and its own hands is what it puts there. -/
theorem of_local [DecidableEq ι] (h : s.Custody n) (i : ι) (pc : PgPc Ptr γ)
    (hpc : s'.pc = Function.update s.pc i pc)
    (hall : s'.pool.allConnections = s.pool.allConnections)
    (hplaces : ∀ p, s'.pool.availablePool.count p + s'.guardsHolding p + (pc.holds p).toNat =
      s.pool.availablePool.count p + s.guardsHolding p + ((s.pc i).holds p).toNat)
    (htokens : s'.pool.availableSlots.count + pc.isWaited.toNat + pc.isPushed.toNat +
        s.pool.availablePool.length =
      s.pool.availableSlots.count + (s.pc i).isWaited.toNat + (s.pc i).isPushed.toNat +
        s'.pool.availablePool.length) : s'.Custody n := by
  constructor
  · rw [hall]
    exact h.nodup
  · rw [hall]
    exact h.size
  · intro p
    have hold := h.places p
    have hlocal := hplaces p
    have hcount := tally_update (PgPc.holds p) s.pc i pc
    unfold PgSystem.places threadsHolding at hold ⊢
    rw [hpc, hall]
    omega
  · have hold := h.tokens
    have h₁ := tally_update PgPc.isWaited s.pc i pc
    have h₂ := tally_update PgPc.isPushed s.pc i pc
    unfold acquirersWaited releasersPushed at hold ⊢
    rw [hpc]
    omega

/-- The validation step: the thread holds the new address in the place of the old one. -/
theorem validated [DecidableEq ι] (h : s.Custody n) {i : ι} {k : PgThen γ} {conn conn' : Ptr}
    (hpc : s.pc i = .releasing k (.validates conn))
    (hpc' : s'.pc = Function.update s.pc i (.releasing k (.pushes conn')))
    (hslots : s'.slots = s.slots)
    (hvalid : PgConnectionPool.Validated s.pool s'.pool conn conn') : s'.Custody n := by
  constructor
  · exact hvalid.nodup
  · rw [hvalid.length, h.size]
  · intro p
    have hold := h.places p
    have hcount := hvalid.count p
    have hmoved := tally_update (PgPc.holds p) s.pc i (.releasing k (.pushes conn'))
    simp only [hpc, PgPc.holds] at hmoved
    unfold PgSystem.places threadsHolding guardsHolding at hold ⊢
    rw [hpc', hslots, hvalid.available]
    omega
  · have hold := h.tokens
    have h₁ := tally_update PgPc.isWaited s.pc i (.releasing k (.pushes conn'))
    have h₂ := tally_update PgPc.isPushed s.pc i (.releasing k (.pushes conn'))
    simp only [hpc, PgPc.isWaited, PgPc.isPushed] at h₁ h₂
    unfold acquirersWaited releasersPushed at hold ⊢
    rw [hpc', hvalid.available, hvalid.slots]
    omega

end Custody

variable [DecidableEq γ]

omit [Fintype ι] in
/-- What a change of one guard does to the count. -/
theorem guardsHolding_setSlot (s : PgSystem Ptr γ ι) (g : γ) (slot : GuardSlot Ptr ι) (p : Ptr) :
    (s.setSlot g slot).guardsHolding p + ((s.slots g).holds p).toNat =
      s.guardsHolding p + (slot.holds p).toNat :=
  tally_update (GuardSlot.holds p) s.slots g slot

omit [Fintype ι] in
/-- Moving a guard moves its connection, if the target held none. -/
theorem guardsHolding_transfer {s : PgSystem Ptr γ ι} {dst src : γ} {o : PgGuard Ptr}
    (hne : dst ≠ src) (hdst : ∀ p, (s.slots dst).holds p = false)
    (hsrc : (s.slots src).handed = false) (ho : (s.slots src).guard = some o) (p : Ptr) :
    (s.transfer dst src o).guardsHolding p = s.guardsHolding p := by
  have hfirst := guardsHolding_setSlot s src (atRest o.move.2) p
  have hsecond := guardsHolding_setSlot (s.setSlot src (atRest o.move.2)) dst (atRest o.move.1) p
  have hsame : (s.setSlot src (atRest o.move.2)).slots dst = s.slots dst :=
    Function.update_of_ne hne _ _
  have hleft : (atRest o.move.2 : GuardSlot Ptr ι).holds p = false := by
    simp [GuardSlot.holds, atRest, PgGuard.move, PgGuard.null]
  have hnew : (atRest o.move.1 : GuardSlot Ptr ι).holds p = (s.slots src).holds p := by
    unfold GuardSlot.holds
    rw [hsrc, ho]
    rfl
  rw [hsame, hdst p, hnew] at hsecond
  rw [hleft] at hfirst
  unfold transfer
  simp only [Bool.toNat_false] at hfirst hsecond
  omega

namespace Orderly

omit [Fintype γ] [Fintype ι] [DecidableEq γ] in
/-- A guard at rest holds what it would release. -/
theorem holds_atRest {s : PgSystem Ptr γ ι} (h : s.Orderly) {g : γ} {guard : PgGuard Ptr}
    {conn : Ptr} (huser : (s.slots g).user = none) (hguard : (s.slots g).guard = some guard)
    (hconn : guard.toRelease = some conn) (p : Ptr) :
    (s.slots g).holds p = decide (conn = p) := by
  apply GuardSlot.holds_of_conn (h.not_handed huser) hguard
  rw [← PgGuard.conn_of_toRelease (h.paired g guard hguard), hconn]

omit [Fintype γ] [Fintype ι] [DecidableEq γ] in
/-- A place with nothing to release holds nothing. -/
theorem holds_null {s : PgSystem Ptr γ ι} (h : s.Orderly) {g : γ}
    (hnull : ∀ guard, (s.slots g).guard = some guard → guard.toRelease = none) (p : Ptr) :
    (s.slots g).holds p = false := by
  cases hguard : (s.slots g).guard with
  | none => exact GuardSlot.holds_of_guard_none hguard p
  | some guard =>
    have hconn := PgGuard.conn_of_toRelease (h.paired g guard hguard)
    rw [hnull guard hguard] at hconn
    simp [GuardSlot.holds, hguard, ← hconn]

omit [Fintype ι] in
/-- The source of a move assignment keeps its connection, the target has handed over its own. -/
theorem guardsHolding_handOverFor {s : PgSystem Ptr γ ι} (h : s.Orderly) {dst src : γ}
    {guard o : PgGuard Ptr} {conn : Ptr} (i : ι) (hne : dst ≠ src)
    (huser : (s.slots dst).user = none) (hguard : (s.slots dst).guard = some guard)
    (hsrc : (s.slots src).user = none) (ho : (s.slots src).guard = some o)
    (hconn : guard.toRelease = some conn) (p : Ptr) :
    ((s.setSlot src ⟨some o, some i, false⟩).setSlot dst ⟨some guard, some i, true⟩).guardsHolding p +
      (decide (conn = p)).toNat = s.guardsHolding p := by
  have hfirst := guardsHolding_setSlot s src ⟨some o, some i, false⟩ p
  have hsecond := guardsHolding_setSlot (s.setSlot src ⟨some o, some i, false⟩) dst
    ⟨some guard, some i, true⟩ p
  have hkept : GuardSlot.holds p (⟨some o, some i, false⟩ : GuardSlot Ptr ι) =
      (s.slots src).holds p := by
    unfold GuardSlot.holds
    rw [h.not_handed hsrc, ho]
  have hsame : (s.setSlot src ⟨some o, some i, false⟩).slots dst = s.slots dst :=
    Function.update_of_ne hne _ _
  rw [hkept] at hfirst
  rw [hsame, h.holds_atRest huser hguard hconn, GuardSlot.holds_of_handed rfl] at hsecond
  simp only [Bool.toNat_false] at hsecond
  omega

end Orderly

variable [DecidableEq ι]

/-- **Step lemma**: every step keeps the custody. -/
theorem custody_step {n : ℕ} {s s' : PgSystem Ptr γ ι} (hint : n < 2 ^ 31) (hord : s.Orderly)
    (h : s.Custody n) (hstep : Stepped s s') : s'.Custody n := by
  cases hstep with
  | fails i op hwait => exact ⟨h.nodup, h.size, h.places, h.tokens⟩
  | stays => exact h
  | waits i op g sem hidle huser hguard hwait =>
    have hcount := Semaphore.count_of_wait hwait
    apply h.of_local i (.waited op g) rfl
    · rfl
    · intro p
      have hslot := guardsHolding_setSlot s g ⟨none, some i, false⟩ p
      rw [GuardSlot.holds_of_guard_none hguard, GuardSlot.holds_of_guard_none rfl] at hslot
      simpa [goTo, guardsHolding, setSlot, hidle, PgPc.holds] using hslot
    · simp [goTo, setSlot, PgPc.isWaited, PgPc.isPushed, hidle, hcount]
  | pops i op g conn rest hpc hpool =>
    apply h.of_local i (.popped op g conn) rfl
    · rfl
    · intro p
      by_cases hp : conn = p
      · simp [guardsHolding, goTo, hpc, hpool, PgPc.holds, hp]
        omega
      · simp [guardsHolding, goTo, hpc, hpool, PgPc.holds, hp]
    · simp [goTo, PgPc.isWaited, PgPc.isPushed, hpc, hpool]
      omega
  | delivers i op g conn hpc =>
    have howns := hord.owns i
    rw [hpc] at howns
    simp only [PgPc.Owns] at howns
    apply h.of_local i .idle rfl
    · rfl
    · intro p
      have hslot := guardsHolding_setSlot s g (atRest (PgGuard.new conn)) p
      have hconn : (PgGuard.new conn).conn = some conn := rfl
      rw [GuardSlot.holds_of_guard_none (by rw [howns]),
        GuardSlot.holds_of_conn rfl rfl hconn] at hslot
      simp only [goTo, guardsHolding, setSlot, hpc, PgPc.holds, Bool.toNat_false] at hslot ⊢
      omega
    · simp [goTo, setSlot, PgPc.isWaited, PgPc.isPushed, hpc]
  | transfers i dst src o hidle hne hdst hnull hsrc hguard =>
    apply h.of_local i .idle
    · rw [← hidle, Function.update_eq_self]
      rfl
    · rfl
    · intro p
      rw [guardsHolding_transfer hne (hord.holds_null hnull) (hord.not_handed hsrc) hguard p, hidle]
      rfl
    · rw [hidle]
      rfl
  | destroysNull i g guard hidle huser hguard hnull =>
    apply h.of_local i .idle
    · rw [← hidle, Function.update_eq_self]
      rfl
    · rfl
    · intro p
      have hslot := guardsHolding_setSlot s g vacant p
      have hnothing : ∀ guard', (s.slots g).guard = some guard' → guard'.toRelease = none := by
        intro guard' hguard'
        rw [hguard] at hguard'
        cases hguard'
        exact hnull
      rw [hord.holds_null hnothing, GuardSlot.holds_of_guard_none rfl] at hslot
      simpa [setSlot, hidle, PgPc.holds] using hslot
    · rw [hidle]
      rfl
  | handsOver i g guard conn hidle huser hguard hconn =>
    apply h.of_local i (.releasing (.destroys g) (.validates conn)) rfl
    · rfl
    · intro p
      have hslot := guardsHolding_setSlot s g ⟨some guard, some i, true⟩ p
      rw [hord.holds_atRest huser hguard hconn, GuardSlot.holds_of_handed rfl] at hslot
      simp only [handOver, goTo, guardsHolding, setSlot, PgThen.target, hidle, PgPc.holds,
        Bool.toNat_false] at hslot ⊢
      omega
    · simp [handOver, goTo, setSlot, PgPc.isWaited, PgPc.isPushed, hidle]
  | handsOverFor i dst src guard o conn hidle hne huser hguard hsrc ho hconn =>
    apply h.of_local i (.releasing (.assigns dst src) (.validates conn)) rfl
    · rfl
    · intro p
      have hslots := hord.guardsHolding_handOverFor i hne huser hguard hsrc ho hconn p
      simp only [handOver, goTo, guardsHolding, setSlot, PgThen.target, hidle, PgPc.holds,
        Bool.toNat_false] at hslots ⊢
      omega
    · simp [handOver, goTo, setSlot, PgPc.isWaited, PgPc.isPushed, hidle]
  | validates i k conn o hpc hfresh =>
    have hmem : conn ∈ s.pool.allConnections :=
      h.mem_of_thread (i := i) (by simp [hpc, PgPc.holds])
    exact h.validated hpc rfl rfl (PgConnectionPool.validate_spec h.nodup hmem hfresh)
  | pushes i k conn hpc =>
    apply h.of_local i (.releasing k .signals) rfl
    · rfl
    · intro p
      by_cases hp : conn = p
      · simp [guardsHolding, goTo, hpc, PgPc.holds, hp]
        omega
      · simp [guardsHolding, goTo, hpc, PgPc.holds, hp]
    · simp [goTo, PgPc.isWaited, PgPc.isPushed, hpc]
      omega
  | signals i k hpc =>
    have hle := h.available_le
    have htokens := h.tokens
    have hcount : s.pool.availableSlots.signal.count = s.pool.availableSlots.count + 1 := by
      apply Semaphore.count_signal
      omega
    apply h.of_local i (.releasing k .clears) rfl
    · rfl
    · intro p
      rw [hpc]
      rfl
    · simp [signal, goTo, PgPc.isWaited, PgPc.isPushed, hpc, hcount]
  | clears i g hpc =>
    have howns := hord.owns i
    rw [hpc] at howns
    obtain ⟨guard, hguard⟩ := howns
    apply h.of_local i .idle rfl
    · rfl
    · intro p
      have hslot := guardsHolding_setSlot s g vacant p
      rw [GuardSlot.holds_of_handed (by rw [hguard]), GuardSlot.holds_of_guard_none rfl] at hslot
      simpa [goTo, guardsHolding, setSlot, hpc, PgPc.holds] using hslot
    · rw [hpc]
      rfl
  | assigns i dst src o hpc ho =>
    have howns := hord.owns i
    rw [hpc] at howns
    obtain ⟨hne, ⟨guard, hguard⟩, o', ho'⟩ := howns
    apply h.of_local i .idle rfl
    · rfl
    · intro p
      have hmoved := guardsHolding_transfer hne
        (GuardSlot.holds_of_handed (by rw [hguard])) (by rw [ho']) ho p
      simp only [goTo, guardsHolding, hpc, PgPc.holds] at hmoved ⊢
      rw [hmoved]
      rfl
    · rw [hpc]
      rfl

/-! ## Every run -/

omit [Fintype γ] [Fintype ι] in
theorem orderly_init (conns : List Ptr) : (machine conns γ ι).init.Orderly := by
  constructor
  · exact fun i => trivial
  · rintro g ⟨⟩
  · rintro g guard ⟨⟩

theorem custody_init {conns : List Ptr} (hdistinct : conns.Nodup) :
    (machine conns γ ι).init.Custody conns.length := by
  constructor
  · exact hdistinct
  · rfl
  · intro p
    have hguards : (machine conns γ ι).init.guardsHolding p = 0 :=
      tally_eq_zero_iff.mpr fun g => GuardSlot.holds_of_guard_none rfl p
    have hthreads : (machine conns γ ι).init.threadsHolding p = 0 :=
      tally_eq_zero_iff.mpr fun i => rfl
    unfold places
    rw [hguards, hthreads]
    rfl
  · have hwaited : (machine conns γ ι).init.acquirersWaited = 0 :=
      tally_eq_zero_iff.mpr fun i => rfl
    have hpushed : (machine conns γ ι).init.releasersPushed = 0 :=
      tally_eq_zero_iff.mpr fun i => rfl
    rw [hwaited, hpushed]
    rfl

theorem custody_of_run {conns : List Ptr} (hdistinct : conns.Nodup)
    (hint : conns.length < 2 ^ 31) {acts : List (PgAct Ptr γ ι)} {s : PgSystem Ptr γ ι}
    (hrun : (machine conns γ ι).run (machine conns γ ι).init acts = some s) :
    s.Orderly ∧ s.Custody conns.length := by
  apply Machine.run_invariant (P := fun s => s.Orderly ∧ s.Custody conns.length) _ _ hrun
  · exact ⟨orderly_init conns, custody_init hdistinct⟩
  · rintro s a s' ⟨hord, hcust⟩ hstep
    have hstepped := stepped_of_step hstep
    exact ⟨orderly_step hord hstepped, custody_step hint hord hcust hstepped⟩

omit [Fintype γ] [Fintype ι] in
/-- A timed-out `acquire` and a failed `try_acquire` change nothing. -/
theorem failed_unchanged {s s' : PgSystem Ptr γ ι} (hstep : Stepped s s')
    (hfailed : s'.failed ≠ s.failed) :
    s'.pool = s.pool ∧ s'.slots = s.slots ∧ s'.pc = s.pc := by
  cases hstep with
  | fails i op hwait => exact ⟨rfl, rfl, rfl⟩
  | _ => exact absurd rfl hfailed

/-- **The pool neither loses, duplicates nor leaks a connection.** For distinct connections, any
    number of threads and guards, every interleaving of the atomic steps and every outcome of
    libpq:

    - every element of `all_connections_` has exactly one place: once in `available_pool_`, or held
      by one guard, or by one thread inside `acquire` or `release`;
    - the pointers in `available_pool_`, in the guards and in the hands of the threads are owned by
      `all_connections_`; a guard counts as handed over exactly while a thread is inside its
      `release`, which clears it;
    - the slots of the semaphore, with the acquirers between wait and pop and the releasers between
      push and signal, are the connections in `available_pool_`, so that `front()` is not called on
      an empty list;
    - a call that fails leaves the pool and the guards unchanged. -/
theorem pgPool_custody (conns : List Ptr) (hdistinct : conns.Nodup)
    (hint : conns.length < 2 ^ 31) (acts : List (PgAct Ptr γ ι)) (s : PgSystem Ptr γ ι)
    (hrun : (machine conns γ ι).run (machine conns γ ι).init acts = some s) :
    (s.pool.allConnections.Nodup ∧ s.pool.allConnections.length = conns.length ∧
        ∀ p ∈ s.pool.allConnections,
          s.pool.availablePool.count p + s.guardsHolding p + s.threadsHolding p = 1) ∧
      ((∀ p ∈ s.pool.availablePool, p ∈ s.pool.allConnections) ∧
        (∀ g guard p, (s.slots g).guard = some guard → guard.conn = some p →
          (s.slots g).handed = false → p ∈ s.pool.allConnections) ∧
        (∀ g, (s.slots g).handed = true ↔ ∃ i, (s.pc i).Releases g) ∧
        ∀ i p, (s.pc i).holds p = true → p ∈ s.pool.allConnections) ∧
      (s.pool.availableSlots.count + s.acquirersWaited + s.releasersPushed =
          s.pool.availablePool.length ∧
        ∀ i op g, s.pc i = .waited op g → s.pool.availablePool ≠ []) ∧
      ∀ a s', (machine conns γ ι).step s a = some s' → s'.failed ≠ s.failed →
        s'.pool = s.pool ∧ s'.slots = s.slots ∧ s'.pc = s.pc := by
  obtain ⟨hord, hcust⟩ := custody_of_run hdistinct hint hrun
  refine ⟨⟨hcust.nodup, hcust.size, ?_⟩, ⟨?_, ?_, hord.handed_iff, ?_⟩, ⟨hcust.tokens, ?_⟩, ?_⟩
  · intro p hp
    have hplaces := hcust.places p
    rwa [List.count_eq_one_of_mem hcust.nodup hp] at hplaces
  · exact fun p hp => hcust.mem_of_available hp
  · intro g guard p hguard hconn hhanded
    apply hcust.mem_of_guard (g := g)
    simp [GuardSlot.holds_of_conn hhanded hguard hconn]
  · exact fun i p hp => hcust.mem_of_thread hp
  · intro i op g hpc hempty
    have htokens := hcust.tokens
    have hpos : 0 < s.acquirersWaited := tally_pos (i := i) (by rw [hpc]; rfl)
    rw [hempty, List.length_nil] at htokens
    omega
  · exact fun a s' hstep hfailed => failed_unchanged (stepped_of_step hstep) hfailed

/-- A broken connection is rebuilt under a new address, which the releasing thread then holds,
    while the other connection is in a guard. -/
theorem pgPool_custody_rebuilt :
    ∃ s, (machine [10, 11] (Fin 2) (Fin 2)).run (machine [10, 11] (Fin 2) (Fin 2)).init
        [.acquire 0 (.acquire 100) 0, .next 0 ⟨true, true, none⟩, .next 0 ⟨true, true, none⟩,
          .acquire 1 .tryAcquire 1, .next 1 ⟨true, true, none⟩, .next 1 ⟨true, true, none⟩,
          .destroy 0 0, .next 0 ⟨false, false, some 12⟩] = some s ∧
      s.pool.allConnections = [12, 11] ∧ s.threadsHolding 12 = 1 ∧ s.guardsHolding 11 = 1 ∧
      s.places 10 = 0 ∧
      ∀ p ∈ s.pool.allConnections,
        s.pool.availablePool.count p + s.guardsHolding p + s.threadsHolding p = 1 := by
  obtain ⟨s, hrun, hlast⟩ := Machine.exists_of_run_any (machine [10, 11] (Fin 2) (Fin 2))
    (machine [10, 11] (Fin 2) (Fin 2)).init
    [.acquire 0 (.acquire 100) 0, .next 0 ⟨true, true, none⟩, .next 0 ⟨true, true, none⟩,
      .acquire 1 .tryAcquire 1, .next 1 ⟨true, true, none⟩, .next 1 ⟨true, true, none⟩,
      .destroy 0 0, .next 0 ⟨false, false, some 12⟩]
    (fun s => decide (s.pool.allConnections = [12, 11]) && decide (s.threadsHolding 12 = 1) &&
      decide (s.guardsHolding 11 = 1) && decide (s.places 10 = 0)) (by decide)
  simp only [Bool.and_eq_true, decide_eq_true_eq] at hlast
  obtain ⟨⟨⟨hall, hthread⟩, hguard⟩, hgone⟩ := hlast
  exact ⟨s, hrun, hall, hthread, hguard, hgone,
    (pgPool_custody [10, 11] (by decide) (by decide) _ s hrun).1.2.2⟩

end PgSystem

end Pdk.Pool
