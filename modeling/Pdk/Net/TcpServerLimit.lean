import Pdk.Net.TcpServerCalls

/-!
# The connection limit of `TcpServer`

`TcpServer::thread_proc` (`src/tcpserver.cpp`) compares the number of channels with `limit_` under
`lock_`, and adds the channel of the client in a later critical section. Between the two, other
threads may remove channels and `set_limit` may be called.

The client is rejected when the two numbers are equal. As only the accept thread adds channels, the
number cannot get past the limit on its own, but `set_limit` may put the limit below it; then no
client is rejected (`limit_enforced_iff`).
-/

namespace Pdk.Net

open Foundation

/-! ## The acceptor and the steps of the other threads -/

/-- A client has been let in, and its channel is not in `channels_` yet. -/
def AcceptorPc.underWay : AcceptorPc → Bool
  | .connecting => true
  | .inserting _ => true
  | _ => false

namespace CallSystem

variable {α : Type*} {s s' : CallSystem α} {a : CallAct α} {t : ServerThread α}

theorem within_acceptor {c : ℕ} (h : s'.acceptor = s.acceptor) :
    (s.within c s').acceptor = s.acceptor := by
  rcases within_eq s c s' with ⟨-, heq⟩ | heq
  · rw [heq, h]
  · rw [heq]

variable [DecidableEq α]

theorem closePost_acceptor (s : CallSystem α) (t : ServerThread α) (c : ℕ) (destroys : Bool)
    (rest : List Frame) : (s.closePost t c destroys rest).acceptor = s.acceptor := by
  unfold closePost
  split
  · rfl
  · split <;> rfl

theorem acceptor_of_closeStep {c : ℕ} {destroys : Bool} {rest : List Frame} {pc : ClosePc}
    (h : s.closeStep t c destroys rest pc = some s') : s'.acceptor = s.acceptor := by
  unfold closeStep at h
  split at h
  · cases h
    exact within_acceptor rfl
  · cases h
    exact within_acceptor (closePost_acceptor s t c destroys rest)
  · cases h
    rfl
  · split_ifs at h <;> cases h <;> rfl
  · cases h
    exact within_acceptor rfl
  · cases h

theorem acceptor_of_frameStep {frame : Frame} {rest : List Frame}
    (h : s.frameStep t rest frame = some s') : s'.acceptor = s.acceptor := by
  unfold frameStep at h
  split at h
  · rw [map_acquire_eq_some h]
    unfold closeChannel
    split <;> rfl
  · cases h
    rfl
  · rw [map_acquire_eq_some h]
    rfl
  · cases h
    rfl
  · rw [map_acquire_eq_some h]
    rfl
  · cases h
    rfl
  · split_ifs at h <;> cases h <;> rfl
  · split_ifs at h
    cases h
    rfl
  · rw [map_acquire_eq_some h]
    rfl
  · split at h <;> cases h <;> rfl
  · exact acceptor_of_closeStep h

theorem acceptor_of_callStep {op : ServerCall} (h : s.callStep t op = some s') :
    s'.acceptor = s.acceptor := by
  unfold callStep at h
  split at h
  · split_ifs at h
    cases h
    refine within_acceptor ?_
    split <;> rfl
  · split_ifs at h
    cases h
    rfl
  · split_ifs at h
    cases h
    rfl
  · split at h
    · split_ifs at h
      cases h
      rfl
    · cases h

omit [DecidableEq α] in
theorem acceptor_of_channelStep {c : ℕ} {act : WorkerAct} (h : s.channelStep c act = some s') :
    s'.acceptor = s.acceptor := by
  unfold channelStep at h
  split at h
  · cases h
  · split at h
    · cases h
    · cases h
      exact within_acceptor rfl
    · obtain ⟨pc, -, rfl⟩ := Option.map_eq_some_iff.mp h
      exact within_acceptor rfl

/-- The steps of the accept loop by what they do to a client. -/
theorem acceptStep_cases {act : AcceptAct} (h : s.acceptStep act = some s') :
    (s.acceptor = .limiting ∧ act = .next ∧
      s'.acceptor = if (s.channels.length : ℤ) = s.limit then .looping else .connecting) ∨
    (∃ c, s.acceptor = .inserting c ∧ act = .next ∧ s'.acceptor = .looping) ∨
    (s.acceptor ≠ .limiting ∧ (∀ c, s.acceptor ≠ .inserting c) ∧
      s'.acceptor.underWay = s.acceptor.underWay) := by
  unfold acceptStep at h
  split at h
  · cases h
  · split at h
    · rename_i hpc
      cases h
      rw [hpc]
      refine .inr (.inr ⟨nofun, nofun, ?_⟩)
      split <;> rfl
    · rename_i hpc
      rw [hpc]
      refine .inr (.inr ⟨nofun, nofun, ?_⟩)
      split at h
      · cases h
        rfl
      · cases h
        show (if _ then _ else _ : AcceptorPc).underWay = _
        split <;> rfl
    · rename_i hpc
      cases h
      rw [hpc]
      exact .inr (.inr ⟨nofun, nofun, rfl⟩)
    · rename_i hpc
      cases h
      rw [hpc]
      exact .inr (.inr ⟨nofun, nofun, rfl⟩)
    · rename_i hpc
      cases h
      rw [hpc]
      exact .inr (.inr ⟨nofun, nofun, rfl⟩)
    · rename_i hpc
      split at h
      · cases h
      · cases h
        exact .inl ⟨hpc, rfl, rfl⟩
    · rename_i hpc
      cases h
      rw [hpc]
      exact .inr (.inr ⟨nofun, nofun, rfl⟩)
    · rename_i c hpc
      split at h
      · cases h
      · cases h
        exact .inr (.inl ⟨c, hpc, rfl, rfl⟩)
    · cases h

/-- Only the accept loop moves the acceptor. -/
theorem acceptor_of_step (h : s.step a = some s') :
    (∃ act, a = .accept act ∧ s.acceptStep act = some s') ∨
      ((∀ act, a ≠ .accept act) ∧ s'.acceptor = s.acceptor) := by
  unfold step at h
  split at h
  · cases h
  · split at h
    · exact .inl ⟨_, rfl, h⟩
    · exact .inr ⟨nofun, acceptor_of_channelStep h⟩
    · exact .inr ⟨nofun, acceptor_of_callStep h⟩
    · split at h
      · cases h
      · exact .inr ⟨nofun, acceptor_of_frameStep h⟩
    · split at h
      · cases h
      · cases h
        exact .inr ⟨nofun, rfl⟩

end CallSystem

/-! ## The limit checks of a run -/

/-- The server, with a record of what its limit checks have compared. -/
structure LimitSystem (α : Type*) where
  server : CallSystem α
  -- `channels_.size()` and `limit_` at the last limit check
  checked : Option (ℕ × ℤ)
  -- the limit check of each channel that was added to `channels_`
  added : List (Option (ℕ × ℤ))

/-- The number of channels was strictly below the limit. -/
def below : Option (ℕ × ℤ) → Bool
  | some (nCount, limit) => decide ((nCount : ℤ) < limit)
  | none => false

namespace LimitSystem

variable {α : Type*}

/-- A limit check is recorded, and the record is put down when the channel is added. -/
def record (s : LimitSystem α) (a : CallAct α) (server : CallSystem α) : LimitSystem α :=
  match a, s.server.acceptor with
  | .accept .next, .limiting =>
    { s with server, checked := some (s.server.channels.length, s.server.limit) }
  | .accept .next, .inserting _ => { s with server, added := s.added ++ [s.checked] }
  | _, _ => { s with server }

def initial (α : Type*) (useEvent onAfterReceive : Bool) : LimitSystem α :=
  ⟨.initial α useEvent onAfterReceive, none, []⟩

/-- Every channel was added after a limit check that found fewer channels than the limit. -/
def Enforced (s : LimitSystem α) : Prop :=
  ∀ check ∈ s.added, below check = true

/-- A limit check does not find more channels than the limit. -/
def Within (s : LimitSystem α) (a : CallAct α) : Prop :=
  a = .accept .next → s.server.acceptor = .limiting →
    (s.server.channels.length : ℤ) ≤ s.server.limit

instance (s : LimitSystem α) : Decidable s.Enforced :=
  inferInstanceAs (Decidable (∀ check ∈ s.added, below check = true))

/-- The same holds for the client that is under way. -/
structure LetIn (s : LimitSystem α) : Prop where
  enforced : s.Enforced
  client : s.server.acceptor.underWay = true → below s.checked = true

variable [DecidableEq α]

instance (s : LimitSystem α) (a : CallAct α) : Decidable (s.Within a) :=
  inferInstanceAs (Decidable (a = .accept .next → s.server.acceptor = .limiting →
    (s.server.channels.length : ℤ) ≤ s.server.limit))

def step (s : LimitSystem α) (a : CallAct α) : Option (LimitSystem α) :=
  (s.server.step a).map (s.record a)

def machine (α : Type*) [DecidableEq α] (useEvent onAfterReceive : Bool) :
    Machine (LimitSystem α) (CallAct α) :=
  ⟨initial α useEvent onAfterReceive, step⟩

/-! ## What a step can do -/

/-- What a step does to the acceptor and to the record. -/
inductive Stepped (s : LimitSystem α) : CallAct α → LimitSystem α → Prop where
  | rejects (server : CallSystem α) (hpc : s.server.acceptor = .limiting)
      (hfull : (s.server.channels.length : ℤ) = s.server.limit)
      (hpc' : server.acceptor = .looping) :
      Stepped s (.accept .next)
        { s with server, checked := some (s.server.channels.length, s.server.limit) }
  | letsIn (server : CallSystem α) (hpc : s.server.acceptor = .limiting)
      (hfull : (s.server.channels.length : ℤ) ≠ s.server.limit)
      (hpc' : server.acceptor = .connecting) :
      Stepped s (.accept .next)
        { s with server, checked := some (s.server.channels.length, s.server.limit) }
  | adds (server : CallSystem α) (c : ℕ) (hpc : s.server.acceptor = .inserting c)
      (hpc' : server.acceptor = .looping) :
      Stepped s (.accept .next) { s with server, added := s.added ++ [s.checked] }
  -- `create`, the rest of the accept loop, and the other threads
  | keeps (a : CallAct α) (server : CallSystem α)
      (hpc : a = .accept .next → s.server.acceptor ≠ .limiting)
      (hunderWay : server.acceptor.underWay = s.server.acceptor.underWay) :
      Stepped s a { s with server }

variable {s s' : LimitSystem α} {a : CallAct α}

/-- **Case analysis of a step.** -/
theorem stepped_of_step (h : s.step a = some s') : Stepped s a s' := by
  obtain ⟨server, hserver, rfl⟩ := Option.map_eq_some_iff.mp h
  rcases CallSystem.acceptor_of_step hserver with ⟨act, rfl, haccept⟩ | ⟨hother, hpc⟩
  · rcases CallSystem.acceptStep_cases haccept with
      ⟨hpc, rfl, hpc'⟩ | ⟨c, hpc, rfl, hpc'⟩ | ⟨hlimiting, hinserting, hpc⟩
    · simp only [record, hpc]
      split at hpc'
      · rename_i hfull
        exact .rejects server hpc hfull hpc'
      · rename_i hfull
        exact .letsIn server hpc hfull hpc'
    · simp only [record, hpc]
      exact .adds server c hpc hpc'
    · have hrecord : s.record (.accept act) server = { s with server } := by
        unfold record
        split
        · exact absurd ‹_› hlimiting
        · exact absurd ‹_› (hinserting _)
        · rfl
      rw [hrecord]
      exact .keeps _ server (fun _ => hlimiting) hpc
  · have hrecord : s.record a server = { s with server } := by
      unfold record
      split
      · exact absurd rfl (hother _)
      · exact absurd rfl (hother _)
      · rfl
    rw [hrecord]
    exact .keeps a server (fun ha => absurd ha (hother _)) (by rw [hpc])

/-! ## The limit is enforced -/

omit [DecidableEq α] in
theorem letIn_initial (useEvent onAfterReceive : Bool) :
    (initial α useEvent onAfterReceive).LetIn :=
  ⟨nofun, nofun⟩

/-- **Step lemma**: a limit check that finds more channels than the limit lets the client in, and
    what was let in stays under way until it is added. -/
theorem letIn_step_iff (hstep : s.step a = some s') : s'.LetIn ↔ s.LetIn ∧ s.Within a := by
  cases stepped_of_step hstep with
  | rejects server hpc hfull hpc' =>
    constructor
    · intro h
      refine ⟨⟨h.enforced, fun hway => ?_⟩, fun _ _ => Int.le_of_eq hfull⟩
      rw [hpc] at hway
      cases hway
    · intro ⟨h, _⟩
      refine ⟨h.enforced, fun hway => ?_⟩
      rw [hpc'] at hway
      cases hway
  | letsIn server hpc hfull hpc' =>
    constructor
    · intro h
      have hbelow := of_decide_eq_true (h.client (by rw [hpc']; rfl))
      refine ⟨⟨h.enforced, fun hway => ?_⟩, fun _ _ => Int.le_of_lt hbelow⟩
      rw [hpc] at hway
      cases hway
    · intro ⟨h, hok⟩
      have hle := hok rfl hpc
      exact ⟨h.enforced, fun _ => decide_eq_true (by omega)⟩
  | adds server c hpc hpc' =>
    constructor
    · intro h
      refine ⟨⟨fun check hcheck => h.enforced check (List.mem_append_left _ hcheck), fun _ => ?_⟩,
        fun _ hlimiting => ?_⟩
      · exact h.enforced s.checked (List.mem_append_right _ List.mem_cons_self)
      · rw [hpc] at hlimiting
        cases hlimiting
    · intro ⟨h, _⟩
      refine ⟨fun check hcheck => ?_, fun hway => ?_⟩
      · rcases List.mem_append.mp hcheck with hold | hnew
        · exact h.enforced check hold
        · rw [List.mem_singleton.mp hnew]
          exact h.client (by rw [hpc]; rfl)
      · rw [hpc'] at hway
        cases hway
  | keeps _ server hpc hway =>
    constructor
    · intro h
      exact ⟨⟨h.enforced, fun hold => h.client (by rw [hway]; exact hold)⟩,
        fun ha hlimiting => absurd hlimiting (hpc ha)⟩
    · intro ⟨h, _⟩
      exact ⟨h.enforced, fun hnew => h.client (by rw [← hway]; exact hnew)⟩

/-- **The limit is enforced as long as no limit check finds more channels than the limit; a client
    that it finds them for gets its channel.** -/
theorem limit_enforced_iff {acts : List (CallAct α)} {useEvent onAfterReceive : Bool}
    (hrun : (machine α useEvent onAfterReceive).run (initial α useEvent onAfterReceive) acts =
      some s) :
    ((machine α useEvent onAfterReceive).Along Within (initial α useEvent onAfterReceive) acts →
      (machine α useEvent onAfterReceive).Throughout Enforced (initial α useEvent onAfterReceive)
        acts) ∧
    (s.server.acceptor.underWay = false →
      (machine α useEvent onAfterReceive).Throughout Enforced (initial α useEvent onAfterReceive)
        acts →
      (machine α useEvent onAfterReceive).Along Within (initial α useEvent onAfterReceive) acts) := by
  obtain ⟨henough, hneeded⟩ := Machine.throughout_and_along (I := fun _ => True) (Q := LetIn)
    (P := Enforced) (fun _ h => h.enforced) (fun _ _ _ _ _ => trivial)
    (fun _ _ _ _ hstep => letIn_step_iff hstep) trivial (letIn_initial useEvent onAfterReceive) hrun
  refine ⟨henough, fun hidle => hneeded fun henforced => ⟨henforced, fun hway => ?_⟩⟩
  rw [hidle] at hway
  cases hway

/-- A client connects, and its channel is added. -/
def clientRun : List (CallAct ℕ) :=
  [.accept .next, .accept (.select 1), .next .accept, .next .accept, .accept (.accept (some true)),
    .accept .next, .accept .next, .accept .next]

/-- A second client is rejected, and is let in once the limit is raised. -/
theorem limit_enforced_raised :
    let acts : List (CallAct ℕ) := clientRun ++
      [.accept .next, .accept (.select 1), .next .accept, .next .accept, .next .accept,
        .accept (.accept (some true)), .accept .next, .setLimit 2,
        .accept .next, .accept (.select 1), .next .accept, .next .accept, .next .accept,
        .accept (.accept (some true)), .accept .next, .accept .next, .accept .next]
    ∃ s, (machine ℕ false false).run (initial ℕ false false) acts = some s ∧
      s.added = [some (0, 1), some (1, 2)] ∧
      (machine ℕ false false).Throughout Enforced (initial ℕ false false) acts := by
  intro acts
  exact ⟨_, rfl, by decide, (limit_enforced_iff rfl).1 (by decide)⟩

/-- The limit is lowered to 0 with one channel, and another client gets its channel. -/
theorem limit_enforced_counterexample :
    let acts : List (CallAct ℕ) := clientRun ++
      [.setLimit 0, .accept .next, .accept (.select 1), .next .accept, .next .accept, .next .accept,
        .accept (.accept (some true)), .accept .next, .accept .next, .accept .next]
    ∃ s, (machine ℕ false false).run (initial ℕ false false) acts = some s ∧
      s.server.channels = [0, 1] ∧ s.server.limit = 0 ∧
      ¬(machine ℕ false false).Throughout Enforced (initial ℕ false false) acts := by
  intro acts
  refine ⟨_, rfl, by decide, by decide, ?_⟩
  intro h
  exact absurd (h acts [] _ (List.append_nil acts).symm rfl) (by decide)

end LimitSystem

end Pdk.Net
