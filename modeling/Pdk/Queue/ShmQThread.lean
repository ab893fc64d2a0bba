import Pdk.Queue.ShmQueueLength

/-!
# Starting a `ShmQThread` on a queue that was left behind

The segment of a `ShmQueue` outlives the processes that use it. A process that dies in `put` behind the
lock, or in `get` with a token in its hand, leaves a message for which there is no token of
`sem_get_`, and the next consumer may wait for ever beside it. `ShmQThread::start` therefore creates
a congestion thread if the queue is not empty, which calls `put_event` until that returns `false`.

Model of `ShmQThread::start` and `CongestThread::thread_proc` of `include/sharedmemory.hpp`, over the
calls of all other threads and processes, and from any state of the segment and of the calls under
way. Every event gives back one token that is missing, and nothing else does; when `start` has found
the queue empty, or its congestion thread has ended, none is missing any more. A slot for which the
token of `sem_put_` was lost is not given back (`start_recovers`).
-/

namespace Pdk.Queue

open Foundation

/-! ## Tokens that are missing -/

/-- `put` has reserved a slot and will still post `sem_get_`. -/
def ShmPc.owesPost (pc : ShmPc) : Bool :=
  pc.number.isSome

namespace ShmSystem

variable {ι : Type*} [Fintype ι]

/-- The tokens of `sem_get_`: those in the semaphore, those that calls of `put` are going to post, and
    those that consumers have taken and brought to the lock. -/
def tokens (s : ShmSystem ι) : ℕ :=
  s.q.semGet + tally ShmPc.owesPost s.pc + tally ShmPc.isTaking s.pc

/-- The messages for which there is no token. -/
def stranded (s : ShmSystem ι) : ℕ :=
  (s.q.curQueueLen - s.tokens).toNat

/-- The slots that are free, in use, or in the hand of a call. -/
def capacity (s : ShmSystem ι) : ℤ :=
  s.q.semPut + tally ShmPc.isReserving s.pc + tally ShmPc.isReleasing s.pc + s.q.curQueueLen

omit [Fintype ι] in
/-- The last part of `put_event`. -/
def postEvent (s : ShmSystem ι) : ShmSystem ι :=
  { s with q := { s.q with semGet := s.q.semGet + 1 } }

theorem stranded_postEvent (s : ShmSystem ι) : s.postEvent.stranded = s.stranded - 1 := by
  have htokens : s.postEvent.tokens = s.tokens + 1 := by
    simp only [tokens, postEvent]
    omega
  rw [stranded, stranded, htokens]
  simp only [postEvent]
  omega

theorem stranded_le_one {s : ShmSystem ι} (h : ¬1 < s.q.curQueueLen) : s.stranded ≤ 1 := by
  rw [stranded]
  omega

theorem stranded_eq_zero {s : ShmSystem ι} (h : s.q.curQueueLen = 0) : s.stranded = 0 := by
  rw [stranded]
  omega

variable [DecidableEq ι] {s s' : ShmSystem ι} {i : ι}

/-- What the step of one call does to the number of tokens. -/
theorem tokens_of_update {pc : ShmPc} (hpc : s'.pc = Function.update s.pc i pc) :
    s'.tokens + s.q.semGet + (s.pc i).owesPost.toNat + (s.pc i).isTaking.toNat =
      s.tokens + s'.q.semGet + pc.owesPost.toNat + pc.isTaking.toNat := by
  have howes := tally_update ShmPc.owesPost s.pc i pc
  have htaking := tally_update ShmPc.isTaking s.pc i pc
  simp only [tokens]
  rw [hpc]
  omega

/-- Messages and tokens change by the same number. -/
theorem stranded_of_update {pc : ShmPc} (hpc : s'.pc = Function.update s.pc i pc)
    (hbalance : s'.q.curQueueLen + s.q.semGet + (s.pc i).owesPost.toNat + (s.pc i).isTaking.toNat =
      s.q.curQueueLen + s'.q.semGet + pc.owesPost.toNat + pc.isTaking.toNat) :
    s'.stranded = s.stranded := by
  have htokens := tokens_of_update hpc
  rw [stranded, stranded]
  omega

/-- No step of `put`, `get` or `try_get` gives a message a token that it had not, or takes one away
    that is needed. -/
theorem stranded_step {a : ShmAct ι} (hstep : Stepped s a s') : s'.stranded = s.stranded := by
  cases hstep with
  | refused i op result hpc => exact stranded_of_update rfl (by rw [hpc]; rfl)
  | acquirePut i object nLen hpc htoken => exact stranded_of_update rfl (by rw [hpc]; rfl)
  | acquireGet _ i isGet hpc htoken =>
    have hmove : (s.acquireGet i isGet).pc = Function.update s.pc i (.taking isGet) := rfl
    refine stranded_of_update hmove ?_
    have htaken : (s.acquireGet i isGet).q.semGet + 1 = s.q.semGet :=
      Nat.sub_add_cancel htoken
    have hlen : (s.acquireGet i isGet).q.curQueueLen = s.q.curQueueLen := rfl
    rcases hpc with hpc | hpc <;>
    · rw [hpc, hlen]
      simp [ShmPc.owesPost, ShmPc.number, ShmPc.isTaking]
      omega
  | reserve i object nLen hpc =>
    refine stranded_of_update rfl ?_
    rw [hpc]
    simp [ShmSystem.reserve, ShmSystem.move, ShmQueue.reserve, ShmPc.owesPost, ShmPc.number,
      ShmPc.isTaking]
    omega
  | copy i k slot object nLen hpc => exact stranded_of_update rfl (by rw [hpc]; rfl)
  | post i k hpc =>
    refine stranded_of_update rfl ?_
    rw [hpc]
    simp [ShmSystem.post, ShmSystem.finish, ShmSystem.move, ShmPc.owesPost, ShmPc.number,
      ShmPc.isTaking]
    omega
  | take i isGet hpc =>
    rw [ShmSystem.take]
    split
    · -- a token that came without a message is dropped
      rename_i hempty
      rw [stranded_eq_zero hempty.2]
      exact stranded_eq_zero hempty.2
    · split
      · refine stranded_of_update rfl ?_
        rw [hpc]
        simp [ShmSystem.finish, ShmSystem.move, ShmQueue.take, ShmPc.owesPost, ShmPc.number,
          ShmPc.isTaking]
        omega
      · refine stranded_of_update rfl ?_
        rw [hpc]
        simp [ShmSystem.move, ShmQueue.take, ShmPc.owesPost, ShmPc.number, ShmPc.isTaking]
        omega
  | release i isGet slot hpc => exact stranded_of_update rfl (by rw [hpc]; rfl)

theorem capacity_of_update {pc : ShmPc} (hpc : s'.pc = Function.update s.pc i pc)
    (hbalance : (s'.q.semPut + s'.q.curQueueLen + pc.isReserving.toNat + pc.isReleasing.toNat : ℤ) =
      s.q.semPut + s.q.curQueueLen + (s.pc i).isReserving.toNat + (s.pc i).isReleasing.toNat) :
    s'.capacity = s.capacity := by
  have hreserving := tally_update ShmPc.isReserving s.pc i pc
  have hreleasing := tally_update ShmPc.isReleasing s.pc i pc
  rw [← hpc] at hreserving hreleasing
  rw [capacity, capacity]
  omega

/-- A slot is free, in use, or in the hand of a call: what one call has lost, no other brings back. -/
theorem capacity_step {a : ShmAct ι} (hslots : s.q.queueObjects ≠ []) (hstep : Stepped s a s') :
    s'.capacity = s.capacity := by
  cases hstep with
  | refused i op result hpc => exact capacity_of_update rfl (by rw [hpc]; rfl)
  | acquirePut i object nLen hpc htoken =>
    refine capacity_of_update rfl ?_
    rw [hpc]
    simp [ShmSystem.move, ShmPc.isReserving, ShmPc.isReleasing]
    omega
  | acquireGet _ i isGet hpc htoken =>
    have hmove : (s.acquireGet i isGet).pc = Function.update s.pc i (.taking isGet) := rfl
    refine capacity_of_update hmove ?_
    rcases hpc with hpc | hpc <;>
    · rw [hpc]
      rfl
  | reserve i object nLen hpc =>
    refine capacity_of_update rfl ?_
    rw [hpc]
    simp [ShmSystem.reserve, ShmSystem.move, ShmQueue.reserve, ShmPc.isReserving, ShmPc.isReleasing]
    omega
  | copy i k slot object nLen hpc => exact capacity_of_update rfl (by rw [hpc]; rfl)
  | post i k hpc => exact capacity_of_update rfl (by rw [hpc]; rfl)
  | take i isGet hpc =>
    rw [ShmSystem.take]
    split
    · exact capacity_of_update rfl (by rw [hpc]; rfl)
    · rw [if_neg (fun hnone => hslots hnone.2)]
      refine capacity_of_update rfl ?_
      rw [hpc]
      simp [ShmSystem.move, ShmQueue.take, ShmPc.isReserving, ShmPc.isReleasing]
      omega
  | release i isGet slot hpc =>
    refine capacity_of_update rfl ?_
    rw [hpc]
    simp [ShmSystem.release, ShmSystem.finish, ShmSystem.move, ShmPc.isReserving, ShmPc.isReleasing]
    omega

omit [Fintype ι] in
theorem slots_step {a : ShmAct ι} (hslots : s.q.queueObjects ≠ []) (hstep : Stepped s a s') :
    s'.q.queueObjects ≠ [] := by
  cases hstep with
  | copy i k slot object nLen hpc =>
    intro hnil
    have hlength := ShmQueue.length_copy s.q slot object nLen
    rw [show (s.q.copy slot object nLen).queueObjects = [] from hnil, List.length_nil] at hlength
    exact hslots (List.length_eq_zero_iff.mp hlength.symm)
  | take i isGet hpc =>
    rw [ShmSystem.take]
    split
    · exact hslots
    · split <;> exact hslots
  | _ => exact hslots

end ShmSystem

/-! ## Events -/

/-- A post of `put_event`. -/
def ShmEventAct.isEvent {ι : Type*} : ShmEventAct ι → Bool
  | .putEventPost _ => true
  | _ => false

namespace ShmEventSystem

variable {ι : Type*} [DecidableEq ι] [Fintype ι] {s s' : ShmEventSystem ι} {a : ShmEventAct ι}

/-- An event gives back one token that is missing, and nothing else does. -/
theorem stranded_step (hstep : s.step a = some s') :
    s'.base.stranded = s.base.stranded - a.isEvent.toNat := by
  cases hevent : a.isEvent with
  | true =>
    obtain ⟨i, rfl⟩ : ∃ i, a = .putEventPost i := by
      cases a with
      | putEventPost i => exact ⟨i, rfl⟩
      | _ => cases hevent
    simp only [step] at hstep
    split at hstep
    · cases hstep
      exact ShmSystem.stranded_postEvent s.base
    · cases hstep
  | false =>
    cases eventStepped_of_step hstep with
    | shm a extra base hbase => exact ShmSystem.stranded_step (ShmSystem.stepped_of_step hbase)
    | posts i extra results => cases hevent
    | reads a extra results => rfl

theorem capacity_step (hslots : s.base.q.queueObjects ≠ []) (hstep : s.step a = some s') :
    s'.base.capacity = s.base.capacity ∧ s'.base.q.queueObjects ≠ [] := by
  cases eventStepped_of_step hstep with
  | shm a extra base hbase =>
    have hstepped := ShmSystem.stepped_of_step hbase
    exact ⟨ShmSystem.capacity_step hslots hstepped, ShmSystem.slots_step hslots hstepped⟩
  | posts i extra results => exact ⟨rfl, hslots⟩
  | reads a extra results => exact ⟨rfl, hslots⟩

end ShmEventSystem

/-! ## The congestion thread -/

/-- Where the congestion thread stands. -/
inductive CongestPc where
  -- there is none, or it has ended
  | absent
  -- about to evaluate `do_exit()`
  | testing
  -- about to call `put_event`
  | calling
  -- inside `put_event`, about to post
  | posting (bRet : Bool)
  deriving DecidableEq, Repr

structure ShmQThreadSystem (ι : Type*) where
  -- the queue, and the calls of all threads but the congestion thread
  events : ShmEventSystem ι
  congest : CongestPc
  -- the stop request for the congestion thread
  doExit : Bool
  -- `start` has found messages, and destroys the congestion thread of an earlier `start`
  starting : Bool
  -- `start` has found the queue empty, or `put_event` has returned `false` to the congestion thread
  settled : Bool

inductive ShmQThreadAct (ι : Type*) where
  | queue (a : ShmEventAct ι)
  -- `start`: the test of the length, and `cong_thread_->create()`
  | start
  | create (spawns : Bool)
  -- the congestion thread: `do_exit()`, and `put_event` with its locked part and its post
  | doExit
  | putEvent
  | putEventPost
  deriving DecidableEq, Repr

/-- A post of `put_event`, by the congestion thread or any other. -/
def ShmQThreadAct.isEvent {ι : Type*} : ShmQThreadAct ι → Bool
  | .queue a => a.isEvent
  | .putEventPost => true
  | _ => false

namespace ShmQThreadSystem

variable {ι : Type*} [DecidableEq ι]

def step (s : ShmQThreadSystem ι) : ShmQThreadAct ι → Option (ShmQThreadSystem ι)
  | .queue a => (s.events.step a).map fun events => { s with events := events }
  | .start =>
    if s.starting then none
    else if s.events.base.q.curQueueLen = 0 then some { s with settled := true }
    -- the new object takes the place of the old one, whose destructor requests the stop
    else some { s with starting := true, doExit := true }
  | .create spawns =>
    if s.starting = true ∧ s.congest = .absent then
      some { s with
        congest := if spawns then .testing else .absent
        doExit := false
        starting := false }
    else none
  | .doExit =>
    if s.congest = .testing then
      some { s with congest := if s.doExit then .absent else .calling }
    else none
  | .putEvent =>
    if s.congest = .calling then
      some { s with congest := .posting (decide (s.events.base.q.curQueueLen > 1)) }
    else none
  | .putEventPost =>
    match s.congest with
    | .posting bRet =>
      some { s with
        events := { s.events with base := s.events.base.postEvent }
        congest := if bRet then .testing else .absent
        settled := s.settled || !bRet }
    | _ => none

/-- A `ShmQThread` that is constructed on the queue `left`, on which other calls may be under way. -/
def machine (left : ShmEventSystem ι) : Machine (ShmQThreadSystem ι) (ShmQThreadAct ι) :=
  ⟨⟨left, .absent, false, false, false⟩, step⟩

/-! ## Whole runs -/

variable [Fintype ι] {left : ShmEventSystem ι} {s s' : ShmQThreadSystem ι}

/-- What the events have done so far, and what the congestion thread knows. -/
structure Recovers (left : ShmEventSystem ι) (acts : List (ShmQThreadAct ι))
    (s : ShmQThreadSystem ι) : Prop where
  stranded : s.events.base.stranded = left.base.stranded - acts.countP ShmQThreadAct.isEvent
  settled : s.settled = true → s.events.base.stranded = 0
  -- with its last post the congestion thread gives the token for the last message
  last : s.congest = .posting false → s.events.base.stranded ≤ 1
  slots : s.events.base.q.queueObjects ≠ []
  capacity : s.events.base.capacity = left.base.capacity

omit [DecidableEq ι] in
/-- A step that leaves the queue as it is. -/
theorem Recovers.quiet {acts : List (ShmQThreadAct ι)} (h : Recovers left acts s)
    {a : ShmQThreadAct ι} (hevent : a.isEvent = false) (hevents : s'.events = s.events)
    (hsettled : s'.settled = true → s.events.base.stranded = 0)
    (hlast : s'.congest = .posting false → s.events.base.stranded ≤ 1) :
    Recovers left (acts ++ [a]) s' := by
  have hcount : (acts ++ [a]).countP ShmQThreadAct.isEvent = acts.countP ShmQThreadAct.isEvent := by
    simp [hevent]
  refine ⟨?_, ?_, ?_, ?_, ?_⟩ <;> rw [hevents]
  · rw [hcount]
    exact h.stranded
  · exact hsettled
  · exact hlast
  · exact h.slots
  · exact h.capacity

/-- **Step lemma**. -/
theorem recovers_step {acts : List (ShmQThreadAct ι)} {a : ShmQThreadAct ι}
    (h : Recovers left acts s) (hstep : s.step a = some s') : Recovers left (acts ++ [a]) s' := by
  cases a with
  | queue a =>
    obtain ⟨events, hevents, rfl⟩ := Option.map_eq_some_iff.mp hstep
    have hstranded := ShmEventSystem.stranded_step hevents
    have hbefore := h.stranded
    obtain ⟨hcapacity, hslots⟩ := ShmEventSystem.capacity_step h.slots hevents
    refine ⟨?_, ?_, ?_, hslots, hcapacity.trans h.capacity⟩
    · rw [List.countP_append, List.countP_singleton]
      show events.base.stranded = _ - (_ + if a.isEvent = true then 1 else 0)
      cases hevent : a.isEvent <;> simp [hevent] at hstranded ⊢ <;> omega
    · intro hsettled
      have hnone := h.settled hsettled
      show events.base.stranded = 0
      omega
    · intro hlast
      have hone := h.last hlast
      show events.base.stranded ≤ 1
      omega
  | start =>
    simp only [step] at hstep
    split at hstep
    · cases hstep
    · split at hstep
      · rename_i hempty
        cases hstep
        exact h.quiet rfl rfl (fun _ => ShmSystem.stranded_eq_zero hempty) h.last
      · cases hstep
        exact h.quiet rfl rfl h.settled h.last
  | create spawns =>
    simp only [step] at hstep
    split at hstep
    · cases hstep
      refine h.quiet rfl rfl h.settled ?_
      cases spawns <;> nofun
    · cases hstep
  | doExit =>
    simp only [step] at hstep
    split at hstep
    · cases hstep
      refine h.quiet rfl rfl h.settled ?_
      cases s.doExit <;> nofun
    · cases hstep
  | putEvent =>
    simp only [step] at hstep
    split at hstep
    · cases hstep
      refine h.quiet rfl rfl h.settled ?_
      intro hlast
      exact ShmSystem.stranded_le_one (of_decide_eq_false (CongestPc.posting.inj hlast))
    · cases hstep
  | putEventPost =>
    simp only [step] at hstep
    split at hstep
    · rename_i bRet hcongest
      cases hstep
      have hstranded := ShmSystem.stranded_postEvent s.events.base
      have hbefore := h.stranded
      refine ⟨?_, ?_, ?_, h.slots, h.capacity⟩
      · rw [List.countP_append]
        show s.events.base.postEvent.stranded = _ - (_ + 1)
        omega
      · show (s.settled || !bRet) = true → s.events.base.postEvent.stranded = 0
        cases bRet with
        | true =>
          intro hsettled
          have hnone := h.settled (by simpa using hsettled)
          omega
        | false =>
          intro _
          have hone := h.last hcongest
          omega
      · cases bRet <;> nofun
    · cases hstep

omit [Fintype ι] in
/-- What is known when the congestion thread has ended. -/
structure Ended (acts : List (ShmQThreadAct ι)) (s : ShmQThreadSystem ι) : Prop where
  -- only a `start` stops the congestion thread, to create another one
  stopped : s.doExit = true → s.starting = true
  settled : .start ∈ acts → .create false ∉ acts → s.starting = false → s.congest = .absent →
    s.settled = true

omit [Fintype ι] in
theorem ended_step {acts : List (ShmQThreadAct ι)} {a : ShmQThreadAct ι} (h : Ended acts s)
    (hstep : s.step a = some s') : Ended (acts ++ [a]) s' := by
  have hstarted : a ≠ .start → .start ∈ acts ++ [a] → .start ∈ acts := by
    intro hne hmem
    rcases List.mem_append.mp hmem with hmem | hmem
    · exact hmem
    · exact absurd (List.mem_singleton.mp hmem).symm hne
  have hspawned : .create false ∉ acts ++ [a] → .create false ∉ acts := by
    intro hnot hmem
    exact hnot (List.mem_append_left [a] hmem)
  cases a with
  | queue a =>
    obtain ⟨events, -, rfl⟩ := Option.map_eq_some_iff.mp hstep
    exact ⟨h.stopped, fun hstart hcreate => h.settled (hstarted nofun hstart) (hspawned hcreate)⟩
  | start =>
    simp only [step] at hstep
    split at hstep
    · cases hstep
    · split at hstep
      · cases hstep
        exact ⟨h.stopped, fun _ _ _ _ => rfl⟩
      · cases hstep
        exact ⟨fun _ => rfl, nofun⟩
  | create spawns =>
    simp only [step] at hstep
    split at hstep
    · cases hstep
      refine ⟨nofun, ?_⟩
      intro _ hcreate _ habsent
      cases spawns with
      | true => cases habsent
      | false => exact absurd (List.mem_append_right acts List.mem_cons_self) hcreate
    · cases hstep
  | doExit =>
    simp only [step] at hstep
    split at hstep
    · cases hstep
      refine ⟨h.stopped, ?_⟩
      intro _ _ hstarting habsent
      cases hexit : s.doExit with
      | true =>
        rw [h.stopped hexit] at hstarting
        cases hstarting
      | false =>
        rw [hexit] at habsent
        cases habsent
    · cases hstep
  | putEvent =>
    simp only [step] at hstep
    split at hstep
    · cases hstep
      exact ⟨h.stopped, nofun⟩
    · cases hstep
  | putEventPost =>
    simp only [step] at hstep
    split at hstep
    · rename_i bRet hcongest
      cases hstep
      refine ⟨h.stopped, ?_⟩
      intro _ _ _ habsent
      cases bRet with
      | true => cases habsent
      | false => exact Bool.or_true _
    · cases hstep

/-- **A start gives every message its token again, and no slot**: from every state of the queue, in
    every run of `ShmQThread::start`, its congestion thread and the calls of all others, the messages
    without a token are those of the beginning less the events so far. There are none when a `start`
    is over and its congestion thread, if there had to be one, could be created and has ended. The
    number of slots that are free, in use or in the hand of a call never changes. -/
theorem start_recovers (left : ShmEventSystem ι) (hslots : left.base.q.queueObjects ≠ [])
    (acts : List (ShmQThreadAct ι)) (s : ShmQThreadSystem ι)
    (hrun : (machine left).run (machine left).init acts = some s) :
    s.events.base.stranded = left.base.stranded - acts.countP ShmQThreadAct.isEvent ∧
      (.start ∈ acts → .create false ∉ acts → s.starting = false → s.congest = .absent →
        s.events.base.stranded = 0) ∧
      s.events.base.capacity = left.base.capacity := by
  have hinit : Recovers left [] (machine left).init := ⟨rfl, nofun, nofun, hslots, rfl⟩
  have hrecovers : Recovers left acts s :=
    Machine.run_history (P := Recovers left) hinit
      (fun _ _ _ _ h hstep => recovers_step h hstep) hrun
  have hbegin : Ended [] (machine left).init := ⟨nofun, nofun⟩
  have hended : Ended acts s :=
    Machine.run_history (P := Ended) hbegin (fun _ _ _ _ h hstep => ended_step h hstep) hrun
  refine ⟨hrecovers.stranded, ?_, hrecovers.capacity⟩
  intro hstart hcreate hstarting habsent
  exact hrecovers.settled (hended.settled hstart hcreate hstarting habsent)

/-- Three messages were put and one was taken, by processes of which two have died before they posted
    `sem_get_`, and one before it posted `sem_put_`. Both messages are received after the start, and
    one of the three slots is lost. -/
theorem start_recovers_after_deaths :
    let q : ShmQueue := ⟨1, 0, 0, 3, 0, 1, 2, [[5], [6], [7]]⟩
    let left : ShmEventSystem (Fin 1) :=
      ⟨⟨q, fun _ => .idle, [], [], [], [], []⟩, fun _ => .none, [], fun _ => 0, []⟩
    let get : List (ShmQThreadAct (Fin 1)) :=
      [.queue (.shm (.call 0 .get)), .queue (.shm (.next 0)), .queue (.shm (.next 0))]
    let acts : List (ShmQThreadAct (Fin 1)) :=
      [.start, .create true, .doExit, .putEvent, .putEventPost] ++ get ++
        [.doExit, .putEvent, .putEventPost] ++ get
    left.base.stranded = 2 ∧
      ∃ s, (machine left).run (machine left).init acts = some s ∧
        s.events.base.returned = [(0, .get (some 1)), (0, .get (some 2))] ∧
        s.events.base.stranded = 0 ∧ s.events.base.capacity = 2 := by
  intro q left get acts
  obtain ⟨hstranded, hcapacity⟩ : left.base.stranded = 2 ∧ left.base.capacity = 2 := by decide
  obtain ⟨s, hrun, hend⟩ := Machine.exists_of_run_any (machine left) (machine left).init acts
    (fun s => s.events.base.returned = [(0, .get (some 1)), (0, .get (some 2))] ∧
      s.starting = false ∧ s.congest = .absent) (by decide)
  obtain ⟨hreturned, hstarting, habsent⟩ :
      s.events.base.returned = [(0, .get (some 1)), (0, .get (some 2))] ∧ s.starting = false ∧
        s.congest = .absent := by simpa using hend
  obtain ⟨-, hnone, hsame⟩ := start_recovers left (by decide) acts s hrun
  have hrecovered := hnone (by decide) (by decide) hstarting habsent
  exact ⟨hstranded, s, hrun, hreturned, hrecovered, hsame.trans hcapacity⟩

end ShmQThreadSystem

end Pdk.Queue
