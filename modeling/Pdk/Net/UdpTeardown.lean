import Pdk.Net.UdpIfThread

/-!
# Destroying a `UUdpIfThread`

The order in which the destructor ends the two threads is what makes it safe and what makes it finish.
In every interleaving no `after_receive` runs once the channel is gone, no thread runs once the object
is gone, and `thread_proc` never gets a null pointer from `remove` (`teardown_safe`). With an event
queue that has any room, the destructor is never stuck: it can go on by itself, or the thread it joins
can, and each of them has only a few steps left (`teardown_completes`).
-/

namespace Pdk.Net

open Foundation
open Pdk.Sync

namespace IfSystem

/-! ## Invariants -/

/-- How far the destructor has come. -/
def phase : OwnerPc → ℕ
  | .idle | .opened | .listens => 0
  | .stopsChannel => 1
  | .closesSocket => 2
  | .joinsChannel => 3
  | .stops => 4
  | .quits => 5
  | .joins => 6
  | .destroyed => 7

/-- What the destructor has done so far. -/
structure Ordered (s : IfSystem) : Prop where
  channelStop : 2 ≤ phase s.owner → s.channelStop = true
  sock : 3 ≤ phase s.owner → s.sock = false
  receiver : 4 ≤ phase s.owner → s.receiver = .absent
  stop : 5 ≤ phase s.owner → s.stop = true
  worker : 7 ≤ phase s.owner → s.worker = .absent

/-- The queue is open, so that `remove` returns an event. If it can hold one at all, there is one when
    the destructor waits for a worker that is inside `remove`. -/
structure Fed (n : ℤ) (s : IfSystem) : Prop where
  isOpen : s.queue.closed = false
  max : s.queue.max = n
  packet : s.worker ≠ .handles none
  pending : 1 ≤ n → s.owner = .joins → s.worker = .removes → s.queue.q ≠ []

variable {n : ℤ} {s s' : IfSystem} {a : IfAct}

/-- **Step lemma.** -/
theorem Ordered.step (h : Ordered s) (hstep : Stepped s a s') : Ordered s' := by
  -- a thread that takes a step is there
  have hreceiver : ∀ r, s.receiver ≠ .absent → 4 ≤ phase s.owner → r = ReceiverPc.absent :=
    fun r hne hphase => absurd (h.receiver hphase) hne
  have hworker : ∀ w, s.worker ≠ .absent → 7 ≤ phase s.owner → w = IfWorkerPc.absent :=
    fun w hne hphase => absurd (h.worker hphase) hne
  cases hstep with
  | throws => exact h
  | opens | channelThrows | spawnsChannel | spawns | destroys =>
    constructor <;> simp [phase]
  | stopsChannel => constructor <;> simp [phase]
  | closesSocket howner =>
    have hchannelStop := h.channelStop (by simp [howner, phase])
    constructor <;> simp [phase, hchannelStop]
  | joinsChannel howner =>
    have hchannelStop := h.channelStop (by simp [howner, phase])
    have hsock := h.sock (by simp [howner, phase])
    constructor <;> simp [phase, hchannelStop, hsock]
  | stops howner =>
    have hchannelStop := h.channelStop (by simp [howner, phase])
    have hsock := h.sock (by simp [howner, phase])
    have hgone := h.receiver (by simp [howner, phase])
    constructor <;> simp [phase, hchannelStop, hsock, hgone]
  | quits howner =>
    have hchannelStop := h.channelStop (by simp [howner, phase])
    have hsock := h.sock (by simp [howner, phase])
    have hgone := h.receiver (by simp [howner, phase])
    have hstop := h.stop (by simp [howner, phase])
    constructor <;> simp [phase, hchannelStop, hsock, hgone, hstop]
  | joins howner =>
    have hchannelStop := h.channelStop (by simp [howner, phase])
    have hsock := h.sock (by simp [howner, phase])
    have hgone := h.receiver (by simp [howner, phase])
    have hstop := h.stop (by simp [howner, phase])
    constructor <;> simp [phase, hchannelStop, hsock, hgone, hstop]
  | arrives datagram => exact ⟨h.channelStop, h.sock, h.receiver, h.stop, h.worker⟩
  | adds event => exact ⟨h.channelStop, h.sock, h.receiver, h.stop, h.worker⟩
  | receiverChecks hpc | receivesNothing hpc | called hpc | recvFails hpc =>
    exact ⟨h.channelStop, h.sock, hreceiver _ (by simp [hpc]), h.stop, h.worker⟩
  | receives datagram datagrams hpc =>
    exact ⟨h.channelStop, h.sock, hreceiver _ (by simp [hpc]), h.stop, h.worker⟩
  | workerChecks hpc =>
    exact ⟨h.channelStop, h.sock, h.receiver, h.stop, hworker _ (by simp [hpc])⟩
  | removes pPacket queue hpc =>
    exact ⟨h.channelStop, h.sock, h.receiver, h.stop, hworker _ (by simp [hpc])⟩
  | handled pPacket hpc =>
    exact ⟨h.channelStop, h.sock, h.receiver, h.stop, hworker _ (by simp [hpc])⟩

theorem put_frame (q : Queue EventInfo) (event : EventInfo) :
    (q.put event).2.closed = q.closed ∧ (q.put event).2.max = q.max ∧
      (q.q ≠ [] → (q.put event).2.q ≠ []) := by
  rcases Queue.put_cases q event with ⟨h, -⟩ | ⟨h, -⟩
  · rw [h]
    exact ⟨rfl, rfl, fun _ => by simp⟩
  · rw [h]
    exact ⟨rfl, rfl, id⟩

/-- **Step lemma.** -/
theorem Fed.step (hordered : Ordered s) (h : Fed n s) (hstep : Stepped s a s') :
    Fed n s' := by
  cases hstep with
  | throws => exact h
  | opens | channelThrows | spawnsChannel | destroys | stopsChannel | closesSocket | joinsChannel
  | stops => exact ⟨h.isOpen, h.max, h.packet, fun _ howner => by cases howner⟩
  | spawns spawns =>
    refine ⟨h.isOpen, h.max, ?_, fun _ howner => by cases howner⟩
    simp only
    split
    · exact fun hpc => by cases hpc
    · exact h.packet
  | quits howner =>
    obtain ⟨hclosed, hmax, -⟩ := put_frame s.queue .quit
    refine ⟨hclosed.trans h.isOpen, hmax.trans h.max, h.packet, fun hn _ _ => ?_⟩
    exact Queue.put_ne_nil (by rw [h.max]; exact hn) h.isOpen _
  | joins howner =>
    exact ⟨h.isOpen, h.max, fun hpc => (by cases hpc), fun _ howner => by cases howner⟩
  | arrives datagram => exact ⟨h.isOpen, h.max, h.packet, h.pending⟩
  | receiverChecks | receivesNothing | called | recvFails =>
    exact ⟨h.isOpen, h.max, h.packet, h.pending⟩
  | receives datagram datagrams => exact ⟨h.isOpen, h.max, h.packet, h.pending⟩
  | adds event =>
    obtain ⟨hclosed, hmax, hne⟩ := put_frame s.queue event
    exact ⟨hclosed.trans h.isOpen, hmax.trans h.max, h.packet,
      fun hn howner hpc => hne (h.pending hn howner hpc)⟩
  | workerChecks hpc =>
    refine ⟨h.isOpen, h.max, ?_, fun _ howner hremoves => ?_⟩
    · simp only
      split <;> exact fun hpc => by cases hpc
    · -- the stop was requested before the join, so that the worker leaves
      have hstop := hordered.stop (by rw [show s.owner = _ from howner]; simp [phase])
      simp [hstop] at hremoves
  | handled pPacket hpc =>
    exact ⟨h.isOpen, h.max, fun hpc => (by cases hpc), fun _ _ hpc => by cases hpc⟩
  | removes pPacket queue hpc hget =>
    rcases Queue.get_cases s.queue with ⟨item, rest, -, heq⟩ | ⟨-, hclosed, -⟩ | ⟨-, -, hnone⟩
    · rw [heq] at hget
      cases hget
      exact ⟨h.isOpen, h.max, fun hpc => (by cases hpc), fun _ _ hpc => by cases hpc⟩
    · rw [h.isOpen] at hclosed
      cases hclosed
    · rw [hnone] at hget
      cases hget

/-- **Run lemma.** -/
theorem invariants_of_run {acts : List IfAct}
    (hrun : (machine n).run (machine n).init acts = some s) : Ordered s ∧ Fed n s := by
  refine Machine.run_invariant (M := machine n) (P := fun s => Ordered s ∧ Fed n s) ?_ ?_ hrun
  · refine ⟨⟨?_, ?_, ?_, ?_, ?_⟩, rfl, rfl, fun hpc => (by cases hpc), fun _ howner => by cases howner⟩
    all_goals simp [machine, new, phase]
  · intro s a s' ⟨hordered, hfed⟩ hstep
    exact ⟨hordered.step (stepped_of_step hstep), hfed.step hordered (stepped_of_step hstep)⟩

/-! ## Safety -/

/-- **Nothing runs on what is gone.** In every state of every run: behind the destructor of the channel
    there is no receiving thread, so that no `after_receive` is called; behind the destructor there is
    no thread at all; and `remove` never returns a null pointer to `thread_proc`, which does not test
    for one. -/
theorem teardown_safe {acts : List IfAct}
    (hrun : (machine n).run (machine n).init acts = some s) :
    (s.owner = .stops ∨ s.owner = .quits ∨ s.owner = .joins ∨ s.owner = .destroyed →
      s.receiver = .absent) ∧
      (s.owner = .destroyed → s.worker = .absent) ∧ s.worker ≠ .handles none := by
  obtain ⟨hordered, hfed⟩ := invariants_of_run hrun
  refine ⟨fun howner => hordered.receiver ?_, fun howner => hordered.worker ?_, hfed.packet⟩
  · rcases howner with h | h | h | h <;> simp [h, phase]
  · simp [howner, phase]

/-- A run that starts both threads and destroys the object while the receiving thread is inside
    `recvfrom`. -/
def lifetime : List IfAct :=
  [.start true, .createChannel true, .create true, .receive, .work, .arrive [1], .receive, .destroy,
    .next, .receive, .next, .receive, .next, .next, .next, .work, .work, .work, .next]

theorem teardown_safe_lifetime :
    ∃ s, (machine 1).run (machine 1).init lifetime = some s ∧ s.owner = .destroyed ∧
      s.worker = .absent := by
  obtain ⟨s, hrun, howner⟩ := Machine.exists_of_run_any (machine 1) (machine 1).init lifetime
    (fun s => s.owner = .destroyed) (by decide)
  have hdestroyed : s.owner = .destroyed := by simpa using howner
  exact ⟨s, hrun, hdestroyed, (teardown_safe hrun).2.1 hdestroyed⟩

/-! ## Progress -/

/-- The steps that a receiving thread has left when it finds a stop request. -/
def receiverSteps : ReceiverPc → ℕ
  | .absent | .left => 0
  | .checks => 1
  | .calls => 2
  | .receives => 3

def workerSteps : IfWorkerPc → ℕ
  | .absent | .left => 0
  | .checks => 1
  | .handles _ => 2
  | .removes => 3

/-- The destructor, once it runs, is the only one that moves the owner. -/
theorem phase_step (hphase : 1 ≤ phase s.owner) (hstep : Stepped s a s') :
    phase s'.owner = phase s.owner + (decide (a = .next)).toNat := by
  cases hstep with
  | throws opens howner | spawns spawns howner => rw [howner] at hphase; cases hphase
  | opens howner | channelThrows howner | spawnsChannel howner | destroys howner =>
    rw [howner] at hphase
    cases hphase
  | stopsChannel howner | closesSocket howner | joinsChannel howner | stops howner | quits howner
  | joins howner => simp [howner, phase]
  | _ => simp

theorem receiver_step (hordered : Ordered s) (hphase : 2 ≤ phase s.owner) (hstep : Stepped s a s') :
    receiverSteps s'.receiver + (decide (a = .receive)).toNat ≤ receiverSteps s.receiver := by
  have hstop := hordered.channelStop hphase
  cases hstep with
  | spawnsChannel howner =>
    rw [howner] at hphase
    cases hphase
  | joinsChannel | recvFails => simp [receiverSteps]
  | receiverChecks hpc => simp [hpc, hstop, receiverSteps]
  | receives datagram datagrams hpc =>
    by_cases hempty : datagram = []
    · simp [hpc, hempty, receiverSteps]
    · simp [hpc, hempty, receiverSteps]
  | receivesNothing hpc | called hpc => simp [hpc, receiverSteps]
  | _ => simp

theorem worker_step (hordered : Ordered s) (hphase : 5 ≤ phase s.owner) (hstep : Stepped s a s') :
    workerSteps s'.worker + (decide (a = .work)).toNat ≤ workerSteps s.worker := by
  have hstop := hordered.stop hphase
  cases hstep with
  | spawns spawns howner =>
    rw [howner] at hphase
    cases hphase
  | joins => simp [workerSteps]
  | workerChecks hpc => simp [hpc, hstop, workerSteps]
  | removes pPacket queue hpc => simp [hpc, workerSteps]
  | handled pPacket hpc => simp [hpc, workerSteps]
  | _ => simp

theorem phase_le (pc : OwnerPc) : phase pc ≤ 7 := by
  cases pc <;> decide

/-- The destructor can go on, or the thread that it joins can. -/
def CanGoOn (s : IfSystem) : Prop :=
  (∃ s', step s .next = some s') ∨
    (s.owner = .joinsChannel ∧ ∃ s', step s .receive = some s') ∨
    (s.owner = .joins ∧ ∃ s', step s .work = some s')

theorem canGoOn_of_phase (hn : 1 ≤ n) (hordered : Ordered s) (hfed : Fed n s)
    (hphase : 1 ≤ phase s.owner) (hnot : s.owner ≠ .destroyed) : CanGoOn s := by
  cases howner : s.owner with
  | idle | opened | listens =>
    rw [howner] at hphase
    cases hphase
  | destroyed => exact absurd howner hnot
  | stopsChannel | closesSocket | stops | quits =>
    exact .inl ⟨_, by simp only [step, next, howner]; rfl⟩
  | joinsChannel =>
    cases hpc : s.receiver with
    | absent | left => exact .inl ⟨_, by simp only [step, next, howner, hpc]; rfl⟩
    | checks | calls =>
      exact .inr (.inl ⟨howner, _, by simp only [step, receive, hpc]; rfl⟩)
    | receives =>
      have hsock := hordered.sock (by simp [howner, phase])
      refine .inr (.inl ⟨howner, ?_⟩)
      simp only [step, receive, hpc, hsock]
      cases s.datagrams with
      | nil => exact ⟨_, rfl⟩
      | cons datagram datagrams => exact ⟨_, rfl⟩
  | joins =>
    cases hpc : s.worker with
    | absent | left => exact .inl ⟨_, by simp only [step, next, howner, hpc]; rfl⟩
    | checks | handles =>
      exact .inr (.inr ⟨howner, _, by simp only [step, work, hpc]; rfl⟩)
    | removes =>
      refine .inr (.inr ⟨howner, ?_⟩)
      have hne := hfed.pending hn howner hpc
      rcases Queue.get_cases s.queue with ⟨item, rest, -, heq⟩ | ⟨hnil, -⟩ | ⟨hnil, -⟩
      · exact ⟨_, by simp only [step, work, hpc, heq]; rfl⟩
      · exact absurd hnil hne
      · exact absurd hnil hne

/-- **The destructor finishes**, if the event queue has room for the quit event: with no room at all
    the event is dropped, and the worker thread waits for ever. In every state of every run in which the
    destructor is under way, it can take its next step, or the thread that it joins can take one. In
    every continuation it takes at most six more steps of its own, and a thread that it joins takes at
    most three. -/
theorem teardown_completes (hn : 1 ≤ n) {acts : List IfAct}
    (hrun : (machine n).run (machine n).init acts = some s) (hphase : 1 ≤ phase s.owner) :
    (s.owner ≠ .destroyed → CanGoOn s) ∧
      ∀ acts' s', (machine n).run s acts' = some s' →
        acts'.countP (fun a => decide (a = .next)) ≤ 6 ∧
        (s.owner = .joinsChannel → acts'.countP (fun a => decide (a = .receive)) ≤ 3) ∧
        (s.owner = .joins → acts'.countP (fun a => decide (a = .work)) ≤ 3) := by
  obtain ⟨hordered, hfed⟩ := invariants_of_run hrun
  refine ⟨canGoOn_of_phase hn hordered hfed hphase, fun acts' s' hrun' => ⟨?_, ?_, ?_⟩⟩
  · have hspent := Machine.run_spends (M := machine n)
      (P := fun s => 1 ≤ phase s.owner) (fun s => 7 - phase s.owner)
      (fun a => decide (a = .next)) (fun s a s' h hstep => by
        have hmove := phase_step h (stepped_of_step hstep)
        have hle := phase_le s'.owner
        omega) hphase hrun'
    omega
  · intro howner
    have hspent := Machine.run_spends (M := machine n)
      (P := fun s => Ordered s ∧ 2 ≤ phase s.owner) (fun s => receiverSteps s.receiver)
      (fun a => decide (a = .receive)) (fun s a s' h hstep => by
        have hmove := phase_step (by omega) (stepped_of_step hstep)
        exact ⟨⟨h.1.step (stepped_of_step hstep), by omega⟩,
          receiver_step h.1 h.2 (stepped_of_step hstep)⟩)
      ⟨hordered, by simp [howner, phase]⟩ hrun'
    have hsteps : receiverSteps s.receiver ≤ 3 := by cases s.receiver <;> decide
    omega
  · intro howner
    have hspent := Machine.run_spends (M := machine n)
      (P := fun s => Ordered s ∧ 5 ≤ phase s.owner) (fun s => workerSteps s.worker)
      (fun a => decide (a = .work)) (fun s a s' h hstep => by
        have hmove := phase_step (by omega) (stepped_of_step hstep)
        exact ⟨⟨h.1.step (stepped_of_step hstep), by omega⟩,
          worker_step h.1 h.2 (stepped_of_step hstep)⟩)
      ⟨hordered, by simp [howner, phase]⟩ hrun'
    have hsteps : workerSteps s.worker ≤ 3 := by cases s.worker <;> simp [workerSteps]
    omega

/-- The destructor of a `UUdpIfThread` that was started waits for a receiving thread that is inside
    `OnAfterReceive`. -/
theorem teardown_completes_waiting :
    ∃ s, (machine 32).run (machine 32).init [.start true, .createChannel true, .create true,
        .arrive [1], .receive, .receive, .destroy, .next, .next] = some s ∧
      s.owner = .joinsChannel ∧ CanGoOn s := by
  obtain ⟨s, hrun, howner⟩ := Machine.exists_of_run_any (machine 32) (machine 32).init
    [.start true, .createChannel true, .create true, .arrive [1], .receive, .receive, .destroy, .next,
      .next] (fun s => s.owner = .joinsChannel) (by decide)
  have hjoins : s.owner = .joinsChannel := by simpa using howner
  refine ⟨s, hrun, hjoins, (teardown_completes (by decide) hrun ?_).1 ?_⟩
  · simp [hjoins, phase]
  · simp [hjoins]

end IfSystem

end Pdk.Net
