import Pdk.Net.Icmp
import Pdk.Sync.GlobalTimer

/-!
# The liveness flag of `IcmpManager`

Model of `IcmpManager::thread_proc` in `include/icmp.hpp`, with `send_icmp` and `set_delay` called by
other threads. A raw socket receives the ICMP packets of all hosts and processes. The lateness test
at the end of the loop's body is executed for each of them, with the time of the last reply to this
manager and the time of the latest request.

What the flag is meant to say is stated on the calls alone: when the latest request was sent
(`latestSend`) and when the last reply to this manager came (`latestReply`). Replies decide the flag
in every run; whether a foreign packet clears it depends on how far apart these two times are
(`truthful_iff`).

The local `TimeVal` is not initialised before the first reply; what it holds then is a parameter.
-/

namespace Pdk.Net

open Foundation
open Pdk.Sync

/-- `ICMP_MINLEN`. -/
def icmpMinLen : ℕ := 8

/-- `ICMP_ECHOREPLY`. -/
def icmpEchoReply : UInt8 := 0

/-- Where `thread_proc` stands. -/
inductive IcmpPc where
  | looping
  -- before the lateness test; `ours` says whether the packet was a reply to this manager
  | testing (ours : Bool)
  | exited
  deriving DecidableEq, Repr

structure IcmpManager where
  pid : ℕ
  socketFd : ℕ
  active : Bool
  delay : CInt
  -- `time_val_`
  timeVal : TimeVal
  -- the local `TimeVal` of `thread_proc`
  replyTime : TimeVal
  pc : IcmpPc
  deriving DecidableEq

inductive IcmpAct where
  -- `select` returns 0, or -1
  | timeout
  | selectFails
  -- `recv` returns a packet, at the time `now`; none stands for less than 1
  | recv (packet : List UInt8) (now : TimeVal)
  -- the lateness test
  | test
  -- `do_exit()` returns true
  | leave
  -- other threads
  | sendIcmp (now : TimeVal)
  | setDelay (msec : CInt)
  deriving DecidableEq

/-- `ip_hl << 2`. -/
def ipHeaderLen (packet : List UInt8) : ℕ :=
  match packet with
  | b :: _ => b.toNat % 16 * 4
  | [] => 0

/-- The test for an echo reply with the id `getpid()` and the sequence `socket_fd()`. -/
def isEchoReplyTo (pid socketFd : ℕ) (packet : List UInt8) : Bool :=
  match packet.drop (ipHeaderLen packet) with
  | icmpType :: _ :: _ :: _ :: id0 :: id1 :: seq0 :: seq1 :: _ =>
    icmpType == icmpEchoReply && ofLe [id0, id1] == pid % 65536 &&
      ofLe [seq0, seq1] == socketFd % 65536
  | _ => false

namespace IcmpManager

/-- The body of the loop behind `recv`, up to the lateness test. -/
def receive (m : IcmpManager) (packet : List UInt8) (now : TimeVal) : IcmpManager :=
  if packet.length < 1 then { m with pc := .exited }
  else if packet.length < ipHeaderLen packet + icmpMinLen then { m with pc := .exited }
  else if isEchoReplyTo m.pid m.socketFd packet then
    { m with replyTime := now, active := true, pc := .testing true }
  else { m with pc := .testing false }

/-- The lateness test. -/
def lateness (m : IcmpManager) : IcmpManager :=
  { m with
    active := if diffTime m.timeVal m.replyTime > m.delay.val then false else m.active
    pc := .looping }

def step (m : IcmpManager) : IcmpAct → Option IcmpManager
  | .timeout => if m.pc = .looping then some { m with active := false } else none
  | .selectFails =>
    if m.pc = .looping then some { m with active := false, pc := .exited } else none
  | .recv packet now =>
    if m.pc = .looping ∧ packet.length ≤ maxPacket then some (m.receive packet now) else none
  | .test =>
    match m.pc with
    | .testing _ => some m.lateness
    | _ => none
  | .leave => if m.pc = .looping then some { m with pc := .exited } else none
  | .sendIcmp now => some { m with timeVal := now }
  | .setDelay msec => some { m with delay := msec }

/-- A manager whose thread has been started; no request has been sent. -/
def started (pid socketFd : ℕ) (replyTime : TimeVal) : IcmpManager :=
  ⟨pid, socketFd, false, ⟨1000, by decide⟩, ⟨0, 0⟩, replyTime, .looping⟩

def machine (pid socketFd : ℕ) (replyTime : TimeVal) : Machine IcmpManager IcmpAct :=
  ⟨started pid socketFd replyTime, step⟩

end IcmpManager

/-! ## What the calls say -/

/-- When the latest request was sent; zero, which is the time of a new manager, when there was none. -/
def latestSend (acts : List IcmpAct) : TimeVal :=
  acts.foldl (fun sent a => match a with
    | .sendIcmp now => now
    | _ => sent) ⟨0, 0⟩

/-- When the last echo reply with the id and the sequence came. -/
def latestReply (pid socketFd : ℕ) (acts : List IcmpAct) : Option TimeVal :=
  acts.foldl (fun replied a => match a with
    | .recv packet now =>
      if ipHeaderLen packet + icmpMinLen ≤ packet.length ∧ isEchoReplyTo pid socketFd packet = true
        then some now else replied
    | _ => replied) none

theorem latestSend_concat (acts : List IcmpAct) (a : IcmpAct) :
    latestSend (acts ++ [a]) =
      match a with
      | .sendIcmp now => now
      | _ => latestSend acts := by
  rw [latestSend, List.foldl_append]
  rfl

theorem latestReply_concat (pid socketFd : ℕ) (acts : List IcmpAct) (a : IcmpAct) :
    latestReply pid socketFd (acts ++ [a]) =
      match a with
      | .recv packet now =>
        if ipHeaderLen packet + icmpMinLen ≤ packet.length ∧ isEchoReplyTo pid socketFd packet = true
          then some now else latestReply pid socketFd acts
      | _ => latestReply pid socketFd acts := by
  rw [latestReply, List.foldl_append]
  rfl

namespace IcmpManager

/-- In a run of these calls a packet that is no echo reply to this manager leaves `active_` as it was,
    and one that is makes it say whether the reply came in time after the latest request. The packet
    is received in the state `m` and tested in `t`. Between the two, other threads call `send_icmp`
    and `set_delay`. -/
def Truthful (pid socketFd : ℕ) (replyTime : TimeVal) (acts : List IcmpAct) : Prop :=
  ∀ before packet now meanwhile after m t t',
    acts = before ++ .recv packet now :: meanwhile ++ .test :: after → .test ∉ meanwhile →
    (machine pid socketFd replyTime).run (started pid socketFd replyTime) before = some m →
    (machine pid socketFd replyTime).run m (.recv packet now :: meanwhile) = some t →
    (machine pid socketFd replyTime).step t .test = some t' →
    t'.active =
      if isEchoReplyTo pid socketFd packet = true then
        decide (diffTime (latestSend (before ++ .recv packet now :: meanwhile)) now ≤ t.delay.val)
      else m.active

/-- Whenever a foreign packet is tested while the host is active, the last reply to this manager and
    the latest request are not further apart than the delay. -/
def Fresh (pid socketFd : ℕ) (replyTime : TimeVal) (acts : List IcmpAct) : Prop :=
  ∀ before after t, acts = before ++ .test :: after →
    (machine pid socketFd replyTime).run (started pid socketFd replyTime) before = some t →
    t.pc = .testing false → t.active = true →
    ∀ replied ∈ latestReply pid socketFd before,
      diffTime (latestSend before) replied ≤ t.delay.val

/-! ## What a step does -/

variable {pid socketFd : ℕ} {replyTime : TimeVal} {m m' t : IcmpManager} {a : IcmpAct}

/-- The results of handling a packet up to the test. -/
theorem receive_cases (m : IcmpManager) (packet : List UInt8) (now : TimeVal) :
    (packet.length < ipHeaderLen packet + icmpMinLen ∧
        m.receive packet now = { m with pc := .exited }) ∨
      (ipHeaderLen packet + icmpMinLen ≤ packet.length ∧
        isEchoReplyTo m.pid m.socketFd packet = true ∧
        m.receive packet now = { m with replyTime := now, active := true, pc := .testing true }) ∨
      (ipHeaderLen packet + icmpMinLen ≤ packet.length ∧
        isEchoReplyTo m.pid m.socketFd packet = false ∧
        m.receive packet now = { m with pc := .testing false }) := by
  unfold receive
  split
  · rename_i hempty
    exact .inl ⟨by rw [icmpMinLen]; omega, rfl⟩
  · split
    · rename_i hshort
      exact .inl ⟨hshort, rfl⟩
    · rename_i hlong
      split
      · rename_i hours
        exact .inr (.inl ⟨by omega, hours, rfl⟩)
      · rename_i hforeign
        exact .inr (.inr ⟨by omega, by simpa using hforeign, rfl⟩)

/-- Behind the test the host is active if it was before and the stored times are not too far apart. -/
theorem step_test (hstep : m.step .test = some m') :
    m' = m.lateness ∧ ∃ ours, m.pc = .testing ours := by
  simp only [step] at hstep
  split at hstep
  · rename_i ours hpc
    cases hstep
    exact ⟨rfl, ours, hpc⟩
  · cases hstep

/-- Away from the head of the loop, only other threads move before the test. -/
theorem step_busy (hpc : m.pc ≠ .looping) (ha : a ≠ .test) (hstep : m.step a = some m') :
    m'.pc = m.pc ∧ m'.active = m.active ∧ m'.replyTime = m.replyTime := by
  cases a with
  | test => exact absurd rfl ha
  | recv packet now =>
    simp only [step] at hstep
    rw [if_neg fun h => hpc h.1] at hstep
    cases hstep
  | sendIcmp now =>
    cases hstep
    exact ⟨rfl, rfl, rfl⟩
  | setDelay msec =>
    cases hstep
    exact ⟨rfl, rfl, rfl⟩
  | _ =>
    simp only [step] at hstep
    rw [if_neg hpc] at hstep
    cases hstep

theorem run_busy {meanwhile : List IcmpAct} (hpc : m.pc ≠ .looping) (hnone : .test ∉ meanwhile)
    (hrun : (machine pid socketFd replyTime).run m meanwhile = some t) :
    t.pc = m.pc ∧ t.active = m.active ∧ t.replyTime = m.replyTime := by
  induction meanwhile generalizing m with
  | nil =>
    cases hrun
    exact ⟨rfl, rfl, rfl⟩
  | cons a meanwhile ih =>
    obtain ⟨u, hu, hrest⟩ := Machine.run_cons_eq_some.mp hrun
    rw [List.mem_cons, not_or] at hnone
    obtain ⟨hpcU, hactive, hreply⟩ := step_busy hpc (Ne.symm hnone.1) hu
    obtain ⟨hpcT, hactiveT, hreplyT⟩ := ih (hpcU ▸ hpc) hnone.2 hrest
    exact ⟨hpcT.trans hpcU, hactiveT.trans hactive, hreplyT.trans hreply⟩

/-- What a packet has done before its test: a reply to this manager has set the flag and the local,
    and any other packet nothing. -/
theorem run_recv_testing {packet : List UInt8} {now : TimeVal} {meanwhile : List IcmpAct} {ours : Bool}
    (hrun : (machine pid socketFd replyTime).run m (.recv packet now :: meanwhile) = some t)
    (hnone : .test ∉ meanwhile) (hpc : t.pc = .testing ours) :
    isEchoReplyTo m.pid m.socketFd packet = ours ∧
      if ours = true then t.active = true ∧ t.replyTime = now else t.active = m.active := by
  obtain ⟨u, hu, hrest⟩ := Machine.run_cons_eq_some.mp hrun
  simp only [machine, step] at hu
  split at hu
  · cases hu
    rcases receive_cases m packet now with ⟨-, hu⟩ | ⟨-, hours, hu⟩ | ⟨-, hforeign, hu⟩
    all_goals
      have hbusy : (m.receive packet now).pc ≠ .looping := by
        rw [hu]
        nofun
      obtain ⟨hpcT, hactive, hreply⟩ := run_busy hbusy hnone hrest
      rw [hpc, hu] at hpcT
      cases hpcT
    · rw [hu] at hactive hreply
      exact ⟨hours, hactive, hreply⟩
    · rw [hu] at hactive
      exact ⟨hforeign, hactive⟩
  · cases hu

/-! ## What is known between two steps -/

/-- The last packet of these calls was received and not tested yet. -/
def InTest (pid socketFd : ℕ) (replyTime : TimeVal) (acts : List IcmpAct) (m : IcmpManager) : Prop :=
  ∃ before packet now meanwhile u,
    acts = before ++ .recv packet now :: meanwhile ∧ .test ∉ meanwhile ∧
    (machine pid socketFd replyTime).run (started pid socketFd replyTime) before = some u ∧
    (machine pid socketFd replyTime).run u (.recv packet now :: meanwhile) = some m

/-- What the calls of a run say about the state behind it. -/
structure Known (pid socketFd : ℕ) (replyTime : TimeVal) (acts : List IcmpAct) (m : IcmpManager) :
    Prop where
  run : (machine pid socketFd replyTime).run (started pid socketFd replyTime) acts = some m
  samePid : m.pid = pid
  sameFd : m.socketFd = socketFd
  sent : m.timeVal = latestSend acts
  -- the local is read with effect only when it has been set
  heard : m.active = true → latestReply pid socketFd acts = some m.replyTime
  testing : ∀ ours, m.pc = .testing ours → InTest pid socketFd replyTime acts m

theorem known_started (pid socketFd : ℕ) (replyTime : TimeVal) :
    Known pid socketFd replyTime [] (started pid socketFd replyTime) :=
  ⟨rfl, rfl, rfl, rfl, nofun, nofun⟩

variable {acts : List IcmpAct}

/-- A step of the thread that neither receives nor leaves a packet for the test. -/
theorem Known.quiet (h : Known pid socketFd replyTime acts m) (hstep : m.step a = some m')
    (hpid : m'.pid = m.pid) (hfd : m'.socketFd = m.socketFd) (htime : m'.timeVal = m.timeVal)
    (hsend : latestSend (acts ++ [a]) = latestSend acts)
    (hreply : latestReply pid socketFd (acts ++ [a]) = latestReply pid socketFd acts)
    (hactive : m'.active = true → m.active = true) (htimeReply : m'.replyTime = m.replyTime)
    (hpc : ∀ ours, m'.pc ≠ .testing ours) : Known pid socketFd replyTime (acts ++ [a]) m' where
  run := Machine.run_concat_eq_some.mpr ⟨m, h.run, hstep⟩
  samePid := hpid.trans h.samePid
  sameFd := hfd.trans h.sameFd
  sent := by rw [htime, hsend, h.sent]
  heard hp := by rw [hreply, htimeReply, h.heard (hactive hp)]
  testing ours hp := absurd hp (hpc ours)

/-- A call of another thread, which leaves the packet in the test where it is. -/
theorem Known.testing_concat (h : Known pid socketFd replyTime acts m) (hstep : m.step a = some m')
    (ha : a ≠ .test) (hpc : m'.pc = m.pc) (ours : Bool) (hp : m'.pc = .testing ours) :
    InTest pid socketFd replyTime (acts ++ [a]) m' := by
  obtain ⟨before, packet, now, meanwhile, u, rfl, hnone, hbefore, hrun⟩ :=
    h.testing ours (hpc ▸ hp)
  refine ⟨before, packet, now, meanwhile ++ [a], u, by simp, ?_, hbefore, ?_⟩
  · rw [List.mem_append, List.mem_singleton, not_or]
    exact ⟨hnone, Ne.symm ha⟩
  · rw [← List.cons_append]
    exact Machine.run_concat_eq_some.mpr ⟨m, hrun, hstep⟩

theorem known_recv (h : Known pid socketFd replyTime acts m) {packet : List UInt8} {now : TimeVal}
    (hstep : m.step (.recv packet now) = some m') :
    Known pid socketFd replyTime (acts ++ [.recv packet now]) m' := by
  have htesting : InTest pid socketFd replyTime (acts ++ [.recv packet now]) m' :=
    ⟨acts, packet, now, [], m, rfl, nofun, h.run, Machine.run_cons_eq_some.mpr ⟨m', hstep, rfl⟩⟩
  have hrun : (machine pid socketFd replyTime).run (started pid socketFd replyTime)
      (acts ++ [.recv packet now]) = some m' := Machine.run_concat_eq_some.mpr ⟨m, h.run, hstep⟩
  have hsend := latestSend_concat acts (.recv packet now)
  have hreply := latestReply_concat pid socketFd acts (.recv packet now)
  simp only at hsend hreply
  have hm : m' = m.receive packet now := by
    simp only [step] at hstep
    split at hstep
    · exact (Option.some.inj hstep).symm
    · cases hstep
  rcases receive_cases m packet now with ⟨hshort, hcase⟩ | ⟨hlong, hours, hcase⟩ | ⟨-, hforeign, hcase⟩
  · rw [hcase] at hm
    subst hm
    rw [if_neg fun hlong => by omega] at hreply
    exact h.quiet hstep rfl rfl rfl hsend hreply id rfl nofun
  · rw [h.samePid, h.sameFd] at hours
    rw [hcase] at hm
    subst hm
    rw [if_pos ⟨hlong, hours⟩] at hreply
    exact ⟨hrun, h.samePid, h.sameFd, by rw [hsend]; exact h.sent, fun _ => hreply, fun _ _ => htesting⟩
  · rw [h.samePid, h.sameFd] at hforeign
    rw [hcase] at hm
    subst hm
    rw [if_neg fun hboth => by simp [hforeign] at hboth] at hreply
    exact ⟨hrun, h.samePid, h.sameFd, by rw [hsend]; exact h.sent,
      fun hp => by rw [hreply]; exact h.heard hp, fun _ _ => htesting⟩

/-- **Step lemma.** -/
theorem known_step (h : Known pid socketFd replyTime acts m) (hstep : m.step a = some m') :
    Known pid socketFd replyTime (acts ++ [a]) m' := by
  have hsend := latestSend_concat acts a
  have hreply := latestReply_concat pid socketFd acts a
  cases a with
  | recv packet now => exact known_recv h hstep
  | test =>
    obtain ⟨rfl, -⟩ := step_test hstep
    refine h.quiet hstep rfl rfl rfl hsend hreply ?_ rfl nofun
    intro hactive
    simp only [lateness] at hactive
    split at hactive
    · cases hactive
    · exact hactive
  | sendIcmp now =>
    have hstep' := hstep
    cases hstep
    exact ⟨Machine.run_concat_eq_some.mpr ⟨m, h.run, hstep'⟩, h.samePid, h.sameFd, hsend.symm,
      fun hp => by rw [hreply]; exact h.heard hp, h.testing_concat hstep' nofun rfl⟩
  | setDelay msec =>
    have hstep' := hstep
    cases hstep
    exact ⟨Machine.run_concat_eq_some.mpr ⟨m, h.run, hstep'⟩, h.samePid, h.sameFd,
      by rw [hsend]; exact h.sent, fun hp => by rw [hreply]; exact h.heard hp,
      h.testing_concat hstep' nofun rfl⟩
  | leave =>
    have hstep' := hstep
    simp only [step] at hstep
    split at hstep
    · cases hstep
      exact h.quiet hstep' rfl rfl rfl hsend hreply id rfl nofun
    · cases hstep
  | timeout =>
    have hstep' := hstep
    simp only [step] at hstep
    split at hstep
    · rename_i hpc
      cases hstep
      refine h.quiet hstep' rfl rfl rfl hsend hreply nofun rfl fun ours hp => ?_
      rw [show m.pc = _ from hp] at hpc
      cases hpc
    · cases hstep
  | selectFails =>
    have hstep' := hstep
    simp only [step] at hstep
    split at hstep
    · cases hstep
      exact h.quiet hstep' rfl rfl rfl hsend hreply nofun rfl nofun
    · cases hstep

/-- **Run lemma.** -/
theorem known_run
    (hrun : (machine pid socketFd replyTime).run (started pid socketFd replyTime) acts = some m) :
    Known pid socketFd replyTime acts m :=
  Machine.run_history (M := machine pid socketFd replyTime) (P := Known pid socketFd replyTime)
    (known_started pid socketFd replyTime) (fun _ _ _ _ h hstep => known_step h hstep) hrun

/-! ## Replies and foreign packets -/

/-- The test of a reply to this manager says whether the reply was in time. -/
theorem lateness_reply (hactive : t.active = true) :
    t.lateness.active = decide (diffTime t.timeVal t.replyTime ≤ t.delay.val) := by
  simp only [lateness, hactive]
  split
  · rename_i hlate
    exact (decide_eq_false (by omega)).symm
  · rename_i hlate
    exact (decide_eq_true (by omega)).symm

/-- The test leaves the flag as it is exactly if the stored times are not too far apart for a host that
    is active. -/
theorem lateness_foreign_iff :
    t.lateness.active = t.active ↔
      (t.active = true → diffTime t.timeVal t.replyTime ≤ t.delay.val) := by
  simp only [lateness]
  split
  · rename_i hlate
    cases t.active with
    | false => simp
    | true => simpa using hlate
  · rename_i hlate
    exact iff_of_true rfl fun _ => by omega

/-- **Replies decide the liveness of a host, and foreign packets leave it alone exactly when no
    foreign packet meets an active host whose last reply and latest request are further apart than
    the delay.** -/
theorem truthful_iff (pid socketFd : ℕ) (replyTime : TimeVal) (acts : List IcmpAct) :
    Truthful pid socketFd replyTime acts ↔ Fresh pid socketFd replyTime acts := by
  constructor
  · intro htruthful before after t hacts hrun hpc hactive replied hreplied
    have hknown := known_run hrun
    obtain ⟨pre, packet, now, meanwhile, m, rfl, hnone, hpre, hrecv⟩ := hknown.testing false hpc
    obtain ⟨hforeign, hsame⟩ := run_recv_testing hrecv hnone hpc
    rw [if_neg Bool.false_ne_true] at hsame
    have hm := known_run hpre
    rw [hm.samePid, hm.sameFd] at hforeign
    have htest : (machine pid socketFd replyTime).step t .test = some t.lateness := by
      simp only [machine, step, hpc]
    have hleft := htruthful pre packet now meanwhile after m t t.lateness hacts hnone hpre hrecv htest
    rw [if_neg (by simp [hforeign]), ← hsame] at hleft
    rw [hknown.heard hactive, Option.mem_some_iff] at hreplied
    rw [← hknown.sent, ← hreplied]
    exact lateness_foreign_iff.mp hleft hactive
  · intro hfresh before packet now meanwhile after m t t' hacts hnone hbefore hrecv htest
    obtain ⟨rfl, ours, hpc⟩ := step_test htest
    have hm := known_run hbefore
    have hrun : (machine pid socketFd replyTime).run (started pid socketFd replyTime)
        (before ++ .recv packet now :: meanwhile) = some t :=
      Machine.run_append_eq_some.mpr ⟨m, hbefore, hrecv⟩
    have hknown := known_run hrun
    obtain ⟨hours, hflag⟩ := run_recv_testing hrecv hnone hpc
    rw [hm.samePid, hm.sameFd] at hours
    rw [hours, ← hknown.sent]
    cases ours with
    | true =>
      obtain ⟨hactive, hreply⟩ := hflag
      rw [if_pos rfl, lateness_reply hactive, hreply]
    | false =>
      rw [if_neg Bool.false_ne_true] at hflag ⊢
      rw [← hflag]
      refine lateness_foreign_iff.mpr fun hactive => ?_
      have hle := hfresh (before ++ .recv packet now :: meanwhile) after t (by simp [hacts]) hrun hpc
        hactive t.replyTime (hknown.heard hactive)
      rw [hknown.sent]
      exact hle

/-- An IP header of twenty bytes and an ICMP header. -/
def icmpPacket (icmpType id seq : UInt8) : List UInt8 :=
  0x45 :: List.replicate 19 0 ++ [icmpType, 0, 0, 0, id, 0, seq, 0]

/-- A reply in time makes the host active, and a foreign reply soon after it leaves it so. -/
example :
    ((machine 7 3 ⟨0, 0⟩).run (started 7 3 ⟨0, 0⟩)
      [.sendIcmp ⟨10, 0⟩, .recv (icmpPacket 0 7 3) ⟨10, 500⟩, .test,
        .recv (icmpPacket 0 8 3) ⟨10, 600⟩, .test]).map active = some true := by decide

/-- A reply in time makes the host active. Two seconds later the next request is sent, and before
    the reply to it the reply to another process comes: the host is not active any more. -/
theorem truthful_counterexample :
    ¬Truthful 7 3 ⟨0, 0⟩ [.sendIcmp ⟨10, 0⟩, .recv (icmpPacket 0 7 3) ⟨10, 500⟩, .test,
      .sendIcmp ⟨12, 0⟩, .recv (icmpPacket 0 8 3) ⟨12, 100⟩, .test] := by
  intro h
  have hleft := h [.sendIcmp ⟨10, 0⟩, .recv (icmpPacket 0 7 3) ⟨10, 500⟩, .test, .sendIcmp ⟨12, 0⟩]
    (icmpPacket 0 8 3) ⟨12, 100⟩ [] [] _ _ _ rfl nofun rfl rfl rfl
  exact absurd hleft (by decide)

end IcmpManager

end Pdk.Net
