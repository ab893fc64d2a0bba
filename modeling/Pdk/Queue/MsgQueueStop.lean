import Pdk.Queue.MsgQueueDelivery

/-!
# Stopping the thread of a message queue

`do_exit()` is evaluated in front of `msgrcv` only, and nothing wakes a thread that is inside: one that
was asked to stop takes at most one more message, and as long as none of its type comes it does not
leave (`stopped_receiver`).
-/

namespace Pdk.Queue

open Foundation
open Pdk.Sync

namespace MsgSystem

variable {ι : Type*} [DecidableEq ι] {nLen : CInt} {s s' : MsgSystem ι} {a : MsgAct ι}
  {acts : List (MsgAct ι)}

/-- A party is changed by its own steps only. -/
theorem party_step_of_ne {i : ι} (hstep : step nLen s a = some s') (hi : i ≠ actor a) :
    s'.party i = s.party i := by
  have hset : ∀ p, (s.set (actor a) p).party i = s.party i := fun p => party_set_of_ne s hi p
  cases stepped_of_step hstep with
  | quiet _ p => exact hset p
  | puts j pMsg => exact hset _
  | fails j k => exact hset _
  | sends j k wanted => exact hset _
  | receives j mtype mbody kernel => exact hset _
  | calls j mbody result p => exact hset _

/-- Where the receiving thread of `i` stands. -/
def pcOf (s : MsgSystem ι) (i : ι) : RecvPc := (s.party i).msgQueue.pc

/-- What a step does to the receiving thread of `i`: where it stands behind it. -/
inductive PcStep (s : MsgSystem ι) (i : ι) : MsgAct ι → RecvPc → Prop where
  | stays (a : MsgAct ι) (hrcv : a ≠ .msgrcv i) (hfails : a ≠ .msgrcvFails i) :
      PcStep s i a (s.pcOf i)
  | starts (type : MsgQueueType) (spawns : Bool) (pc : RecvPc) (hpc : s.pcOf i = .idle) :
      PcStep s i (.start i type spawns) pc
  | checks (hpc : s.pcOf i = .checks) :
      PcStep s i (.check i)
        (if (s.party i).msgQueue.stop then .left else .waits (s.party i).msgQueue.recvId.value)
  | joins (hpc : s.pcOf i = .left) : PcStep s i (.join i) .idle
  | receives (mtype : ℤ) (mbody : List UInt8) (hpc : s.pcOf i = .waits mtype)
      (hsome : TaggedQueue.ofTag mtype s.kernel ≠ []) : PcStep s i (.msgrcv i) (.returned mbody)
  | fails (mtype : ℤ) (hpc : s.pcOf i = .waits mtype) : PcStep s i (.msgrcvFails i) .checks
  | calls (mbody : List UInt8) (hpc : s.pcOf i = .returned mbody) : PcStep s i (.callback i) .checks

theorem pcStep_of_step (i : ι) (hstep : step nLen s a = some s') : PcStep s i a (s'.pcOf i) := by
  by_cases hi : i = actor a
  · subst hi
    -- the steps that do not touch the program point
    have hstays : s'.pcOf (actor a) = s.pcOf (actor a) → a ≠ .msgrcv (actor a) →
        a ≠ .msgrcvFails (actor a) → PcStep s (actor a) a (s'.pcOf (actor a)) := by
      intro heq hrcv hfails
      rw [heq]
      exact .stays a hrcv hfails
    cases a with
    | start i type spawns =>
      simp only [step] at hstep
      split at hstep
      · cases hstep
      · cases hstep
        by_cases hidle : s.pcOf i = .idle
        · exact .starts type spawns _ hidle
        · refine hstays ?_ (fun h => by cases h) fun h => by cases h
          rw [pcOf] at hidle
          simp [pcOf, actor, MsgQueueThread.start, hidle]
    | setOwner i =>
      simp only [step] at hstep
      split at hstep
      · cases hstep
        refine hstays ?_ (fun h => by cases h) fun h => by cases h
        simp [pcOf, actor, onQueue]
      · cases hstep
    | setSendId i type =>
      cases hstep
      refine hstays ?_ (fun h => by cases h) fun h => by cases h
      simp [pcOf, actor, onQueue]
    | setRecvId i type =>
      cases hstep
      refine hstays ?_ (fun h => by cases h) fun h => by cases h
      simp [pcOf, actor, onQueue]
    | putQueue i pMsg =>
      simp only [step] at hstep
      split at hstep
      · cases hstep
        refine hstays ?_ (fun h => by cases h) fun h => by cases h
        simp [pcOf, actor, MsgQueue.fill]
      · cases hstep
    | msgsnd i k ok =>
      obtain ⟨wanted, -, rfl⟩ := Option.map_eq_some_iff.mp hstep
      refine hstays ?_ (fun h => by cases h) fun h => by cases h
      cases ok with
      | false => simp [pcOf, actor]
      | true => simp [pcOf, actor, set]
    | stop i =>
      cases hstep
      refine hstays ?_ (fun h => by cases h) fun h => by cases h
      simp [pcOf, actor, onQueue]
    | getQueue i =>
      cases hstep
      refine hstays ?_ (fun h => by cases h) fun h => by cases h
      simp [pcOf, actor, MsgQueueThread.getQueue]
    | check i =>
      simp only [step] at hstep
      split at hstep
      · rename_i hpc
        cases hstep
        simp only [pcOf, actor, onQueue, party_set_self, MsgQueue.check]
        exact .checks hpc
      · cases hstep
    | join i =>
      simp only [step] at hstep
      split at hstep
      · rename_i hpc
        cases hstep
        simp only [pcOf, actor, onQueue, party_set_self]
        exact .joins hpc
      · cases hstep
    | msgrcv i =>
      simp only [step, MsgSystem.msgrcv] at hstep
      split at hstep
      · rename_i mtype hpc
        obtain ⟨⟨mbody, kernel⟩, hrcv, rfl⟩ := Option.map_eq_some_iff.mp hstep
        simp only [pcOf, actor, onQueue, party_set_self]
        refine .receives mtype mbody hpc fun hnil => ?_
        rw [TaggedQueue.receive_eq_none_iff.mpr hnil] at hrcv
        cases hrcv
      · cases hstep
    | msgrcvFails i =>
      simp only [step] at hstep
      split at hstep
      · rename_i mtype hpc
        cases hstep
        simp only [pcOf, actor, onQueue, party_set_self]
        exact .fails mtype hpc
      · cases hstep
    | callback i =>
      simp only [step, MsgSystem.callback] at hstep
      split at hstep
      · rename_i mbody hpc
        obtain ⟨⟨result, p⟩, -, rfl⟩ := Option.map_eq_some_iff.mp hstep
        simp only [pcOf, actor, party_set_self]
        exact .calls mbody hpc
      · cases hstep
  · rw [pcOf, party_step_of_ne hstep hi]
    refine .stays a ?_ ?_
    · rintro rfl
      exact hi rfl
    · rintro rfl
      exact hi rfl

/-- A stop that was requested stays requested until the next `start`. -/
theorem stop_step {i : ι} (hstop : (s.party i).msgQueue.stop = true)
    (hstart : ∀ type spawns, a ≠ .start i type spawns) (hstep : step nLen s a = some s') :
    (s'.party i).msgQueue.stop = true := by
  by_cases hi : i = actor a
  · subst hi
    cases a with
    | start i type spawns => exact absurd rfl (hstart type spawns)
    | setSendId i type | setRecvId i type =>
      cases hstep
      simpa [actor, onQueue] using hstop
    | stop i =>
      cases hstep
      simp [actor, onQueue]
    | getQueue i =>
      cases hstep
      simpa [actor, MsgQueueThread.getQueue] using hstop
    | setOwner i | putQueue i pMsg | check i | join i =>
      simp only [step] at hstep
      split at hstep
      · cases hstep
        simpa [actor, onQueue, MsgQueue.fill, MsgQueue.check] using hstop
      · cases hstep
    | msgsnd i k ok =>
      obtain ⟨wanted, -, rfl⟩ := Option.map_eq_some_iff.mp hstep
      cases ok with
      | false => simpa [actor] using hstop
      | true => simpa [actor, set] using hstop
    | msgrcvFails i =>
      simp only [step] at hstep
      split at hstep
      · cases hstep
        simpa [actor, onQueue] using hstop
      · cases hstep
    | msgrcv i =>
      simp only [step, MsgSystem.msgrcv] at hstep
      split at hstep
      · obtain ⟨r, -, rfl⟩ := Option.map_eq_some_iff.mp hstep
        simpa [actor, onQueue, set] using hstop
      · cases hstep
    | callback i =>
      simp only [step, MsgSystem.callback] at hstep
      split at hstep
      · obtain ⟨⟨result, p⟩, hrecv, rfl⟩ := Option.map_eq_some_iff.mp hstep
        obtain ⟨-, hqueue⟩ := MsgQueueThread.msgQueueRecv_frame hrecv
        simpa [actor, hqueue] using hstop
      · cases hstep
  · rw [party_step_of_ne hstep hi]
    exact hstop

/-- The messages that a receiving thread which was asked to stop can still take. -/
def credit (i : ι) (s : MsgSystem ι) : ℕ :=
  match s.pcOf i with
  | .waits _ => 1
  | _ => 0

/-- No message of the type is queued, and the `msgrcv` of `i` does not fail. -/
def Silent (i : ι) (mtype : ℤ) (s : MsgSystem ι) (a : MsgAct ι) : Prop :=
  a ≠ .msgrcvFails i ∧ ∀ j k, a = .msgsnd j k true → (s.party j).msgQueue.sendElem.1 ≠ mtype

/-- A receiving thread that waits for a message goes on waiting. -/
theorem waits_step {i : ι} {mtype : ℤ} (hpc : s.pcOf i = .waits mtype)
    (hkernel : TaggedQueue.ofTag mtype s.kernel = []) (hsilent : Silent i mtype s a)
    (hstep : step nLen s a = some s') :
    s'.pcOf i = .waits mtype ∧ TaggedQueue.ofTag mtype s'.kernel = [] := by
  constructor
  · have hmove := pcStep_of_step i hstep
    generalize s'.pcOf i = pc at hmove ⊢
    cases hmove with
    | stays => exact hpc
    | starts type spawns _ hidle => cases hpc.symm.trans hidle
    | checks hchecks => cases hpc.symm.trans hchecks
    | joins hleft => cases hpc.symm.trans hleft
    | receives mtype' mbody hwaits hsome =>
      cases hpc.symm.trans hwaits
      exact absurd hkernel hsome
    | fails => exact absurd rfl hsilent.1
    | calls mbody hreturned => cases hpc.symm.trans hreturned
  · cases stepped_of_step hstep with
    | quiet _ p => exact hkernel
    | puts j pMsg => exact hkernel
    | fails j k => exact hkernel
    | calls j mbody result p => exact hkernel
    | sends j k wanted =>
      simp only [TaggedQueue.ofTag_append, hkernel, List.nil_append]
      exact TaggedQueue.ofTag_cons_of_ne (hsilent.2 j k rfl) _ _
    | receives j mtype' mbody kernel hpc' hrcv =>
      by_cases htype : mtype' = mtype
      · subst htype
        rw [TaggedQueue.ofTag_of_receive hrcv] at hkernel
        cases hkernel
      · rw [← TaggedQueue.ofTag_of_receive_ne hrcv htype]
        exact hkernel

theorem credit_step {i : ι} (hstop : (s.party i).msgQueue.stop = true)
    (hstart : ∀ type spawns, a ≠ .start i type spawns) (hstep : step nLen s a = some s') :
    s'.credit i + (decide (a = .msgrcv i)).toNat ≤ s.credit i := by
  have hmove := pcStep_of_step i hstep
  unfold credit
  generalize s'.pcOf i = pc at hmove ⊢
  cases hmove with
  | stays _ hrcv => simp [hrcv]
  | starts type spawns => exact absurd rfl (hstart type spawns)
  | checks => simp [hstop]
  | joins => simp
  | receives mtype mbody hpc => simp [hpc]
  | fails mtype => simp
  | calls mbody => simp

/-- **Stopping a receiving thread.** From a state in which it was asked to stop, and until it is
    started again, it takes at most one more message. If it waits for one, no message of its type comes
    and `msgrcv` does not fail, it does not leave `msgrcv`, so that a `close()` which joins it does not
    return. -/
theorem stopped_receiver (nBufferLen : ι → ℤ) (i : ι) (hstop : (s.party i).msgQueue.stop = true)
    (hstart : ∀ type spawns, .start i type spawns ∉ acts)
    (hrun : (machine nLen nBufferLen).run s acts = some s') :
    acts.countP (fun a => decide (a = .msgrcv i)) ≤ 1 ∧
      ∀ mtype, s.pcOf i = .waits mtype → TaggedQueue.ofTag mtype s.kernel = [] →
        (machine nLen nBufferLen).Along (Silent i mtype) s acts → s'.pcOf i = .waits mtype := by
  constructor
  · have halong : (machine nLen nBufferLen).Along
        (fun _ a => ∀ type spawns, a ≠ .start i type spawns) s acts :=
      by
      apply Machine.along_of_forall
      rintro a ha type spawns rfl
      exact hstart type spawns ha
    have hspent := Machine.run_spends_along (P := fun s => (s.party i).msgQueue.stop = true)
      (credit i) (fun a => decide (a = .msgrcv i))
      (fun s a s' h hok hstep => ⟨stop_step h hok hstep, credit_step h hok hstep⟩) hstop halong hrun
    have hcredit : s.credit i ≤ 1 := by
      unfold credit
      split <;> omega
    omega
  · intro mtype hpc hkernel hsilent
    exact (Machine.run_preserves_along
      (P := fun s => s.pcOf i = .waits mtype ∧ TaggedQueue.ofTag mtype s.kernel = [])
      (fun s a s' h hok hstep => waits_step h.1 h.2 hok hstep) ⟨hpc, hkernel⟩ hsilent hrun).1

/-- A receiving thread that is inside `msgrcv` when the stop is requested takes the message that
    another party sends, and leaves. -/
theorem stopped_receiver_one_more :
    let M := machine (ι := Bool) ⟨1, by decide⟩ fun _ => 32
    let acts : List (MsgAct Bool) :=
      [.putQueue false [9], .msgsnd false 0 true, .msgrcv true, .callback true, .check true]
    ∃ s s', M.run M.init [.start true .msgSendType true, .setOwner true, .check true, .stop true] =
        some s ∧ M.run s acts = some s' ∧ s'.pcOf true = .left ∧
      acts.countP (fun a => decide (a = .msgrcv true)) ≤ 1 := by
  intro M acts
  obtain ⟨s, hbefore, htest⟩ := Machine.exists_of_run_any M M.init
    [.start true .msgSendType true, .setOwner true, .check true, .stop true]
    (fun s => (s.party true).msgQueue.stop && (M.run s acts).any fun s' => s'.pcOf true = .left)
    (by decide)
  obtain ⟨hstop, hafter⟩ := Bool.and_eq_true_iff.mp htest
  obtain ⟨s', hrun, hleft⟩ := Machine.exists_of_run_any M s acts _ hafter
  have hstart : ∀ type spawns, MsgAct.start true type spawns ∉ acts := by simp [acts]
  exact ⟨s, s', hbefore, hrun, by simpa using hleft,
    (stopped_receiver (fun _ => 32) true hstop hstart hrun).1⟩

end MsgSystem

end Pdk.Queue
