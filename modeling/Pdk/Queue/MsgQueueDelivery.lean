import Mathlib.Data.List.Basic
import Pdk.Queue.MsgQueue

/-!
# What a message queue delivers

Between `msgsnd` and `msgrcv` no message is lost, duplicated or overtaken by another one of its type,
whatever the parties do (`conserves_of_run`). Behind `msgrcv` a message is lost when the callback finds
no owner, as it may between the start of the receiving thread and `set_owner`, or no room in the event
queue: `GetQueue` gives the owner all the messages exactly if that never happens
(`msgQueue_delivers_iff`). In front of `msgsnd`, two calls of `send` on one object overwrite each
other's `send_elem_`.
-/

namespace Pdk.Queue

open Foundation
open Pdk.Net
open Pdk.Sync

/-! ## Conditions -/

/-- The callback passes a message on: there is an owner, and room in its event queue. -/
def MsgQueueThread.Accepts (p : MsgQueueThread) : Prop :=
  p.msgQueue.owner = true ∧ p.thread.queue.closed = false ∧
    (p.thread.queue.q.length : ℤ) < p.thread.queue.max

instance (p : MsgQueueThread) : Decidable p.Accepts :=
  inferInstanceAs (Decidable (_ ∧ _ ∧ _))

/-- In front of the callback, and only there, a message is held. -/
theorem MsgQueue.held_eq_nil {q : MsgQueue} (h : ∀ mbody, q.pc ≠ .returned mbody) :
    q.held = [] := by
  unfold MsgQueue.held
  split
  · rename_i mbody hpc
    exact absurd hpc (h mbody)
  · rfl

theorem MsgQueue.held_of_returned {q : MsgQueue} {mbody : List UInt8} (h : q.pc = .returned mbody) :
    q.held = [mbody] := by
  unfold MsgQueue.held
  rw [h]

theorem MsgQueueThread.arrived_getQueue (p : MsgQueueThread) : p.getQueue.2.arrived = p.arrived := by
  simp only [getQueue, QThread.tryRemove, Queue.tryGet, arrived]
  cases hq : p.thread.queue.q with
  | nil => simp [hq]
  | cons event rest => simp

/-- `start` sends and receives nothing. -/
theorem MsgQueueThread.start_frame (p : MsgQueueThread) (type : MsgQueueType) (spawns : Bool) :
    (p.start type spawns).msgQueue.sendElem = p.msgQueue.sendElem ∧
      (p.start type spawns).msgQueue.held = p.msgQueue.held := by
  simp only [start]
  split
  · rename_i hidle
    refine ⟨rfl, ?_⟩
    cases spawns <;> simp [MsgQueue.held, hidle]
  · exact ⟨rfl, rfl⟩

/-- The callback leaves the sending side and the program points alone. -/
theorem MsgQueueThread.msgQueueRecv_frame {nLen : CInt} {p p' : MsgQueueThread}
    {pBuffer : List UInt8} {result : Bool} (h : p.msgQueueRecv nLen pBuffer = some (result, p')) :
    p'.calls = p.calls ∧ p'.msgQueue = p.msgQueue := by
  simp only [msgQueueRecv] at h
  split at h
  · cases h
    exact ⟨rfl, rfl⟩
  · obtain ⟨r, -, heq⟩ := Option.map_eq_some_iff.mp h
    cases heq
    exact ⟨rfl, rfl⟩

/-- A message of the right size is copied into the event as it is. -/
theorem copied_byteAt {nLen : CInt} {pBuffer : List UInt8} (hlen : pBuffer.length = nLen.val.toNat) :
    EventInfo.copied (some (byteAt (fun _ => 0) pBuffer)) nLen = pBuffer := by
  rw [EventInfo.copied, ← hlen]
  refine List.ext_getElem (by simp) fun k hk hk' => ?_
  simp only [List.getElem_map, List.getElem_range]
  simp [byteAt, hk']

/-- The callback appends the message to the event queue, or drops it. -/
theorem MsgQueueThread.msgQueueRecv_cases {nLen : CInt} {p p' : MsgQueueThread}
    {pBuffer : List UInt8} {result : Bool} (hlen : pBuffer.length = nLen.val.toNat)
    (h : p.msgQueueRecv nLen pBuffer = some (result, p')) :
    (p.Accepts ∧ ∃ event : EventInfo, event.value = pBuffer ∧ p' = { p with
        thread := { p.thread with
          queue := { p.thread.queue with q := p.thread.queue.q ++ [event] } } }) ∨
      (¬p.Accepts ∧ p' = p) := by
  simp only [msgQueueRecv] at h
  split at h
  · rename_i howner
    cases h
    refine .inr ⟨fun haccepts => ?_, rfl⟩
    rw [haccepts.1] at howner
    cases howner
  · rename_i howner
    obtain ⟨r, hadd, heq⟩ := Option.map_eq_some_iff.mp h
    cases heq
    obtain ⟨event, hfill, rfl⟩ := Option.map_eq_some_iff.mp hadd
    have hvalue : event.value = pBuffer := by
      unfold EventInfo.fill at hfill
      split at hfill
      · cases hfill
      · obtain ⟨length, -, rfl⟩ := Option.map_eq_some_iff.mp hfill
        exact copied_byteAt hlen
    rcases Queue.put_cases p.thread.queue event with ⟨hput, hopen, hroom⟩ | ⟨hput, hwhy⟩
    · refine .inl ⟨⟨by simpa using howner, hopen, hroom⟩, event, hvalue, ?_⟩
      simp only [QThread.add, hput]
    · refine .inr ⟨fun haccepts => ?_, ?_⟩
      · rcases hwhy with hclosed | hfull
        · rw [haccepts.2.1] at hclosed
          cases hclosed
        · exact absurd haccepts.2.2 (Int.not_lt.mpr hfull)
      · simp only [QThread.add, hput]

namespace MsgSystem

variable {ι : Type*} [DecidableEq ι]

/-- The callback of `i` is not called without passing its message on. -/
def Accepted (i : ι) (s : MsgSystem ι) (a : MsgAct ι) : Prop :=
  a = .callback i → (s.party i).Accepts

instance (i : ι) (s : MsgSystem ι) (a : MsgAct ι) : Decidable (Accepted i s a) :=
  inferInstanceAs (Decidable (_ → _))

/-- `PutQueue` is not called while another call on the same object is under way. -/
def Apart (s : MsgSystem ι) : MsgAct ι → Prop
  | .putQueue i _ => (s.party i).calls = []
  | _ => True

instance (s : MsgSystem ι) : ∀ a, Decidable (Apart s a)
  | .putQueue i _ => inferInstanceAs (Decidable ((s.party i).calls = []))
  | .start .. | .setOwner _ | .setSendId .. | .setRecvId .. | .msgsnd .. | .stop _ | .join _ | .check _
  | .msgrcv _ | .msgrcvFails _ | .callback _ | .getQueue _ => isTrue trivial

/-! ## What a step can do -/

/-- The messages of `i`, in the order in which `msgrcv` has returned them. -/
def receivedBy (s : MsgSystem ι) (i : ι) : List (List UInt8) :=
  (TaggedQueue.ofTag i s.received).map Prod.snd

/-- The party that takes the step. -/
def actor : MsgAct ι → ι
  | .start i .. | .setOwner i | .setSendId i _ | .setRecvId i _ | .putQueue i _ | .msgsnd i ..
  | .stop i | .join i | .check i | .msgrcv i | .msgrcvFails i | .callback i | .getQueue i => i

/-- What the steps do to the messages on their way. -/
inductive Stepped (nLen : CInt) (s : MsgSystem ι) : MsgAct ι → MsgSystem ι → Prop where
  -- a step of one party that moves no message
  | quiet (a : MsgAct ι) (p : MsgQueueThread) (hcallback : ∀ j, a ≠ .callback j)
      (hcalls : p.calls = (s.party (actor a)).calls)
      (hsend : p.msgQueue.sendElem = (s.party (actor a)).msgQueue.sendElem)
      (hheld : p.msgQueue.held = (s.party (actor a)).msgQueue.held)
      (harrived : p.arrived = (s.party (actor a)).arrived) : Stepped nLen s a (s.set (actor a) p)
  | puts (i : ι) (pMsg : List UInt8) (hlen : pMsg.length = nLen.val.toNat) :
      Stepped nLen s (.putQueue i pMsg) (s.set i { s.party i with
        msgQueue := (s.party i).msgQueue.fill pMsg (-1)
        calls := (s.party i).calls ++ [((s.party i).msgQueue.fill pMsg (-1)).sendElem] })
  | fails (i : ι) (k : ℕ) :
      Stepped nLen s (.msgsnd i k false)
        (s.set i { s.party i with calls := (s.party i).calls.eraseIdx k })
  | sends (i : ι) (k : ℕ) (wanted : MsgElem) (hk : (s.party i).calls[k]? = some wanted) :
      Stepped nLen s (.msgsnd i k true)
        { s.set i { s.party i with calls := (s.party i).calls.eraseIdx k } with
          kernel := s.kernel ++ [(s.party i).msgQueue.sendElem]
          asked := s.asked ++ [wanted]
          queued := s.queued ++ [(s.party i).msgQueue.sendElem] }
  | receives (i : ι) (mtype : ℤ) (mbody : List UInt8) (kernel : TaggedQueue ℤ (List UInt8))
      (hpc : (s.party i).msgQueue.pc = .waits mtype)
      (hrcv : TaggedQueue.receive mtype s.kernel = some (mbody, kernel)) :
      Stepped nLen s (.msgrcv i)
        { s.onQueue i fun q => { q with pc := .returned mbody } with
          kernel := kernel
          received := s.received ++ [(i, mtype, mbody)] }
  | calls (i : ι) (mbody : List UInt8) (result : Bool) (p : MsgQueueThread)
      (hpc : (s.party i).msgQueue.pc = .returned mbody)
      (hrecv : (s.party i).msgQueueRecv nLen mbody = some (result, p)) :
      Stepped nLen s (.callback i)
        (s.set i { p with msgQueue := { p.msgQueue with pc := .checks } })

omit [DecidableEq ι] in
theorem held_step {q q' : MsgQueue} (h : ∀ mbody, q.pc ≠ .returned mbody)
    (h' : ∀ mbody, q'.pc ≠ .returned mbody) : q'.held = q.held := by
  rw [MsgQueue.held_eq_nil h, MsgQueue.held_eq_nil h']

/-- A step of the `MsgQueue` that neither fills `send_elem_` nor receives. -/
theorem Stepped.onQueue {nLen : CInt} {s : MsgSystem ι} {a : MsgAct ι}
    {f : MsgQueue → MsgQueue} (hcallback : ∀ j, a ≠ .callback j)
    (hsend : (f (s.party (actor a)).msgQueue).sendElem = (s.party (actor a)).msgQueue.sendElem)
    (hheld : (f (s.party (actor a)).msgQueue).held = (s.party (actor a)).msgQueue.held) :
    Stepped nLen s a (s.onQueue (actor a) f) := by
  refine .quiet a _ hcallback rfl hsend hheld ?_
  simp only [MsgQueueThread.arrived, hheld]

/-- **Case analysis of a step.** -/
theorem stepped_of_step {nLen : CInt} {s s' : MsgSystem ι} {a : MsgAct ι}
    (h : step nLen s a = some s') : Stepped nLen s a s' := by
  cases a with
  | start i type spawns =>
    simp only [step] at h
    split at h
    · cases h
    · cases h
      refine .quiet _ _ (fun j h => by cases h) rfl (MsgQueueThread.start_frame ..).1
        (MsgQueueThread.start_frame ..).2 ?_
      rw [MsgQueueThread.arrived, (MsgQueueThread.start_frame ..).2]
      rfl
  | setOwner i =>
    simp only [step] at h
    split at h
    · cases h
      have heq : (s.set i { s.party i with starting := false }).onQueue i
          (fun q => { q with owner := true }) =
          s.set i { s.party i with
            starting := false
            msgQueue := { (s.party i).msgQueue with owner := true } } := by
        simp [MsgSystem.onQueue, MsgSystem.set]
      rw [heq]
      exact .quiet _ _ (fun j h => by cases h) rfl rfl rfl rfl
    · cases h
  | setSendId i type =>
    cases h
    exact .onQueue (fun j h => by cases h) rfl rfl
  | setRecvId i type =>
    cases h
    exact .onQueue (fun j h => by cases h) rfl rfl
  | putQueue i pMsg =>
    simp only [step] at h
    split at h
    · rename_i hlen
      cases h
      exact .puts i pMsg hlen
    · cases h
  | msgsnd i k ok =>
    obtain ⟨wanted, hk, heq⟩ := Option.map_eq_some_iff.mp h
    cases ok with
    | false =>
      cases heq
      exact .fails i k
    | true =>
      cases heq
      exact .sends i k wanted hk
  | stop i =>
    cases h
    exact .onQueue (fun j h => by cases h) rfl rfl
  | join i =>
    simp only [step] at h
    split at h
    · rename_i hpc
      cases h
      refine .onQueue (fun j h => by cases h) rfl (held_step ?_ fun _ h => by cases h)
      intro mbody hreturned
      cases hpc.symm.trans hreturned
    · cases h
  | check i =>
    simp only [step] at h
    split at h
    · rename_i hpc
      cases h
      refine .onQueue (fun j h => by cases h) rfl (held_step ?_ ?_)
      · intro mbody hreturned
        cases hpc.symm.trans hreturned
      · intro mbody hpc
        simp only [MsgQueue.check] at hpc
        split at hpc <;> cases hpc
    · cases h
  | msgrcv i =>
    simp only [step, MsgSystem.msgrcv] at h
    split at h
    · rename_i mtype hpc
      obtain ⟨⟨mbody, kernel⟩, hrcv, heq⟩ := Option.map_eq_some_iff.mp h
      cases heq
      exact .receives i mtype mbody kernel hpc hrcv
    · cases h
  | msgrcvFails i =>
    simp only [step] at h
    split at h
    · rename_i mtype hpc
      cases h
      refine .onQueue (fun j h => by cases h) rfl (held_step ?_ ?_)
      · intro mbody hreturned
        cases hpc.symm.trans hreturned
      · exact fun _ h => by cases h
    · cases h
  | callback i =>
    simp only [step, MsgSystem.callback] at h
    split at h
    · rename_i mbody hpc
      obtain ⟨⟨result, p⟩, hrecv, heq⟩ := Option.map_eq_some_iff.mp h
      cases heq
      exact .calls i mbody result p hpc hrecv
    · cases h
  | getQueue i =>
    cases h
    exact .quiet _ _ (fun j h => by cases h) rfl rfl rfl
      (MsgQueueThread.arrived_getQueue _)

/-! ## Between `msgsnd` and `msgrcv` -/

variable {nLen : CInt} {s s' : MsgSystem ι} {a : MsgAct ι}

/-- For every type, what was queued is what was received and then what is still there. -/
def Conserves (s : MsgSystem ι) : Prop :=
  ∀ mtype, TaggedQueue.ofTag mtype s.queued =
    TaggedQueue.ofTag mtype (s.received.map Prod.snd) ++ TaggedQueue.ofTag mtype s.kernel

/-- **Step lemma.** -/
theorem Conserves.step (h : Conserves s) (hstep : Stepped nLen s a s') : Conserves s' := by
  intro mtype
  cases hstep with
  | quiet _ p => exact h mtype
  | puts i pMsg => exact h mtype
  | fails i k => exact h mtype
  | calls i mbody result p => exact h mtype
  | sends i k wanted =>
    simp only [TaggedQueue.ofTag_append, h mtype, List.append_assoc]
    rfl
  | receives i mtype' mbody kernel hpc hrcv =>
    show TaggedQueue.ofTag mtype s.queued = _
    simp only [List.map_append, List.map_singleton, TaggedQueue.ofTag_append, h mtype,
      List.append_assoc]
    congr 1
    by_cases htype : mtype' = mtype
    · subst htype
      rw [TaggedQueue.ofTag_of_receive hrcv, TaggedQueue.ofTag_cons_self]
      rfl
    · rw [TaggedQueue.ofTag_of_receive_ne hrcv htype, TaggedQueue.ofTag_cons_of_ne htype]
      rfl

/-- **No message is lost, duplicated or overtaken by another one of its type** between `msgsnd` and
    `msgrcv`, in any run. -/
theorem conserves_of_run {nBufferLen : ι → ℤ} {acts : List (MsgAct ι)}
    (hrun : (machine nLen nBufferLen).run (machine nLen nBufferLen).init acts = some s) :
    Conserves s :=
  Machine.run_invariant (P := Conserves) (fun _ => rfl)
    (fun _ _ _ h hstep => h.step (stepped_of_step hstep)) hrun

/-! ## In front of `msgsnd` -/

/-- `send_elem_` is what the only call under way has put there. -/
structure Undisturbed (s : MsgSystem ι) : Prop where
  asked : s.asked = s.queued
  calls : ∀ i, (s.party i).calls = [] ∨ (s.party i).calls = [(s.party i).msgQueue.sendElem]

theorem forall_set {P : ι → MsgQueueThread → Prop} {i : ι} {p : MsgQueueThread} (hp : P i p)
    (h : ∀ j, P j (s.party j)) (j : ι) : P j ((s.set i p).party j) := by
  by_cases hji : j = i
  · rw [hji, party_set_self]
    exact hp
  · rw [party_set_of_ne s hji]
    exact h j

/-- **Step lemma**, for calls that do not overlap. -/
theorem Undisturbed.step (h : Undisturbed s) (hok : Apart s a) (hstep : Stepped nLen s a s') :
    Undisturbed s' := by
  have hset : ∀ i p, (p.calls = [] ∨ p.calls = [p.msgQueue.sendElem]) →
      ∀ j, ((s.set i p).party j).calls = [] ∨
        ((s.set i p).party j).calls = [((s.set i p).party j).msgQueue.sendElem] := fun i p hp =>
    forall_set (P := fun _ p => p.calls = [] ∨ p.calls = [p.msgQueue.sendElem]) hp h.calls
  -- a call that has got to `msgsnd` was the only one
  have herase : ∀ i k, (s.party i).calls.eraseIdx k = [] ∨
      (s.party i).calls.eraseIdx k = [(s.party i).msgQueue.sendElem] := by
    intro i k
    rcases h.calls i with hnone | hone
    · rw [hnone]
      exact .inl rfl
    · rw [hone]
      cases k with
      | zero => exact .inl rfl
      | succ k => exact .inr rfl
  cases hstep with
  | quiet _ p hcallback hcalls hsend =>
    refine ⟨h.asked, hset _ p ?_⟩
    rw [hcalls, hsend]
    exact h.calls _
  | puts i pMsg =>
    refine ⟨h.asked, hset i _ (.inr ?_)⟩
    simp only [show (s.party i).calls = [] from hok, List.nil_append]
  | fails i k => exact ⟨h.asked, hset i _ (herase i k)⟩
  | sends i k wanted hk =>
    have hwanted : wanted = (s.party i).msgQueue.sendElem := by
      rcases h.calls i with hnone | hone
      · rw [hnone] at hk
        cases hk
      · rw [hone] at hk
        exact List.mem_singleton.mp (List.mem_of_getElem? hk)
    refine ⟨?_, hset i _ (herase i k)⟩
    simp only [h.asked, hwanted]
  | receives i mtype mbody kernel => exact ⟨h.asked, hset i _ (h.calls i)⟩
  | calls i mbody result p hpc hrecv =>
    refine ⟨h.asked, hset i _ ?_⟩
    simp only [MsgQueueThread.msgQueueRecv] at hrecv
    split at hrecv
    · cases hrecv
      exact h.calls i
    · obtain ⟨r, -, heq⟩ := Option.map_eq_some_iff.mp hrecv
      cases heq
      exact h.calls i

/-! ## Behind `msgrcv` -/

/-- All message bodies have the size of a `T`. -/
structure Sized (nLen : CInt) (s : MsgSystem ι) : Prop where
  kernel : ∀ m ∈ s.kernel, m.2.length = nLen.val.toNat
  party : ∀ i, ((s.party i).calls ≠ [] → (s.party i).msgQueue.sendElem.2.length = nLen.val.toNat) ∧
    ∀ mbody ∈ (s.party i).msgQueue.held, mbody.length = nLen.val.toNat

theorem Sized.set {i : ι} {p : MsgQueueThread} (h : Sized nLen s)
    (hp : (p.calls ≠ [] → p.msgQueue.sendElem.2.length = nLen.val.toNat) ∧
      ∀ mbody ∈ p.msgQueue.held, mbody.length = nLen.val.toNat) : Sized nLen (s.set i p) :=
  ⟨h.kernel, forall_set (P := fun _ p =>
    (p.calls ≠ [] → p.msgQueue.sendElem.2.length = nLen.val.toNat) ∧
      ∀ mbody ∈ p.msgQueue.held, mbody.length = nLen.val.toNat) hp h.party⟩

/-- **Step lemma.** -/
theorem Sized.step (h : Sized nLen s) (hstep : Stepped nLen s a s') : Sized nLen s' := by
  cases hstep with
  | quiet _ p hcallback hcalls hsend hheld =>
    refine h.set ?_
    rw [hcalls, hsend, hheld]
    exact h.party _
  | puts i pMsg hlen => exact h.set ⟨fun _ => hlen, (h.party i).2⟩
  | fails i k =>
    refine h.set ⟨fun hne => (h.party i).1 fun hnil => hne ?_, (h.party i).2⟩
    simp only [hnil, List.eraseIdx_nil]
  | sends i k wanted hk =>
    have hne : (s.party i).calls ≠ [] := fun hnil => by rw [hnil] at hk; cases hk
    have hset : Sized nLen (s.set i { s.party i with calls := (s.party i).calls.eraseIdx k }) :=
      h.set ⟨fun _ => (h.party i).1 hne, (h.party i).2⟩
    refine ⟨fun m hm => ?_, hset.party⟩
    rcases List.mem_append.mp hm with hm | hm
    · exact h.kernel m hm
    · rw [List.mem_singleton.mp hm]
      exact (h.party i).1 hne
  | receives i mtype mbody kernel hpc hrcv =>
    obtain ⟨hmem, hrest⟩ := TaggedQueue.mem_of_receive hrcv
    have hset : Sized nLen (s.onQueue i fun q => { q with pc := .returned mbody }) := by
      refine h.set ⟨(h.party i).1, fun mbody' hmbody' => ?_⟩
      rw [List.mem_singleton.mp hmbody']
      exact h.kernel _ hmem
    exact ⟨fun m hm => h.kernel m (hrest m hm), hset.party⟩
  | calls i mbody result p hpc hrecv =>
    refine h.set ⟨?_, fun mbody hmbody => by cases hmbody⟩
    obtain ⟨hcalls, hqueue⟩ := MsgQueueThread.msgQueueRecv_frame hrecv
    simp only [hcalls, hqueue]
    exact (h.party i).1

/-- Without its last element, a part of a list is not the list. -/
theorem sublist_of_concat {α : Type*} {l r : List α} {x : α} (h : List.Sublist (l ++ [x]) r) :
    List.Sublist l r ∧ l ≠ r := by
  refine ⟨(List.sublist_append_left l [x]).trans h, ?_⟩
  rintro rfl
  have hle := h.length_le
  rw [List.length_append, List.length_singleton] at hle
  omega

/-- **Step lemma** of what `i` has received: a message that the callback does not pass on never
    arrives. -/
theorem arrived_step (i : ι) (hsized : Sized nLen s)
    (hsub : List.Sublist (s.party i).arrived (s.receivedBy i)) (hstep : Stepped nLen s a s') :
    List.Sublist (s'.party i).arrived (s'.receivedBy i) ∧
      ((s'.party i).arrived = s'.receivedBy i ↔
        (s.party i).arrived = s.receivedBy i ∧ Accepted i s a) := by
  -- the steps that leave both sides alone
  have hquiet : (s'.party i).arrived = (s.party i).arrived → s'.receivedBy i = s.receivedBy i →
      Accepted i s a → List.Sublist (s'.party i).arrived (s'.receivedBy i) ∧
        ((s'.party i).arrived = s'.receivedBy i ↔
          (s.party i).arrived = s.receivedBy i ∧ Accepted i s a) := by
    intro harrived hreceived hok
    rw [harrived, hreceived]
    exact ⟨hsub, (and_iff_left hok).symm⟩
  have hset : ∀ j p, p.arrived = (s.party j).arrived →
      ((s.set j p).party i).arrived = (s.party i).arrived := fun j p hp =>
    forall_set (P := fun k p => p.arrived = (s.party k).arrived) hp (fun _ => rfl) i
  cases hstep with
  | quiet _ p hcallback hcalls hsend hheld harrived =>
    exact hquiet (hset _ p harrived) rfl fun h => absurd h (hcallback i)
  | puts j pMsg => exact hquiet (hset j _ rfl) rfl fun h => by cases h
  | fails j k => exact hquiet (hset j _ rfl) rfl fun h => by cases h
  | sends j k wanted => exact hquiet (hset j _ rfl) rfl fun h => by cases h
  | receives j mtype mbody kernel hpc hrcv =>
    by_cases hij : i = j
    · subst hij
      have hnil : (s.party i).msgQueue.held = [] := by
        refine MsgQueue.held_eq_nil ?_
        rw [hpc]
        exact fun _ h => by cases h
      have harrived : ((s.onQueue i fun q => { q with pc := .returned mbody }).party i).arrived =
          (s.party i).arrived ++ [mbody] := by
        simp only [onQueue, party_set_self, MsgQueueThread.arrived, hnil, List.append_nil]
        rfl
      have hreceived : receivedBy { s.onQueue i fun q => { q with pc := .returned mbody } with
          kernel := kernel
          received := s.received ++ [(i, mtype, mbody)] } i = s.receivedBy i ++ [mbody] := by
        simp [receivedBy, TaggedQueue.ofTag_append]
      rw [hreceived]
      simp only [harrived]
      refine ⟨hsub.append (List.Sublist.refl _), ?_⟩
      rw [List.append_left_inj]
      exact (and_iff_left fun h => by cases h).symm
    · refine hquiet ?_ ?_ fun h => by cases h
      · simp only [onQueue, party_set_of_ne s hij]
      · simp [receivedBy, TaggedQueue.ofTag_append, TaggedQueue.ofTag_cons_of_ne (Ne.symm hij)]
  | calls j mbody result p hpc hrecv =>
    by_cases hij : i = j
    · subst hij
      have hheld : (s.party i).msgQueue.held = [mbody] := MsgQueue.held_of_returned hpc
      have hlen : mbody.length = nLen.val.toNat :=
        (hsized.party i).2 mbody (by rw [hheld]; exact List.mem_singleton.mpr rfl)
      rcases MsgQueueThread.msgQueueRecv_cases hlen hrecv with ⟨hok, event, hvalue, rfl⟩ | ⟨hno, rfl⟩
      · refine hquiet ?_ rfl fun _ => hok
        rw [party_set_self, MsgQueueThread.arrived, MsgQueueThread.arrived, hheld]
        simp [hvalue, MsgQueue.held]
      · -- the message is gone, and it was the last one that had been received
        have hlost : (s.party i).arrived = ((s.set i { s.party i with
            msgQueue := { (s.party i).msgQueue with pc := .checks } }).party i).arrived ++ [mbody] := by
          rw [party_set_self, MsgQueueThread.arrived, MsgQueueThread.arrived, hheld]
          simp [MsgQueue.held]
        rw [hlost] at hsub
        obtain ⟨hrest, hne⟩ := sublist_of_concat hsub
        exact ⟨hrest, iff_of_false hne fun h => hno (h.2 rfl)⟩
    · refine hquiet ?_ rfl fun h => ?_
      · simp only [party_set_of_ne s hij]
      · cases h
        exact absurd rfl hij

/-! ## End to end -/

variable {nBufferLen : ι → ℤ} {acts : List (MsgAct ι)}

/-- **What the parties get.** When no two calls of `PutQueue` on one object overlap, the messages of
    each type are received in the order in which `PutQueue` has queued them, and those that were not
    received are still in the queue. Of the messages that a party has received, `GetQueue` has
    returned, or will return, all in order if and only if every call of the callback found an owner
    with room in its event queue. -/
theorem msgQueue_delivers_iff (i : ι)
    (hrun : (machine nLen nBufferLen).run (machine nLen nBufferLen).init acts = some s)
    (hapart : (machine nLen nBufferLen).Along Apart (machine nLen nBufferLen).init acts) :
    (∀ mtype, TaggedQueue.ofTag mtype s.asked =
      TaggedQueue.ofTag mtype (s.received.map Prod.snd) ++ TaggedQueue.ofTag mtype s.kernel) ∧
      ((s.party i).arrived = s.receivedBy i ↔
        (machine nLen nBufferLen).Along (Accepted i) (machine nLen nBufferLen).init acts) := by
  constructor
  · have hasked : Undisturbed s :=
      Machine.run_preserves_along (P := Undisturbed)
        (fun s a s' h (hok : Apart s a) hstep => h.step hok (stepped_of_step hstep))
        ⟨rfl, fun _ => .inl rfl⟩ hapart hrun
    rw [hasked.asked]
    exact conserves_of_run hrun
  · have hinit : Sized nLen (machine nLen nBufferLen).init :=
      ⟨fun m hm => (by cases hm), fun j => ⟨fun hne => absurd rfl hne, fun mbody hm => by cases hm⟩⟩
    have hiff := Machine.run_iff_along (M := machine nLen nBufferLen)
      (I := fun s => Sized nLen s ∧ List.Sublist (s.party i).arrived (s.receivedBy i))
      (Q := fun s => (s.party i).arrived = s.receivedBy i)
      (fun s a s' h hstep =>
        ⟨h.1.step (stepped_of_step hstep), (arrived_step i h.1 h.2 (stepped_of_step hstep)).1⟩)
      (fun s a s' h hstep => (arrived_step i h.1 h.2 (stepped_of_step hstep)).2)
      ⟨hinit, List.Sublist.refl _⟩ hrun
    rw [hiff]
    exact and_iff_right rfl

/-- Two parties: `true` starts with the type `MSG_RECV_TYPE`, and `false` sends it a message. -/
def exchange : List (MsgAct Bool) :=
  [.start true .msgRecvType true, .setOwner true, .start false .msgSendType true, .setOwner false,
    .putQueue false [7, 8], .msgsnd false 0 true, .check true, .msgrcv true, .callback true,
    .getQueue true]

/-- The message gets to the other party. -/
theorem msgQueue_delivers_exchange :
    let M := machine (ι := Bool) ⟨2, by decide⟩ fun _ => 32
    ∃ s, M.run M.init exchange = some s ∧ M.Along Apart M.init exchange ∧
      (s.party true).got.map (·.value) = [[7, 8]] ∧ (s.party true).arrived = s.receivedBy true := by
  intro M
  obtain ⟨s, hrun, hgot⟩ := Machine.exists_of_run_any M M.init exchange
    (fun s => (s.party true).got.map (·.value) = [[7, 8]]) (by decide)
  have hapart : M.Along Apart M.init exchange := by decide
  exact ⟨s, hrun, hapart, by simpa using hgot,
    (msgQueue_delivers_iff true hrun hapart).2.mpr (by decide)⟩

end MsgSystem

end Pdk.Queue
