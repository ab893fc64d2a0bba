import Pdk.Sync.QThread

/-!
# `QThread::close` releases its worker

The quit event is dropped when the queue is full, and the worker may already have passed its
`do_exit()` when stop is requested. Neither strands it: a queue that refuses the quit event is not
empty, and nobody but the worker empties it. `Wired` says which worker the object holds or joins;
`Leaving` is what holds of that worker from the quit event on, and it bounds the steps that the
worker has left.
-/

namespace Pdk.Sync

open Foundation

/-- Inside `close_post`, past its first critical section. -/
def CloserPc.inPost : CloserPc → Bool
  | .joins _ | .resets => true
  | _ => false

/-- Past `close_pre`. -/
def CloserPc.requested : CloserPc → Bool
  | .idle | .closes => false
  | _ => true

namespace WorkerPc

/-- The worker is about to take the queue's mutex inside `remove()`. -/
def removing : WorkerPc → Bool
  | .enters | .awake => true
  | _ => false

/-- The steps that a worker which is leaving has left. -/
def rank : WorkerPc → ℕ
  | .checks => 1
  | .processes => 2
  | .enters | .awake | .parked => 3

end WorkerPc

namespace QThreadSystem

variable {s s' : QThreadSystem}

/-! ## The effect of `add` and `remove` -/

/-- `add` appends the event and notifies the worker, or finds the queue full. -/
theorem add_cases (s : QThreadSystem) (event : EventInfo) :
    s.add event = { s with
        obj := { s.obj with queue := { s.obj.queue with q := s.obj.queue.q ++ [event] } }
        worker := notifyOne s.worker } ∨
      (s.add event = s ∧ (s.obj.queue.closed = true ∨ s.obj.queue.max ≤ (s.obj.queue.q.length : ℤ))) := by
  rcases Queue.put_cases s.obj.queue event with ⟨hput, -⟩ | ⟨hput, hwhy⟩
  · left
    simp only [add, QThread.add, hput]
    rfl
  · right
    refine ⟨?_, hwhy⟩
    simp only [add, QThread.add, hput]
    rfl

/-- `remove` on a queue that was not shut down takes the first event, or parks. -/
theorem remove_cases (w : ℕ) (hopen : s.obj.queue.closed = false) :
    (∃ event rest, s.obj.queue.q = event :: rest ∧ s.remove w = { s with
        obj := { s.obj with queue := { s.obj.queue with q := rest } }
        worker := some (w, .processes)
        taken := s.taken + 1 }) ∨
      (s.obj.queue.q = [] ∧ s.remove w = { s with worker := some (w, .parked) }) := by
  rcases Queue.get_cases s.obj.queue with ⟨event, rest, hq, hget⟩ | ⟨-, hclosed, -⟩ | ⟨hq, -, hget⟩
  · left
    refine ⟨event, rest, hq, ?_⟩
    simp only [remove, hget]
  · rw [hopen] at hclosed
    cases hclosed
  · right
    refine ⟨hq, ?_⟩
    simp only [remove, hget]

/-- After a notification nobody is parked. -/
theorem notifyOne_ne_parked (worker : Option (ℕ × WorkerPc)) (w : ℕ) :
    notifyOne worker ≠ some (w, .parked) := by
  intro h
  unfold notifyOne at h
  split at h
  · cases h
  · rename_i hnot
    exact hnot w h

/-- A notified worker is the worker there was, and it is parked no more. -/
theorem notifyOne_eq_some {worker : Option (ℕ × WorkerPc)} {w : ℕ} {pc : WorkerPc}
    (h : notifyOne worker = some (w, pc)) :
    worker = some (w, pc) ∨ (worker = some (w, .parked) ∧ pc = .awake) := by
  unfold notifyOne at h
  split at h
  · cases h
    exact .inr ⟨rfl, rfl⟩
  · exact .inl h

/-! ## The worker of the object -/

/-- Queue, object and worker belong together. -/
structure Wired (s : QThreadSystem) : Prop where
  room : 1 ≤ s.obj.queue.max
  accepting : s.obj.queue.closed = false
  -- a `put` notifies, so that a worker is parked on an empty queue only
  parked_nil : ∀ w, s.worker = some (w, .parked) → s.obj.queue.q = []
  -- the executing worker is the one of `thread_`, or the one that `close_post` joins
  held : ∀ w pc, s.worker = some (w, pc) →
    (s.obj.thread.thread = some (some w) ∧ s.closer.inPost = false) ∨ s.closer = .joins (some w)
  numbered : ∀ w pc, s.worker = some (w, pc) → w < s.launched
  requested : s.closer.requested = true → s.obj.thread.doExit = true

namespace Wired

/-- As long as `close_post` does not join, the executing worker is the one of `thread_`. -/
theorem thread_eq (h : s.Wired) {pc : CloserPc} (hcloser : s.closer = pc)
    (hpc : ∀ worker, pc ≠ .joins worker) {w : ℕ} {point : WorkerPc}
    (hworker : s.worker = some (w, point)) : s.obj.thread.thread = some (some w) := by
  rcases h.held w point hworker with ⟨hthread, -⟩ | hjoins
  · exact hthread
  · rw [hcloser] at hjoins
    exact absurd hjoins (hpc _)

/-- Nothing executes when a new worker is launched. -/
theorem worker_eq_none (h : s.Wired) (hidle : s.closer = .idle)
    (hfree : s.obj.thread.joinable = false) : s.worker = none := by
  cases hworker : s.worker with
  | none => rfl
  | some p =>
    have hthread := h.thread_eq hidle nofun hworker
    simp [Thread.joinable, hthread] at hfree

theorem add (h : s.Wired) (event : EventInfo) : (s.add event).Wired := by
  rcases add_cases s event with heq | ⟨heq, -⟩
  · rw [heq]
    -- a notified worker is at another program point, but it is the same one
    have hsame : ∀ w pc, notifyOne s.worker = some (w, pc) → ∃ pc', s.worker = some (w, pc') := by
      intro w pc hw
      rcases notifyOne_eq_some hw with hw | ⟨hw, -⟩
      · exact ⟨pc, hw⟩
      · exact ⟨.parked, hw⟩
    refine ⟨h.room, h.accepting, ?_, ?_, ?_, h.requested⟩
    · intro w hw
      exact absurd hw (notifyOne_ne_parked s.worker w)
    · intro w pc hw
      obtain ⟨pc', hw'⟩ := hsame w pc hw
      exact h.held w pc' hw'
    · intro w pc hw
      obtain ⟨pc', hw'⟩ := hsame w pc hw
      exact h.numbered w pc' hw'
  · rw [heq]
    exact h

/-- The worker may move to a program point at which it is not parked. -/
theorem move (h : s.Wired) {w : ℕ} {pc pc' : WorkerPc} (hworker : s.worker = some (w, pc))
    (hpc' : pc' = .parked → s.obj.queue.q = []) :
    Wired { s with worker := some (w, pc') } := by
  refine ⟨h.room, h.accepting, ?_, ?_, ?_, h.requested⟩
  · intro v hv
    cases hv
    exact hpc' rfl
  · intro v pc'' hv
    cases hv
    exact h.held w pc hworker
  · intro v pc'' hv
    cases hv
    exact h.numbered w pc hworker

theorem remove (h : s.Wired) {w : ℕ} {pc : WorkerPc} (hworker : s.worker = some (w, pc)) :
    (s.remove w).Wired := by
  rcases remove_cases w h.accepting with ⟨event, rest, -, heq⟩ | ⟨hnil, heq⟩
  · rw [heq]
    have hmoved : Wired { s with worker := some (w, .processes) } := h.move hworker nofun
    exact ⟨hmoved.room, hmoved.accepting, nofun, hmoved.held, hmoved.numbered, hmoved.requested⟩
  · rw [heq]
    exact h.move hworker fun _ => hnil

theorem stepped {a : QThreadAct} (h : s.Wired) (hstep : Stepped s a s') : s'.Wired := by
  cases hstep with
  | already spawns hidle => exact h
  | launches hidle hfree =>
    refine ⟨h.room, h.accepting, nofun, ?_, ?_, ?_⟩
    · rintro w pc ⟨⟩
      exact .inl ⟨rfl, by rw [hidle]; rfl⟩
    · rintro w pc ⟨⟩
      exact Nat.lt_succ_self _
    · intro hreq
      rw [hidle] at hreq
      cases hreq
  | throws hidle hfree =>
    have hnone := h.worker_eq_none hidle hfree
    refine ⟨h.room, h.accepting, h.parked_nil, ?_, h.numbered, ?_⟩
    · intro w pc hw
      rw [hnone] at hw
      cases hw
    · intro hreq
      rw [hidle] at hreq
      cases hreq
  | calls hidle =>
    refine ⟨h.room, h.accepting, h.parked_nil, ?_, h.numbered, nofun⟩
    intro w pc hw
    exact .inl ⟨h.thread_eq hidle nofun hw, rfl⟩
  | requests hpc =>
    refine ⟨h.room, h.accepting, h.parked_nil, ?_, h.numbered, fun _ => rfl⟩
    intro w pc hw
    exact .inl ⟨h.thread_eq hpc nofun hw, rfl⟩
  | posts hpc =>
    have hadd := h.add EventInfo.quit
    have hcloser : (s.add EventInfo.quit).closer = .quits := hpc
    refine ⟨hadd.room, hadd.accepting, hadd.parked_nil, ?_, hadd.numbered, ?_⟩
    · intro w pc hw
      exact .inl ⟨hadd.thread_eq hcloser nofun hw, rfl⟩
    · intro _
      exact hadd.requested (by rw [hcloser]; rfl)
  | turnsBack hpc hwhy =>
    refine ⟨h.room, h.accepting, h.parked_nil, ?_, h.numbered, nofun⟩
    intro w pc hw
    exact .inl ⟨h.thread_eq hpc nofun hw, rfl⟩
  | movesOut worker hpc hthread =>
    refine ⟨h.room, h.accepting, h.parked_nil, ?_, h.numbered, ?_⟩
    · intro w pc hw
      have hheld := h.thread_eq hpc nofun hw
      rw [hthread] at hheld
      cases hheld
      exact .inr rfl
    · intro _
      exact h.requested (by rw [hpc]; rfl)
  | joined worker hpc hdone =>
    refine ⟨h.room, h.accepting, h.parked_nil, ?_, h.numbered, ?_⟩
    · intro w pc hw
      rcases h.held w pc hw with ⟨-, hpost⟩ | hjoins
      · rw [hpc] at hpost
        cases hpost
      · -- the worker that was joined has returned
        rw [hpc] at hjoins
        cases hjoins
        have hgone := hdone w rfl
        have hworker : s.worker = some (w, pc) := hw
        simp [executing, hworker] at hgone
    · intro _
      exact h.requested (by rw [hpc]; rfl)
  | resets hpc =>
    refine ⟨h.room, h.accepting, h.parked_nil, ?_, h.numbered, nofun⟩
    intro w pc hw
    rcases h.held w pc hw with ⟨-, hpost⟩ | hjoins
    · rw [hpc] at hpost
      cases hpost
    · rw [hpc] at hjoins
      cases hjoins
  | adds event => exact h.add event
  | exits w hpc hexit => exact ⟨h.room, h.accepting, nofun, nofun, nofun, h.requested⟩
  | stays w hpc hexit => exact h.move hpc nofun
  | removes w hpc =>
    rcases hpc with hpc | hpc
    · exact h.remove hpc
    · exact h.remove hpc
  | loops w hpc => exact h.move hpc nofun
  | wakes w hpc => exact h.move hpc nofun

end Wired

theorem wired_init {nBufferLen : ℤ} (hlen : 1 ≤ nBufferLen) : (machine nBufferLen).init.Wired := by
  have hnone : (machine nBufferLen).init.worker = none := rfl
  refine ⟨hlen, rfl, ?_, ?_, ?_, ?_⟩
  · simp [hnone]
  · simp [hnone]
  · simp [hnone]
  · intro hreq
    cases hreq

/-! ## From the quit event on -/

/-- Once `close` has called `add_quit_event`, the worker is told to exit, it is not parked, and
    there is something to take for it in case it is inside `remove()`; what it takes is the first
    and only event since then. -/
structure Leaving (s : QThreadSystem) : Prop where
  taken_le : s.taken ≤ 1
  told : ∀ w pc, s.worker = some (w, pc) → s.obj.thread.doExit = true
  running : ∀ w, s.worker ≠ some (w, .parked)
  served : ∀ w pc, s.worker = some (w, pc) → pc.removing = true →
    s.obj.queue.q ≠ [] ∧ s.taken = 0

namespace Leaving

theorem of_none (htaken : s.taken ≤ 1) (hnone : s.worker = none) : s.Leaving := by
  refine ⟨htaken, ?_, ?_, ?_⟩
  · simp [hnone]
  · simp [hnone]
  · simp [hnone]

theorem add (h : s.Leaving) (event : EventInfo) : (s.add event).Leaving := by
  rcases add_cases s event with heq | ⟨heq, -⟩
  · rw [heq]
    -- nobody is parked, so that nobody is awakened
    have hsame : notifyOne s.worker = s.worker := by
      unfold notifyOne
      split
      · rename_i w hparked
        exact absurd hparked (h.running w)
      · rfl
    simp only [hsame]
    refine ⟨h.taken_le, h.told, h.running, ?_⟩
    intro w pc hw hremoving
    exact ⟨by simp, (h.served w pc hw hremoving).2⟩
  · rw [heq]
    exact h

/-- The worker may move to any point outside `remove()`. -/
theorem move (h : s.Leaving) {w : ℕ} {pc pc' : WorkerPc} (hworker : s.worker = some (w, pc))
    (hpc' : pc' = .checks ∨ pc' = .processes) : Leaving { s with worker := some (w, pc') } := by
  refine ⟨h.taken_le, ?_, ?_, ?_⟩
  · intro v pc'' _
    exact h.told w pc hworker
  · rintro v hv
    cases hv
    rcases hpc' with hpc' | hpc' <;> cases hpc'
  · intro v pc'' hv hremoving
    cases hv
    rcases hpc' with rfl | rfl <;> cases hremoving

/-- Inside `remove()` there is an event for the worker, the first one since the quit event. -/
theorem remove (h : s.Leaving) (hwired : s.Wired) {w : ℕ} {pc : WorkerPc}
    (hworker : s.worker = some (w, pc)) (hremoving : pc.removing = true) :
    (s.remove w).Leaving ∧ (s.remove w).worker = some (w, .processes) := by
  obtain ⟨hne, htaken⟩ := h.served w pc hworker hremoving
  rcases remove_cases w hwired.accepting with ⟨event, rest, -, heq⟩ | ⟨hnil, -⟩
  · rw [heq]
    have hmoved : Leaving { s with worker := some (w, .processes) } := h.move hworker (.inr rfl)
    refine ⟨⟨?_, hmoved.told, hmoved.running, nofun⟩, rfl⟩
    simp only [htaken]
    exact Nat.le_refl 1
  · exact absurd hnil hne

end Leaving

/-- The quit event brings the worker into `Leaving`: it was accepted and the worker notified, or
    the queue was full and the worker was not parked. -/
theorem leaving_of_posts (hwired : s.Wired) (hpc : s.closer = .quits) :
    Leaving { s.addQuitEvent with closer := .posted, quitPosted := true, taken := 0 } := by
  have hexit : s.obj.thread.doExit = true := hwired.requested (by rw [hpc]; rfl)
  have hfull : (s.addQuitEvent).obj.queue.q ≠ [] :=
    Queue.put_ne_nil hwired.room hwired.accepting EventInfo.quit
  have hdoExit : (s.addQuitEvent).obj.thread.doExit = true := hexit
  refine ⟨Nat.zero_le 1, fun _ _ _ => hdoExit, ?_, fun _ _ _ _ => ⟨hfull, rfl⟩⟩
  intro w hparked
  have hwired' := hwired.add EventInfo.quit
  exact hfull (hwired'.parked_nil w hparked)

/-- What the quit event has established lasts until the next launch. -/
theorem leaving_stepped {a : QThreadAct} (hwired : s.Wired)
    (h : s.quitPosted = true → s.Leaving) (hstep : Stepped s a s') :
    s'.quitPosted = true → s'.Leaving := by
  intro hquit
  cases hstep with
  | already spawns hidle => exact h hquit
  | launches hidle hfree => cases hquit
  | throws hidle hfree =>
    exact .of_none (h hquit).taken_le (hwired.worker_eq_none hidle hfree)
  | calls hidle =>
    have hs := h hquit
    exact ⟨hs.taken_le, hs.told, hs.running, hs.served⟩
  | requests hpc =>
    have hs := h hquit
    exact ⟨hs.taken_le, fun _ _ _ => rfl, hs.running, hs.served⟩
  | posts hpc => exact leaving_of_posts hwired hpc
  | turnsBack hpc hwhy =>
    have hs := h hquit
    exact ⟨hs.taken_le, hs.told, hs.running, hs.served⟩
  | movesOut worker hpc hthread =>
    have hs := h hquit
    exact ⟨hs.taken_le, hs.told, hs.running, hs.served⟩
  | joined worker hpc hdone =>
    have hs := h hquit
    exact ⟨hs.taken_le, hs.told, hs.running, hs.served⟩
  | resets hpc =>
    have hs := h hquit
    exact ⟨hs.taken_le, hs.told, hs.running, hs.served⟩
  | adds event =>
    have hposted : s.quitPosted = true := hquit
    exact (h hposted).add event
  | exits w hpc hexit => exact .of_none (h hquit).taken_le rfl
  | stays w hpc hexit =>
    have htold := (h hquit).told w .checks hpc
    rw [hexit] at htold
    cases htold
  | removes w hpc =>
    have hposted : s.quitPosted = true := by
      rcases remove_cases w hwired.accepting with ⟨event, rest, -, heq⟩ | ⟨-, heq⟩
      · rw [heq] at hquit
        exact hquit
      · rw [heq] at hquit
        exact hquit
    rcases hpc with hpc | hpc
    · exact ((h hposted).remove hwired hpc rfl).1
    · exact ((h hposted).remove hwired hpc rfl).1
  | loops w hpc => exact (h hquit).move hpc (.inl rfl)
  | wakes w hpc => exact absurd hpc ((h hquit).running w)

/-- Along every run, from the quit event on. -/
theorem leaving_of_run {nBufferLen : ℤ} (hlen : 1 ≤ nBufferLen) {acts : List QThreadAct}
    (hrun : (machine nBufferLen).run (machine nBufferLen).init acts = some s) :
    s.Wired ∧ (s.quitPosted = true → s.Leaving) := by
  refine Machine.run_invariant (P := fun s => s.Wired ∧ (s.quitPosted = true → s.Leaving)) ?_ ?_ hrun
  · exact ⟨wired_init hlen, nofun⟩
  · rintro s a s' ⟨hwired, hleaving⟩ hstep
    have hstepped := stepped_of_step hstep
    exact ⟨hwired.stepped hstepped, leaving_stepped hwired hleaving hstepped⟩

/-! ## The steps that are left -/

/-- The steps that the invocation `w` has left once it is leaving. -/
def remaining (w : ℕ) (s : QThreadSystem) : ℕ :=
  match s.worker with
  | some (v, pc) => if v = w then pc.rank else 0
  | none => 0

theorem remaining_of_worker {w : ℕ} {pc : WorkerPc} (h : s.worker = some (w, pc)) :
    s.remaining w = pc.rank := by
  simp [remaining, h]

theorem remaining_of_ne {w v : ℕ} {pc : WorkerPc} (h : s.worker = some (v, pc)) (hne : v ≠ w) :
    s.remaining w = 0 := by
  simp [remaining, h, hne]

theorem remaining_of_none {w : ℕ} (h : s.worker = none) : s.remaining w = 0 := by
  simp [remaining, h]

theorem remaining_congr {w : ℕ} (h : s'.worker = s.worker) : s'.remaining w = s.remaining w := by
  simp [remaining, h]

theorem add_worker {w : ℕ} {pc : WorkerPc} {event : EventInfo}
    (h : (s.add event).worker = some (w, pc)) : ∃ pc', s.worker = some (w, pc') := by
  rcases add_cases s event with heq | ⟨heq, -⟩
  · rw [heq] at h
    rcases notifyOne_eq_some h with hw | ⟨hw, -⟩
    · exact ⟨pc, hw⟩
    · exact ⟨.parked, hw⟩
  · rw [heq] at h
    exact ⟨pc, h⟩

theorem remove_worker {v w : ℕ} {pc : WorkerPc} (h : (s.remove v).worker = some (w, pc)) : w = v := by
  unfold remove at h
  split at h <;> cases h <;> rfl

@[simp]
theorem remove_quitPosted (v : ℕ) : (s.remove v).quitPosted = s.quitPosted := by
  unfold remove
  split <;> rfl

@[simp]
theorem remove_launched (v : ℕ) : (s.remove v).launched = s.launched := by
  unfold remove
  split <;> rfl

theorem launched_le_stepped {a : QThreadAct} (hstep : Stepped s a s') : s.launched ≤ s'.launched := by
  cases hstep with
  | launches hidle hfree => exact Nat.le_succ _
  | removes v hpc => rw [remove_launched]
  | _ => exact Nat.le_refl _

/-- An invocation that was launched before and executes after a step has executed before it, and
    the quit event stays posted for it. -/
theorem worker_stepped {a : QThreadAct} {w : ℕ} {pc : WorkerPc} (hlaunched : w < s.launched)
    (hstep : Stepped s a s') (hworker : s'.worker = some (w, pc)) :
    (∃ pc', s.worker = some (w, pc')) ∧ (s.quitPosted = true → s'.quitPosted = true) := by
  cases hstep with
  | launches hidle hfree =>
    cases hworker
    exact absurd hlaunched (Nat.lt_irrefl _)
  | posts hpc => exact ⟨add_worker hworker, fun _ => rfl⟩
  | adds event => exact ⟨add_worker hworker, id⟩
  | exits v hpc hexit => cases hworker
  | stays v hpc hexit =>
    cases hworker
    exact ⟨⟨_, hpc⟩, id⟩
  | removes v hpc =>
    obtain rfl := remove_worker hworker
    rw [remove_quitPosted]
    rcases hpc with hpc | hpc
    · exact ⟨⟨_, hpc⟩, id⟩
    · exact ⟨⟨_, hpc⟩, id⟩
  | loops v hpc =>
    cases hworker
    exact ⟨⟨_, hpc⟩, id⟩
  | wakes v hpc =>
    cases hworker
    exact ⟨⟨_, hpc⟩, id⟩
  | _ => exact ⟨⟨pc, hworker⟩, id⟩

/-- The invocation `w` has been launched, and if it still executes, it is leaving. -/
structure Departing (w : ℕ) (s : QThreadSystem) : Prop where
  wired : s.Wired
  leaving : s.quitPosted = true → s.Leaving
  launched : w < s.launched
  posted : ∀ pc, s.worker = some (w, pc) → s.quitPosted = true

theorem Departing.stepped {a : QThreadAct} {w : ℕ} (h : Departing w s) (hstep : Stepped s a s') :
    Departing w s' := by
  refine ⟨h.wired.stepped hstep, leaving_stepped h.wired h.leaving hstep, ?_, ?_⟩
  · exact Nat.lt_of_lt_of_le h.launched (launched_le_stepped hstep)
  · intro pc hworker
    obtain ⟨⟨pc', hbefore⟩, hkeep⟩ := worker_stepped h.launched hstep hworker
    exact hkeep (h.posted pc' hbefore)

/-- Adding an event changes nothing for a worker that is not parked. -/
theorem remaining_add_le {w : ℕ} (h : Departing w s) (event : EventInfo) :
    (s.add event).remaining w ≤ s.remaining w := by
  rcases add_cases s event with heq | ⟨heq, -⟩
  · rw [heq]
    unfold notifyOne
    split
    · rename_i v hparked
      by_cases hvw : v = w
      · subst hvw
        exact absurd hparked ((h.leaving (h.posted .parked hparked)).running v)
      · rw [remaining_of_ne rfl hvw]
        exact Nat.zero_le _
    · exact Nat.le_of_eq (remaining_congr rfl)
  · rw [heq]

/-- A worker inside `remove()` takes an event and leaves it. -/
theorem remaining_remove_le {v w : ℕ} (h : Departing w s)
    (hpc : s.worker = some (v, .enters) ∨ s.worker = some (v, .awake)) :
    (s.remove v).remaining w ≤ s.remaining w - 1 := by
  by_cases hvw : v = w
  · subst hvw
    rcases hpc with hpc | hpc
    · have hleaving := h.leaving (h.posted .enters hpc)
      rw [remaining_of_worker hpc, remaining_of_worker (hleaving.remove h.wired hpc rfl).2]
      exact Nat.le_refl _
    · have hleaving := h.leaving (h.posted .awake hpc)
      rw [remaining_of_worker hpc, remaining_of_worker (hleaving.remove h.wired hpc rfl).2]
      exact Nat.le_refl _
  · rcases remove_cases v h.wired.accepting with ⟨event, rest, -, heq⟩ | ⟨-, heq⟩
    · rw [heq, remaining_of_ne rfl hvw]
      exact Nat.zero_le _
    · rw [heq, remaining_of_ne rfl hvw]
      exact Nat.zero_le _

/-- The worker's own steps lower what it has left to do, and no other step raises it. -/
theorem remaining_stepped {a : QThreadAct} {w : ℕ} (h : Departing w s) (hstep : Stepped s a s') :
    s'.remaining w ≤ s.remaining w - (decide (a = .work)).toNat := by
  cases hstep with
  | already spawns hidle => exact Nat.le_refl _
  | launches hidle hfree =>
    -- a new invocation has another number
    rw [remaining_of_ne (v := s.launched) rfl (Nat.ne_of_gt h.launched)]
    exact Nat.zero_le _
  | throws hidle hfree => exact Nat.le_refl _
  | calls hidle => exact Nat.le_refl _
  | requests hpc => exact Nat.le_refl _
  | turnsBack hpc hwhy => exact Nat.le_refl _
  | movesOut worker hpc hthread => exact Nat.le_refl _
  | joined worker hpc hdone => exact Nat.le_refl _
  | resets hpc => exact Nat.le_refl _
  | posts hpc => exact remaining_add_le h EventInfo.quit
  | adds event => exact remaining_add_le h event
  | exits v hpc hexit =>
    rw [remaining_of_none rfl]
    exact Nat.zero_le _
  | stays v hpc hexit =>
    by_cases hvw : v = w
    · subst hvw
      have htold := (h.leaving (h.posted .checks hpc)).told v .checks hpc
      rw [hexit] at htold
      cases htold
    · rw [remaining_of_ne (v := v) rfl hvw]
      exact Nat.zero_le _
  | removes v hpc => exact remaining_remove_le h hpc
  | loops v hpc =>
    by_cases hvw : v = w
    · subst hvw
      rw [remaining_of_worker hpc, remaining_of_worker (w := v) rfl]
      exact Nat.le_refl _
    · rw [remaining_of_ne (v := v) rfl hvw]
      exact Nat.zero_le _
  | wakes v hpc =>
    by_cases hvw : v = w
    · subst hvw
      exact absurd hpc ((h.leaving (h.posted .parked hpc)).running v)
    · rw [remaining_of_ne (v := v) rfl hvw]
      exact Nat.zero_le _

/-- A worker that is leaving returns after at most three steps of its own, whatever the others do
    in between. -/
theorem executing_eq_false_of_count {nBufferLen : ℤ} {w : ℕ} (h : Departing w s)
    {acts : List QThreadAct} (hrun : (machine nBufferLen).run s acts = some s')
    (hcount : 3 ≤ acts.count .work) : s'.executing w = false := by
  have hrank := Machine.run_rank (P := Departing w) (remaining w) (fun a => decide (a = .work))
    (fun s a s' hs hstep =>
      ⟨hs.stepped (stepped_of_step hstep), remaining_stepped hs (stepped_of_step hstep)⟩) h hrun
  have hinit : s.remaining w ≤ 3 := by
    unfold remaining WorkerPc.rank
    split
    · split
      · split <;> decide
      · decide
    · decide
  have hwork : acts.countP (fun a => decide (a = .work)) = acts.count .work := by
    rw [List.count_eq_countP]
    congr 1
  have hzero : s'.remaining w = 0 := by omega
  cases hworker : s'.worker with
  | none => simp [executing, hworker]
  | some p =>
    obtain ⟨v, pc⟩ := p
    by_cases hvw : v = w
    · subst hvw
      rw [remaining_of_worker hworker] at hzero
      cases pc <;> cases hzero
    · simp [executing, hworker, hvw]

/-- A worker that is not parked can take a step. -/
theorem exists_work {w : ℕ} {pc : WorkerPc} (hworker : s.worker = some (w, pc))
    (hpc : pc ≠ .parked) : ∃ s', s.step .work = some s' := by
  simp only [step, work, hworker]
  cases pc with
  | checks => by_cases hexit : s.obj.thread.doExit = true <;> simp [hexit]
  | enters => exact ⟨_, rfl⟩
  | parked => exact absurd rfl hpc
  | awake => exact ⟨_, rfl⟩
  | processes => exact ⟨_, rfl⟩

/-- **`close` does not strand its worker.** In every reachable state after the closer's
    `add_quit_event`, whether the event was accepted or not, the worker has taken at most one event
    since; if it still executes, it is not parked, it will find `do_exit()` true, its next step is
    enabled, and after three steps of its own it has returned. -/
theorem close_releases_worker {nBufferLen : ℤ} (hlen : 1 ≤ nBufferLen) {acts : List QThreadAct}
    (hrun : (machine nBufferLen).run (machine nBufferLen).init acts = some s)
    (hquit : s.quitPosted = true) :
    s.taken ≤ 1 ∧ ∀ w pc, s.worker = some (w, pc) →
      pc ≠ .parked ∧ s.obj.thread.doExit = true ∧
      (∃ s', (machine nBufferLen).step s .work = some s') ∧
      ∀ acts' s', (machine nBufferLen).run s acts' = some s' → 3 ≤ acts'.count .work →
        s'.executing w = false := by
  obtain ⟨hwired, hposted⟩ := leaving_of_run hlen hrun
  have hleaving := hposted hquit
  refine ⟨hleaving.taken_le, ?_⟩
  intro w pc hworker
  have hpc : pc ≠ .parked := by
    rintro rfl
    exact hleaving.running w hworker
  have hdeparting : Departing w s := ⟨hwired, hposted, hwired.numbered w pc hworker, fun _ _ => hquit⟩
  exact ⟨hpc, hleaving.told w pc hworker, exists_work hworker hpc,
    fun acts' s' => executing_eq_false_of_count hdeparting⟩

/-- The queue has room for one event. The worker has passed its `do_exit()`, a producer fills the
    queue, `close` requests stop and its quit event is dropped: the worker is inside `remove()`. -/
theorem close_releases_worker_dropped :
    ∃ s, (machine 1).run (machine 1).init
        [.create true, .work, .add (.build 1 0 []), .close, .next, .next] = some s ∧
      s.quitPosted = true ∧ s.obj.queue.q = [.build 1 0 []] ∧ s.worker = some (0, .enters) ∧
      s.taken ≤ 1 ∧ ∀ acts' s', (machine 1).run s acts' = some s' → 3 ≤ acts'.count .work →
        s'.executing 0 = false := by
  obtain ⟨s, hrun, hp⟩ := Machine.exists_of_run_any (machine 1) (machine 1).init
    [.create true, .work, .add (.build 1 0 []), .close, .next, .next]
    (fun s => s.quitPosted && decide (s.obj.queue.q = [.build 1 0 []]) &&
      decide (s.worker = some (0, .enters))) (by decide)
  simp only [Bool.and_eq_true, decide_eq_true_eq] at hp
  obtain ⟨⟨hquit, hq⟩, hworker⟩ := hp
  obtain ⟨htaken, hall⟩ := close_releases_worker (by decide) hrun hquit
  exact ⟨s, hrun, hquit, hq, hworker, htaken, (hall 0 .enters hworker).2.2.2⟩

end QThreadSystem

end Pdk.Sync
