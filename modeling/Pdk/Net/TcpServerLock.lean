import Pdk.Net.TcpServer

/-!
# Channel teardown under `lock_`

`Deadlocked` says that a thread which holds `lock_` is in the join of `~TcpChannel`, for a receive
thread that waits for `lock_`. `check_channels` does not get there: it removes channels whose
`thread_proc` has set `TCP_DISC`, which is the last thing it does. `close_channel` and `~TcpServer`
remove whatever channel they are asked for, or find, and its receive thread may be on its way into
`broadcast`.

The condition on a removal is that the receive thread will not call back any more (`Harmless`): it is
at the test of `do_exit()` or behind its loop, or `OnAfterReceive` is null and it is not in the
callback.
-/

namespace Pdk.Net

open Foundation

/-- Once stop is requested, the thread does not enter the callback any more. -/
def WorkerPc.Harmless (onAfterReceive : Bool) : WorkerPc → Prop
  | .receiving | .extracting => onAfterReceive = false
  | .calling _ | .waiting _ | .sending _ => False
  | .unborn | .looping | .leaving | .exited => True

theorem WorkerPc.Harmless.of_null {onAfterReceive : Bool} {pc : WorkerPc}
    (h : pc.Harmless onAfterReceive) : pc.Harmless false := by
  cases pc with
  | receiving => rfl
  | extracting => rfl
  | _ => exact h

namespace ServerSystem

variable {α : Type*} {s s' : ServerSystem α}

def Harmless (s : ServerSystem α) (c : ℕ) : Prop :=
  (s.worker c).Harmless s.onAfterReceive

/-- A thread that holds `lock_` joins a receive thread that waits for it. -/
def Deadlocked (s : ServerSystem α) : Prop :=
  ∃ t c inner, s.lock = some t ∧ s.destroys t = some c ∧ s.worker c = .waiting inner

/-- `close_channel` and `clear()` remove a channel only when its receive thread is harmless. -/
def Careful (s : ServerSystem α) : ServerAct α → Prop
  | .app a .next =>
    (∀ c, s.appPc a = .closing c → c ∈ s.channels → s.Harmless c) ∧
      (∀ c, s.appPc a = .clearing → s.channels.head? = some c → s.Harmless c)
  | _ => True

/-! ## Mutual exclusion -/

/-- Who is inside a critical section holds `lock_`. -/
def Exclusive (s : ServerSystem α) : Prop :=
  ∀ t, s.holds t = true → s.lock = some t

section

variable {t : ServerThread α}

theorem Exclusive.move (h : s.Exclusive) (hothers : ∀ u, u ≠ t → s'.holds u = s.holds u)
    (hself : s'.holds t = true → s.holds t = true) (hlock : s'.lock = s.lock) : s'.Exclusive := by
  intro u hu
  rw [hlock]
  by_cases hut : u = t
  · subst hut
    exact h u (hself hu)
  · rw [hothers u hut] at hu
    exact h u hu

theorem Exclusive.acquire (h : s.Exclusive) (hothers : ∀ u, u ≠ t → s'.holds u = s.holds u)
    (hfree : s.lock = none) (hlock : s'.lock = some t) : s'.Exclusive := by
  intro u hu
  by_cases hut : u = t
  · rw [hlock, hut]
  · rw [hothers u hut] at hu
    rw [h u hu] at hfree
    cases hfree

theorem Exclusive.release (h : s.Exclusive) (hothers : ∀ u, u ≠ t → s'.holds u = s.holds u)
    (hold : s.holds t = true ∨ s.lock = none) (hself : s'.holds t = false) : s'.Exclusive := by
  intro u hu
  by_cases hut : u = t
  · subst hut
    rw [hself] at hu
    cases hu
  · rw [hothers u hut] at hu
    obtain hheld | hfree := hold
    · have huLock := h u hu
      rw [h t hheld] at huLock
      exact absurd (Option.some.inj huLock).symm hut
    · rw [h u hu] at hfree
      cases hfree

theorem holds_goAccept (pc : AcceptPc) (ht : t ≠ .accept) :
    (s.goAccept pc).holds t = s.holds t := by
  cases t with
  | accept => exact absurd rfl ht
  | channel c => rfl
  | app a => rfl

theorem holds_setWorker {c : ℕ} (pc : WorkerPc) (ht : t ≠ .channel c) :
    (s.setWorker c pc).holds t = s.holds t := by
  cases t with
  | accept => rfl
  | channel d =>
    have hdc : d ≠ c := fun h => ht (by rw [h])
    show (Function.update s.worker c pc d).holds = (s.worker d).holds
    rw [Function.update_of_ne hdc]
  | app a => rfl

theorem holds_goApp [DecidableEq α] {a : α} (pc : AppPc) (ht : t ≠ .app a) :
    (s.goApp a pc).holds t = s.holds t := by
  cases t with
  | accept => rfl
  | channel c => rfl
  | app b =>
    have hba : b ≠ a := fun h => ht (by rw [h])
    show (Function.update s.appPc a pc b).holds = (s.appPc b).holds
    rw [Function.update_of_ne hba]

end

variable [DecidableEq α]

theorem holds_goApp_self (a : α) (pc : AppPc) : (s.goApp a pc).holds (.app a) = pc.holds := by
  simp [holds, goApp]

omit [DecidableEq α] in
theorem holds_setWorker_self (c : ℕ) (pc : WorkerPc) :
    (s.setWorker c pc).holds (.channel c) = pc.holds := by
  simp [holds, setWorker]

omit [DecidableEq α] in
/-- Without `lock_`, the receive thread does not get into a critical section. -/
theorem not_holds_next {stop useEvent onAfterReceive : Bool} {pc pc' : WorkerPc} {act : WorkerAct}
    (h : pc.next stop useEvent onAfterReceive act = some pc') : pc'.holds = false := by
  unfold WorkerPc.next at h
  split at h
  all_goals
    first
    | (cases h; rfl)
    | (repeat' split at h)
      all_goals
        cases h
        try rfl

/-- **Step lemma** of mutual exclusion. -/
theorem exclusive_step {act : ServerAct α} (h : s.Exclusive) (hstep : Stepped s act s') :
    s'.Exclusive := by
  cases hstep with
  | acceptMoves act pc hholds hdestroys =>
    refine h.move (t := .accept) (fun u hu => holds_goAccept _ hu) ?_ rfl
    intro hpc
    exact hholds.symm.trans hpc
  | acceptLocks ready hpc hfree =>
    exact h.acquire (t := .accept) (fun u hu => holds_goAccept _ hu) hfree rfl
  | acceptErases ready c rest hpc hstatus =>
    refine h.move (t := .accept) (fun u hu => holds_goAccept _ hu) ?_ rfl
    intro _
    show s.acceptPc.holds = true
    rw [hpc]
    rfl
  | acceptUnlocks pc hold hholds hdestroys =>
    exact h.release (t := .accept) (fun u hu => holds_goAccept _ hu) (.inl hold) hholds
  | connects hpc =>
    refine (h.move (t := .channel s.created) (fun u hu => holds_setWorker .looping hu) ?_ rfl).move
      (t := .accept) (fun u hu => holds_goAccept _ hu) nofun rfl
    rw [holds_setWorker_self]
    exact nofun
  | inserts c hpc hfree =>
    exact h.move (t := .accept) (fun u hu => holds_goAccept _ hu) nofun rfl
  | workerMoves c act pc hnext =>
    refine h.move (t := .channel c) (fun u hu => holds_setWorker _ hu) ?_ rfl
    rw [holds_setWorker_self, not_holds_next hnext]
    exact nofun
  | workerLocks c inner hpc hfree =>
    exact h.acquire (t := .channel c) (fun u hu => holds_setWorker _ hu) hfree rfl
  | workerUnlocks c inner hpc =>
    refine h.release (t := .channel c) (fun u hu => holds_setWorker _ hu) (.inl ?_)
      (holds_setWorker_self c _)
    show (s.worker c).holds = true
    rw [hpc]
    rfl
  | workerExits c hpc =>
    refine h.move (t := .channel c) (fun u hu => holds_setWorker _ hu) ?_ rfl
    rw [holds_setWorker_self]
    exact nofun
  | appMoves a act pc hholds hdestroys =>
    refine h.move (t := .app a) (fun u hu => holds_goApp _ hu) ?_ rfl
    rw [holds_goApp_self, hholds]
    exact id
  | appLocks a pc hfree hdestroys =>
    exact h.acquire (t := .app a) (fun u hu => holds_goApp _ hu) hfree rfl
  | closes a c hpc hmem hfree =>
    exact h.acquire (t := .app a) (fun u hu => holds_goApp _ hu) hfree rfl
  | clears a c hpc hhead =>
    refine h.move (t := .app a) (fun u hu => holds_goApp _ hu) ?_ rfl
    intro _
    show (s.appPc a).holds = true
    rw [hpc]
    rfl
  | returns a hlock =>
    exact h.release (t := .app a) (fun u hu => holds_goApp _ hu) hlock (holds_goApp_self a _)
  | disarms a hpc =>
    refine h.move (t := .app a) (fun u hu => holds_goApp _ hu) ?_ rfl
    rw [holds_goApp_self]
    exact nofun
  | begins a hpc =>
    refine h.move (t := .app a) (fun u hu => holds_goApp _ hu) ?_ rfl
    rw [holds_goApp_self]
    exact nofun
  | setsLimit nCount => exact h

/-! ## Removals -/

/-- A channel whose destructor is in the join has been stopped and is harmless. -/
structure Sound (s : ServerSystem α) : Prop where
  exclusive : s.Exclusive
  unborn : ∀ c, s.created ≤ c → s.worker c = .unborn
  exited : ∀ c, s.status c = .tcpDisc → s.worker c = .exited
  joined : ∀ t c, s.destroys t = some c → s.stop c = true ∧ s.Harmless c

omit [DecidableEq α] in
theorem Sound.not_deadlocked (h : s.Sound) : ¬s.Deadlocked := by
  intro ⟨t, c, inner, _, hdestroys, hworker⟩
  have hharmless := (h.joined t c hdestroys).2
  rw [Harmless, hworker] at hharmless
  exact hharmless

omit [DecidableEq α] in
/-- A stopped thread that is harmless stays so. -/
theorem harmless_next {useEvent onAfterReceive : Bool} {pc pc' : WorkerPc} {act : WorkerAct}
    (h : pc.Harmless onAfterReceive)
    (hnext : pc.next true useEvent onAfterReceive act = some pc') : pc'.Harmless onAfterReceive := by
  unfold WorkerPc.next at hnext
  split at hnext
  · cases hnext
  · cases hnext
    trivial
  · cases hnext
    trivial
  · obtain rfl : onAfterReceive = false := h
    split at hnext
    · cases hnext
      rfl
    · cases hnext
      trivial
  · obtain rfl : onAfterReceive = false := h
    cases hnext
    rfl
  · cases hnext
    trivial
  · exact h.elim
  · exact h.elim
  · cases hnext

omit [DecidableEq α] in
/-- A thread that moves is there, and has not exited. -/
theorem live_of_next {stop useEvent onAfterReceive : Bool} {pc pc' : WorkerPc} {act : WorkerAct}
    (h : pc.next stop useEvent onAfterReceive act = some pc') : pc ≠ .unborn ∧ pc ≠ .exited := by
  constructor
  · rintro rfl
    cases act <;> cases h
  · rintro rfl
    cases act <;> cases h

omit [DecidableEq α] in
theorem stop_erase (s : ServerSystem α) (c : ℕ) : (s.erase c).stop c = true := by
  simp [erase]

omit [DecidableEq α] in
theorem stop_erase_of_stop {c d : ℕ} (h : s.stop d = true) : (s.erase c).stop d = true := by
  simp only [erase]
  by_cases hdc : d = c
  · rw [hdc, Function.update_self]
  · rw [Function.update_of_ne hdc]
    exact h

omit [DecidableEq α] in
/-- A step that leaves the receive threads alone. -/
theorem Sound.frame (h : s.Sound) (hexclusive : s'.Exclusive) (hworker : s'.worker = s.worker)
    (hcreated : s'.created = s.created) (hstatus : s'.status = s.status)
    (hreceive : s'.onAfterReceive = s.onAfterReceive ∨ s'.onAfterReceive = false)
    (hstop : ∀ c, s.stop c = true → s'.stop c = true)
    (hjoined : ∀ t c, s'.destroys t = some c →
      s.destroys t = some c ∨ s'.stop c = true ∧ s.Harmless c) : s'.Sound := by
  refine ⟨hexclusive, ?_, ?_, ?_⟩
  · rw [hworker, hcreated]
    exact h.unborn
  · rw [hworker, hstatus]
    exact h.exited
  · intro t c hdestroys
    have hold : s'.stop c = true ∧ s.Harmless c := by
      obtain hbefore | hnow := hjoined t c hdestroys
      · exact ⟨hstop c (h.joined t c hbefore).1, (h.joined t c hbefore).2⟩
      · exact hnow
    refine ⟨hold.1, ?_⟩
    have hharmless := hold.2
    unfold Harmless at hharmless ⊢
    rw [hworker]
    obtain heq | hnull := hreceive
    · rw [heq]
      exact hharmless
    · rw [hnull]
      exact hharmless.of_null

omit [DecidableEq α] in
/-- No destructor is entered. -/
theorem Sound.quiet (h : s.Sound) (hexclusive : s'.Exclusive) (hworker : s'.worker = s.worker)
    (hcreated : s'.created = s.created) (hstatus : s'.status = s.status)
    (hreceive : s'.onAfterReceive = s.onAfterReceive ∨ s'.onAfterReceive = false)
    (hstop : s'.stop = s.stop) (hjoined : ∀ t c, s'.destroys t = some c → s.destroys t = some c) :
    s'.Sound := by
  refine h.frame hexclusive hworker hcreated hstatus hreceive ?_ fun t c hc => .inl (hjoined t c hc)
  intro c hc
  rw [hstop]
  exact hc

omit [DecidableEq α] in
/-- The destructor of a channel is entered. -/
theorem Sound.erases (h : s.Sound) (hexclusive : s'.Exclusive) {c : ℕ}
    (hworker : s'.worker = s.worker) (hcreated : s'.created = s.created)
    (hstatus : s'.status = s.status) (hreceive : s'.onAfterReceive = s.onAfterReceive)
    (hstop : s'.stop = (s.erase c).stop) (hharmless : s.Harmless c)
    (hjoined : ∀ t d, s'.destroys t = some d → s.destroys t = some d ∨ some c = some d) :
    s'.Sound := by
  refine h.frame hexclusive hworker hcreated hstatus (.inl hreceive) ?_ ?_
  · intro d hd
    rw [hstop]
    exact stop_erase_of_stop hd
  · intro t d hd
    obtain hbefore | hnow := hjoined t d hd
    · exact .inl hbefore
    · obtain rfl : c = d := Option.some.inj hnow
      rw [hstop]
      exact .inr ⟨stop_erase s c, hharmless⟩

omit [DecidableEq α] in
/-- One receive thread moves. -/
theorem Sound.worker (h : s.Sound) (hexclusive : s'.Exclusive) {c : ℕ} {pc : WorkerPc}
    (hworker : s'.worker = Function.update s.worker c pc) (hcreated : s'.created = s.created)
    (hlive : s.worker c ≠ .unborn ∧ s.worker c ≠ .exited)
    (hstatus : ∀ d, s'.status d = .tcpDisc → s.status d = .tcpDisc ∨ d = c ∧ pc = .exited)
    (hreceive : s'.onAfterReceive = s.onAfterReceive) (hstop : s'.stop = s.stop)
    (hdestroys : s'.destroys = s.destroys)
    (hharmless : s.stop c = true → s.Harmless c → pc.Harmless s.onAfterReceive) : s'.Sound := by
  refine ⟨hexclusive, ?_, ?_, ?_⟩
  · intro d hd
    rw [hcreated] at hd
    have hunborn := h.unborn d hd
    rw [hworker, Function.update_of_ne]
    · exact hunborn
    · rintro rfl
      exact hlive.1 hunborn
  · intro d hd
    rw [hworker]
    obtain hbefore | ⟨rfl, rfl⟩ := hstatus d hd
    · have hexited := h.exited d hbefore
      rw [Function.update_of_ne]
      · exact hexited
      · rintro rfl
        exact hlive.2 hexited
    · rw [Function.update_self]
  · intro t d hd
    rw [hdestroys] at hd
    obtain ⟨hd, hbefore⟩ := h.joined t d hd
    rw [hstop, Harmless, hworker, hreceive]
    refine ⟨hd, ?_⟩
    by_cases hdc : d = c
    · subst hdc
      rw [Function.update_self]
      exact hharmless hd hbefore
    · rw [Function.update_of_ne hdc]
      exact hbefore

omit [DecidableEq α] in
theorem destroys_goAccept {pc : AcceptPc} {t : ServerThread α} {c : ℕ}
    (h : (s.goAccept pc).destroys t = some c) : s.destroys t = some c ∨ pc.destroys = some c := by
  cases t with
  | accept => exact .inr h
  | channel d => cases h
  | app a => exact .inl h

theorem destroys_goApp {a : α} {pc : AppPc} {t : ServerThread α} {c : ℕ}
    (h : (s.goApp a pc).destroys t = some c) : s.destroys t = some c ∨ pc.destroys = some c := by
  cases t with
  | accept => exact .inl h
  | channel d => cases h
  | app b =>
    have hpc : (Function.update s.appPc a pc b).destroys = some c := h
    by_cases hba : b = a
    · subst hba
      rw [Function.update_self] at hpc
      exact .inr hpc
    · rw [Function.update_of_ne hba] at hpc
      exact .inl hpc

omit [DecidableEq α] in
/-- The accept thread moves and is in no destructor behind the step. -/
theorem destroys_of_accept {pc : AcceptPc} (hpc : pc.destroys = none) {t : ServerThread α} {c : ℕ}
    (h : (s.goAccept pc).destroys t = some c) : s.destroys t = some c := by
  obtain hbefore | hnow := destroys_goAccept h
  · exact hbefore
  · rw [hpc] at hnow
    cases hnow

theorem destroys_of_app {a : α} {pc : AppPc} (hpc : pc.destroys = none) {t : ServerThread α} {c : ℕ}
    (h : (s.goApp a pc).destroys t = some c) : s.destroys t = some c := by
  obtain hbefore | hnow := destroys_goApp h
  · exact hbefore
  · rw [hpc] at hnow
    cases hnow

/-- **Step lemma**: careful steps keep the channels in a join harmless. -/
theorem sound_step {act : ServerAct α} (h : s.Sound) (hcareful : s.Careful act)
    (hstep : Stepped s act s') : s'.Sound := by
  have hexclusive := exclusive_step h.exclusive hstep
  cases hstep with
  | acceptMoves act pc hholds hdestroys =>
    exact h.quiet hexclusive rfl rfl rfl (.inl rfl) rfl fun _ _ => destroys_of_accept hdestroys
  | acceptLocks ready hpc hfree =>
    exact h.quiet hexclusive rfl rfl rfl (.inl rfl) rfl fun _ _ => destroys_of_accept rfl
  | acceptErases ready c rest hpc hstatus =>
    -- `check_channels` finds `TCP_DISC` only behind the end of the thread
    refine h.erases hexclusive rfl rfl rfl rfl rfl ?_ fun _ _ => destroys_goAccept
    rw [Harmless, h.exited c hstatus]
    trivial
  | acceptUnlocks pc hold hholds hdestroys =>
    exact h.quiet hexclusive rfl rfl rfl (.inl rfl) rfl fun _ _ => destroys_of_accept hdestroys
  | connects hpc =>
    have hnew := h.unborn s.created le_rfl
    refine ⟨hexclusive, ?_, ?_, ?_⟩
    · intro d hd
      have hne : d ≠ s.created := Nat.ne_of_gt hd
      show Function.update s.worker s.created .looping d = .unborn
      rw [Function.update_of_ne hne]
      exact h.unborn d (Nat.le_of_succ_le hd)
    · intro d hd
      have hexited := h.exited d hd
      show Function.update s.worker s.created .looping d = .exited
      rw [Function.update_of_ne]
      · exact hexited
      · rintro rfl
        rw [hnew] at hexited
        cases hexited
    · intro t d hd
      obtain ⟨hstop, hharmless⟩ := h.joined t d (destroys_of_accept rfl hd)
      refine ⟨hstop, ?_⟩
      show (Function.update s.worker s.created .looping d).Harmless s.onAfterReceive
      by_cases hdc : d = s.created
      · rw [hdc, Function.update_self]
        trivial
      · rw [Function.update_of_ne hdc]
        exact hharmless
  | inserts c hpc hfree =>
    exact h.quiet hexclusive rfl rfl rfl (.inl rfl) rfl fun _ _ => destroys_of_accept rfl
  | workerMoves c act pc hnext =>
    refine h.worker hexclusive rfl rfl (live_of_next hnext) (fun d => .inl) rfl rfl rfl ?_
    intro hstop hharmless
    rw [hstop] at hnext
    exact harmless_next hharmless hnext
  | workerLocks c inner hpc hfree =>
    refine h.worker hexclusive rfl rfl (by rw [hpc]; exact ⟨nofun, nofun⟩) (fun d => .inl) rfl rfl
      rfl ?_
    intro _ hharmless
    rw [Harmless, hpc] at hharmless
    exact hharmless.elim
  | workerUnlocks c inner hpc =>
    refine h.worker hexclusive rfl rfl (by rw [hpc]; exact ⟨nofun, nofun⟩) (fun d => .inl) rfl rfl
      rfl ?_
    intro _ hharmless
    rw [Harmless, hpc] at hharmless
    exact hharmless.elim
  | workerExits c hpc =>
    refine h.worker hexclusive rfl rfl (by rw [hpc]; exact ⟨nofun, nofun⟩) ?_ rfl rfl rfl
      (fun _ _ => trivial)
    intro d hd
    by_cases hdc : d = c
    · exact .inr ⟨hdc, rfl⟩
    · have hstatus : Function.update s.status c .tcpDisc d = .tcpDisc := hd
      rw [Function.update_of_ne hdc] at hstatus
      exact .inl hstatus
  | appMoves a act pc hholds hdestroys =>
    exact h.quiet hexclusive rfl rfl rfl (.inl rfl) rfl fun _ _ => destroys_of_app hdestroys
  | appLocks a pc hfree hdestroys =>
    exact h.quiet hexclusive rfl rfl rfl (.inl rfl) rfl fun _ _ => destroys_of_app hdestroys
  | closes a c hpc hmem hfree =>
    exact h.erases hexclusive rfl rfl rfl rfl rfl (hcareful.1 c hpc hmem) fun _ _ => destroys_goApp
  | clears a c hpc hhead =>
    exact h.erases hexclusive rfl rfl rfl rfl rfl (hcareful.2 c hpc hhead) fun _ _ => destroys_goApp
  | returns a hlock =>
    exact h.quiet hexclusive rfl rfl rfl (.inl rfl) rfl fun _ _ => destroys_of_app rfl
  | disarms a hpc =>
    exact h.quiet hexclusive rfl rfl rfl (.inr rfl) rfl fun _ _ => destroys_of_app rfl
  | begins a hpc =>
    exact h.quiet hexclusive rfl rfl rfl (.inl rfl) rfl fun _ _ => destroys_of_app rfl
  | setsLimit nCount =>
    exact h.quiet hexclusive rfl rfl rfl (.inl rfl) rfl fun _ _ => id

/-! ## Careless removals -/

section

variable {a : α} {c : ℕ}

/-- The system can go on to a deadlock. -/
def CanDeadlock (s : ServerSystem α) : Prop :=
  ∃ acts s', (machine α s.useEvent s.onAfterReceive).run s acts = some s' ∧ s'.Deadlocked

theorem step_of_next {act : WorkerAct} {pc : WorkerPc}
    (h : (s.worker c).next (s.stop c) s.useEvent s.onAfterReceive act = some pc) :
    s.step (.channel c act) = some (s.setWorker c pc) := by
  cases act with
  | acquire => cases hpc : s.worker c <;> rw [hpc] at h <;> cases h
  | release => cases hpc : s.worker c <;> rw [hpc] at h <;> cases h
  | exit => cases hpc : s.worker c <;> rw [hpc] at h <;> cases h
  | _ => simp only [step, channelStep, h, Option.map_some]

/-- The receive thread moves towards the deadlock. -/
theorem CanDeadlock.of_next (c : ℕ) (act : WorkerAct) (pc : WorkerPc)
    (hnext : (s.worker c).next (s.stop c) s.useEvent s.onAfterReceive act = some pc)
    (h : (s.setWorker c pc).CanDeadlock) : s.CanDeadlock := by
  obtain ⟨acts, s', hrun, hdead⟩ := h
  refine ⟨.channel c act :: acts, s', ?_, hdead⟩
  exact Machine.run_cons_eq_some.mpr ⟨_, step_of_next hnext, hrun⟩

/-- An application thread is in the join for a channel. -/
structure Joins (s : ServerSystem α) (a : α) (c : ℕ) : Prop where
  lock : s.lock = some (.app a)
  destroys : s.destroys (.app a) = some c

omit [DecidableEq α] in
theorem Joins.setWorker (h : s.Joins a c) (pc : WorkerPc) : (s.setWorker c pc).Joins a c :=
  ⟨h.lock, h.destroys⟩

theorem Joins.canDeadlock_of_calling (h : s.Joins a c) (inner : Bool)
    (hpc : s.worker c = .calling inner) : s.CanDeadlock := by
  refine .of_next c .send (.waiting inner) (by rw [hpc]; rfl) ?_
  exact ⟨[], _, rfl, .app a, c, inner, h.lock, h.destroys, by simp [ServerSystem.setWorker]⟩

theorem Joins.canDeadlock_of_extracting (h : s.Joins a c) (hreceive : s.onAfterReceive = true)
    (hpc : s.worker c = .extracting) : s.CanDeadlock := by
  refine .of_next c .packet (.calling true) ?_ ?_
  · rw [hpc, hreceive]
    rfl
  · exact (h.setWorker _).canDeadlock_of_calling true (by simp [ServerSystem.setWorker])

/-- A channel is joined whose thread may call back: the thread gets to `lock_` before the join
    ends. -/
theorem Joins.canDeadlock (h : s.Joins a c) (hexclusive : s.Exclusive) (hnot : ¬s.Harmless c) :
    s.CanDeadlock := by
  unfold Harmless at hnot
  cases hpc : s.worker c with
  | receiving =>
    rw [hpc] at hnot
    have hreceive : s.onAfterReceive = true := Bool.not_eq_false _ ▸ hnot
    cases hevent : s.useEvent with
    | true =>
      refine .of_next c .recv .extracting ?_ ?_
      · rw [hpc, hevent]
        rfl
      · exact (h.setWorker _).canDeadlock_of_extracting hreceive (by simp [ServerSystem.setWorker])
    | false =>
      refine .of_next c .recv (.calling false) ?_ ?_
      · rw [hpc, hevent, hreceive]
        rfl
      · exact (h.setWorker _).canDeadlock_of_calling false (by simp [ServerSystem.setWorker])
  | extracting =>
    rw [hpc] at hnot
    exact h.canDeadlock_of_extracting (Bool.not_eq_false _ ▸ hnot) hpc
  | calling inner => exact h.canDeadlock_of_calling inner hpc
  | waiting inner => exact ⟨[], s, rfl, .app a, c, inner, h.lock, h.destroys, hpc⟩
  | sending inner =>
    -- it would hold `lock_`
    have hlock := hexclusive (.channel c) (by simp [holds, hpc, WorkerPc.holds])
    rw [h.lock] at hlock
    cases hlock
  | unborn => exact absurd (by rw [hpc]; trivial) hnot
  | looping => exact absurd (by rw [hpc]; trivial) hnot
  | leaving => exact absurd (by rw [hpc]; trivial) hnot
  | exited => exact absurd (by rw [hpc]; trivial) hnot

end

/-- A step that is not careful can be followed by a deadlock. -/
theorem canDeadlock_of_not_careful {act : ServerAct α} (h : s.Exclusive) (hnot : ¬s.Careful act)
    (hstep : s.step act = some s') : s'.CanDeadlock := by
  have hexclusive := exclusive_step h (stepped_of_step hstep)
  have hact : ∃ a, act = .app a .next := by
    unfold Careful at hnot
    split at hnot
    · exact ⟨_, rfl⟩
    · exact absurd trivial hnot
  obtain ⟨a, rfl⟩ := hact
  have hcase : (∃ c, s.appPc a = .closing c ∧ c ∈ s.channels ∧ ¬s.Harmless c) ∨
      ∃ c, s.appPc a = .clearing ∧ s.channels.head? = some c ∧ ¬s.Harmless c := by
    by_contra hnone
    simp only [not_or, not_exists, not_and, not_not] at hnone
    exact hnot hnone
  simp only [step, appStep, appNext] at hstep
  obtain ⟨c, hpc, hmem, hharmless⟩ | ⟨c, hpc, hhead, hharmless⟩ := hcase
  · rw [hpc] at hstep
    obtain ⟨hfree, rfl⟩ := map_acquire_eq_some hstep
    rw [closeChannel, if_pos hmem] at hexclusive ⊢
    have hjoins : (({ s with lock := some (.app a) }.erase c).goApp a (.joining c false)).Joins a c :=
      ⟨rfl, by simp [destroys, goApp, AppPc.destroys]⟩
    exact hjoins.canDeadlock hexclusive hharmless
  · have hlock : s.lock = some (.app a) := h (.app a) (by simp [holds, hpc, AppPc.holds])
    obtain ⟨rest, hchannels⟩ := List.head?_eq_some_iff.mp hhead
    simp only [hpc, hchannels] at hstep
    cases hstep
    have hjoins : ((s.erase c).goApp a (.joining c true)).Joins a c :=
      ⟨hlock, by simp [destroys, goApp, AppPc.destroys]⟩
    exact hjoins.canDeadlock hexclusive hharmless

/-! ## Whole runs -/

theorem sound_init (useEvent onAfterReceive : Bool) :
    (machine α useEvent onAfterReceive).init.Sound := by
  refine ⟨?_, fun _ _ => rfl, nofun, ?_⟩
  · intro t ht
    cases t <;> cases ht
  · intro t c hc
    cases t <;> cases hc

theorem exclusive_of_run {useEvent onAfterReceive : Bool} {acts : List (ServerAct α)}
    (hrun : (machine α useEvent onAfterReceive).run (machine α useEvent onAfterReceive).init acts =
      some s) : s.Exclusive := by
  refine Machine.run_invariant (sound_init useEvent onAfterReceive).exclusive ?_ hrun
  intro s act s' hs hstep
  exact exclusive_step hs (stepped_of_step hstep)

/-- **When channel teardown deadlocks with `lock_`**, for every run of the accept thread, the receive
    threads and any number of application threads. As long as `close_channel` and the destructor
    remove only channels whose receive thread will not call back any more, no state of the run is a
    deadlock; and as soon as they remove another one, the run can go on to a deadlock. -/
theorem teardown_deadlock_iff (useEvent onAfterReceive : Bool) (acts : List (ServerAct α))
    (s : ServerSystem α)
    (hrun : (machine α useEvent onAfterReceive).run (machine α useEvent onAfterReceive).init acts =
      some s) :
    ((machine α useEvent onAfterReceive).Along Careful (machine α useEvent onAfterReceive).init acts →
        (machine α useEvent onAfterReceive).Throughout (¬Deadlocked ·)
          (machine α useEvent onAfterReceive).init acts) ∧
      ∀ act s', ¬s.Careful act → s.step act = some s' →
        ∃ more t, (machine α useEvent onAfterReceive).run s' more = some t ∧ t.Deadlocked := by
  constructor
  · refine Machine.throughout_of_along (I := Sound) (fun s hs => hs.not_deadlocked) ?_
      (sound_init useEvent onAfterReceive)
    intro s act s' hs hcareful hstep
    exact sound_step hs hcareful (stepped_of_step hstep)
  · intro act s' hnot hstep
    exact canDeadlock_of_not_careful (exclusive_of_run hrun) hnot hstep

/-- A channel is accepted, its callback broadcasts, and it is closed when its thread has exited. -/
theorem teardown_deadlock_after_exit :
    let acts : List (ServerAct Unit) :=
      [.accept .next, .accept (.select 1), .accept .next, .accept .next, .accept (.accept (some true)),
        .accept .next, .accept .next, .accept .next, .channel 0 .enter, .channel 0 .recv,
        .channel 0 .packet, .channel 0 .send, .channel 0 .acquire, .channel 0 .release,
        .channel 0 .returns, .channel 0 .drained, .channel 0 .leave, .channel 0 .exit,
        .app () (.closeChannel 0), .app () .next]
    ∃ s, (machine Unit true true).run (machine Unit true true).init acts = some s ∧
      s.destroys (.app ()) = some 0 ∧
      (machine Unit true true).Along Careful (machine Unit true true).init acts ∧
      (machine Unit true true).Throughout (¬Deadlocked ·) (machine Unit true true).init acts := by
  intro acts
  have halong : (machine Unit true true).Along Careful (machine Unit true true).init acts := by
    iterate 19
      refine ⟨trivial, ?_⟩
      rintro _ ⟨⟩
    refine ⟨⟨?_, nofun⟩, fun _ _ => trivial⟩
    rintro c ⟨⟩ _
    trivial
  exact ⟨_, rfl, rfl, halong, (teardown_deadlock_iff true true acts _ rfl).1 halong⟩

/-- A callback is in flight when its channel is closed, and broadcasts. -/
theorem deadlocked_callback_in_flight :
    ∃ s, (machine Unit true true).run (machine Unit true true).init
        [.accept .next, .accept (.select 1), .accept .next, .accept .next,
          .accept (.accept (some true)), .accept .next, .accept .next, .accept .next,
          .channel 0 .enter, .channel 0 .recv, .channel 0 .packet,
          .app () (.closeChannel 0), .app () .next, .channel 0 .send] = some s ∧
      s.Deadlocked :=
  ⟨_, rfl, .app (), 0, true, rfl, rfl, rfl⟩

end ServerSystem

end Pdk.Net
