import Mathlib.Logic.Function.Basic
import Pdk.Net.TcpChannel

/-!
# `TcpServer`

Model of the threads that meet at `lock_` of `TcpServer` in `src/tcpserver.cpp`: the accept thread
(`thread_proc`), the receive thread of every channel, and application threads that call
`close_channel`, `broadcast`, `send_all` or the destructor.

A channel is removed from `channels_` by destroying its `unique_ptr`, while the thread that removes
it holds `lock_`. `~TcpChannel` requests stop and joins the receive thread. The receive thread may be
inside the `OnAfterReceive` callback, which does not hold `lock_` but may call `broadcast` or
`send_all`.

A critical section that neither joins nor calls out is one step. Channels are numbered in the order
in which they are created. How many packets a chunk completes is left open here; it is the subject of
`TcpChannel`. The other callbacks return without calling back into the server.
-/

namespace Pdk.Net

open Foundation

/-! ## Threads -/

/-- Where the receive thread of a channel stands. In and below the callback, `inner` says whether
    it was called from the inner loop, or for a chunk as it is because `use_event()` is false. -/
inductive WorkerPc where
  -- not created yet
  | unborn
  -- at `while (!do_exit())`
  | looping
  | receiving
  -- at the head of the inner loop
  | extracting
  | calling (inner : Bool)
  -- in `broadcast` or `send_all`, before it has `lock_`
  | waiting (inner : Bool)
  | sending (inner : Bool)
  -- behind the loop, before `status_ = TCP_DISC`
  | leaving
  | exited
  deriving DecidableEq, Repr

/-- Where `TcpServer::thread_proc` stands; `ready` says that `select` has found a connection. -/
inductive AcceptPc where
  | looping
  | selecting
  -- in `check_channels`, before it has `lock_`
  | checks (ready : Bool)
  -- in the loop of `check_channels`, with the channels from the iterator on
  | checking (ready : Bool) (rest : List ℕ)
  -- in `~TcpChannel`, called by `erase`
  | joining (ready : Bool) (c : ℕ) (rest : List ℕ)
  | accepting
  -- before the limit check
  | limiting
  -- behind it, with a client that is not rejected
  | connecting
  -- the channel is created but not in `channels_`
  | inserting (c : ℕ)
  | exited
  deriving DecidableEq, Repr

/-- Where an application thread stands. -/
inductive AppPc where
  | idle
  -- in `close_channel`, before it has `lock_`
  | closing (c : ℕ)
  -- in `~TcpChannel`, called by `erase`, or by `clear()`
  | joining (c : ℕ) (clears : Bool)
  -- in `broadcast` or `send_all`
  | waiting
  | sending
  -- in `~TcpServer`: in the join of the accept thread, before it has `lock_`, in `clear()`
  | joiningServer
  | clears
  | clearing
  deriving DecidableEq, Repr

inductive ServerThread (α : Type*) where
  | accept
  | channel (c : ℕ)
  | app (a : α)
  deriving DecidableEq, Repr

structure ServerSystem (α : Type*) where
  -- who holds `lock_`
  lock : Option (ServerThread α)
  -- `channels_`
  channels : List ℕ
  limit : ℤ
  useEvent : Bool
  -- `OnAfterReceive` is not null
  onAfterReceive : Bool
  -- `do_exit()` of the accept thread; the destructor has begun
  stopped : Bool
  -- how many channels have been created
  created : ℕ
  worker : ℕ → WorkerPc
  -- `do_exit()` and `status()` of each channel
  stop : ℕ → Bool
  status : ℕ → TcpStatus
  acceptPc : AcceptPc
  appPc : α → AppPc

/-! ## Actions -/

inductive WorkerAct where
  -- the outer loop goes on, or is left: `do_exit()`, no socket, or `recv` returned less than 1
  | enter
  | leave
  | recv
  -- the inner loop has a packet, or none
  | packet
  | drained
  -- the callback calls `broadcast` or `send_all`, or returns
  | send
  | acquire
  | release
  | returns
  | exit
  deriving DecidableEq, Repr

inductive AcceptAct where
  | next
  | select (nResult : ℤ)
  -- `accept()` returned a client or a null pointer, or has thrown
  | accept (client : Option Bool)
  deriving DecidableEq, Repr

inductive AppAct where
  | closeChannel (c : ℕ)
  -- `broadcast` or `send_all`
  | send
  | destroy
  | next
  deriving DecidableEq, Repr

inductive ServerAct (α : Type*) where
  | accept (act : AcceptAct)
  | channel (c : ℕ) (act : WorkerAct)
  | app (a : α) (act : AppAct)
  | setLimit (nCount : ℤ)
  deriving DecidableEq, Repr

/-- What the receive thread does without `lock_`. -/
def WorkerPc.next (stop useEvent onAfterReceive : Bool) : WorkerPc → WorkerAct → Option WorkerPc
  | .looping, .enter => if stop then none else some .receiving
  | .looping, .leave => some .leaving
  | .receiving, .leave => some .leaving
  | .receiving, .recv =>
    if useEvent then some .extracting
    else if onAfterReceive then some (.calling false)
    else some .looping
  | .extracting, .packet => if onAfterReceive then some (.calling true) else some .extracting
  | .extracting, .drained => some .looping
  | .calling inner, .send => some (.waiting inner)
  | .calling inner, .returns => if inner then some .extracting else some .looping
  | _, _ => none

namespace ServerSystem

variable {α : Type*}

def setWorker (s : ServerSystem α) (c : ℕ) (pc : WorkerPc) : ServerSystem α :=
  { s with worker := Function.update s.worker c pc }

def goAccept (s : ServerSystem α) (pc : AcceptPc) : ServerSystem α :=
  { s with acceptPc := pc }

def goApp [DecidableEq α] (s : ServerSystem α) (a : α) (pc : AppPc) : ServerSystem α :=
  { s with appPc := Function.update s.appPc a pc }

def acquire (s : ServerSystem α) (t : ServerThread α) : Option (ServerSystem α) :=
  match s.lock with
  | none => some { s with lock := some t }
  | some _ => none

def release (s : ServerSystem α) : ServerSystem α :=
  { s with lock := none }

/-- `channels_.erase(it)` up to the join: `~TcpChannel` requests stop and closes the socket. -/
def erase (s : ServerSystem α) (c : ℕ) : ServerSystem α :=
  { s with channels := s.channels.erase c, stop := Function.update s.stop c true }

/-- `TcpChannel::thread_proc`. -/
def channelStep (s : ServerSystem α) (c : ℕ) : WorkerAct → Option (ServerSystem α)
  | .acquire =>
    match s.worker c with
    | .waiting inner => (s.acquire (.channel c)).map (·.setWorker c (.sending inner))
    | _ => none
  | .release =>
    match s.worker c with
    | .sending inner => some (s.release.setWorker c (.calling inner))
    | _ => none
  | .exit =>
    match s.worker c with
    | .leaving =>
      some ({ s with status := Function.update s.status c .tcpDisc }.setWorker c .exited)
    | _ => none
  | act =>
    ((s.worker c).next (s.stop c) s.useEvent s.onAfterReceive act).map (s.setWorker c)

/-- `TcpServer::thread_proc` where it does not wait for `select` or `accept`. -/
def acceptNext (s : ServerSystem α) : Option (ServerSystem α) :=
  match s.acceptPc with
  | .looping => some (s.goAccept (if s.stopped then .exited else .selecting))
  | .checks ready => (s.acquire .accept).map (·.goAccept (.checking ready s.channels))
  | .checking ready [] => some (s.release.goAccept (if ready then .accepting else .looping))
  | .checking ready (c :: rest) =>
    if s.status c = .tcpDisc then some ((s.erase c).goAccept (.joining ready c rest))
    else some (s.goAccept (.checking ready rest))
  | .joining ready c rest =>
    if s.worker c = .exited then some (s.goAccept (.checking ready rest)) else none
  | .limiting =>
    match s.lock with
    | none => some (s.goAccept (if (s.channels.length : ℤ) = s.limit then .looping else .connecting))
    | some _ => none
  -- the thread of the new channel runs before the channel is in `channels_`
  | .connecting =>
    some ({ s with created := s.created + 1 }.setWorker s.created .looping
      |>.goAccept (.inserting s.created))
  | .inserting c =>
    match s.lock with
    | none => some ({ s with channels := s.channels ++ [c] }.goAccept .looping)
    | some _ => none
  | _ => none

/-- `TcpServer::thread_proc`. -/
def acceptStep (s : ServerSystem α) : AcceptAct → Option (ServerSystem α)
  | .next => s.acceptNext
  | .select nResult =>
    match s.acceptPc with
    | .selecting =>
      some (s.goAccept (if nResult = -1 then .exited else .checks (decide (nResult ≠ 0))))
    | _ => none
  | .accept client =>
    match s.acceptPc with
    | .accepting =>
      some (s.goAccept (match client with
        | none => .exited
        | some false => .looping
        | some true => .limiting))
    | _ => none

variable [DecidableEq α]

/-- `close_channel`, which has `lock_` now. -/
def closeChannel (s : ServerSystem α) (a : α) (c : ℕ) : ServerSystem α :=
  if c ∈ s.channels then (s.erase c).goApp a (.joining c false) else s.release.goApp a .idle

/-- What an application thread does inside a call. -/
def appNext (s : ServerSystem α) (a : α) : Option (ServerSystem α) :=
  match s.appPc a with
  | .idle => none
  | .closing c => (s.acquire (.app a)).map (·.closeChannel a c)
  | .joining c clears =>
    if s.worker c = .exited then
      some (if clears then s.goApp a .clearing else s.release.goApp a .idle)
    else none
  | .waiting => (s.acquire (.app a)).map (·.goApp a .sending)
  | .sending => some (s.release.goApp a .idle)
  | .joiningServer =>
    if s.acceptPc = .exited then some ({ s with onAfterReceive := false }.goApp a .clears) else none
  | .clears => (s.acquire (.app a)).map (·.goApp a .clearing)
  -- `clear()` destroys the channels from the front
  | .clearing =>
    match s.channels with
    | [] => some (s.release.goApp a .idle)
    | c :: _ => some ((s.erase c).goApp a (.joining c true))

/-- Application threads; no call is begun once the destructor has begun. -/
def appStep (s : ServerSystem α) (a : α) : AppAct → Option (ServerSystem α)
  | .next => s.appNext a
  | .closeChannel c =>
    if s.appPc a = .idle ∧ s.stopped = false then some (s.goApp a (.closing c)) else none
  | .send => if s.appPc a = .idle ∧ s.stopped = false then some (s.goApp a .waiting) else none
  | .destroy =>
    if s.appPc a = .idle ∧ s.stopped = false then
      some ({ s with stopped := true }.goApp a .joiningServer)
    else none

def step (s : ServerSystem α) : ServerAct α → Option (ServerSystem α)
  | .accept act => s.acceptStep act
  | .channel c act => s.channelStep c act
  | .app a act => s.appStep a act
  | .setLimit nCount => if s.stopped = false then some { s with limit := nCount } else none

/-- The accept thread has been started, and there are no channels. -/
def initial (α : Type*) (useEvent onAfterReceive : Bool) : ServerSystem α :=
  ⟨none, [], 1, useEvent, onAfterReceive, false, 0, fun _ => .unborn, fun _ => false,
    fun _ => .tcpConn, .looping, fun _ => .idle⟩

def machine (α : Type*) [DecidableEq α] (useEvent onAfterReceive : Bool) :
    Machine (ServerSystem α) (ServerAct α) :=
  ⟨initial α useEvent onAfterReceive, step⟩

/-! ## What a step can do -/

end ServerSystem

/-- It is inside a critical section. -/
def WorkerPc.holds : WorkerPc → Bool
  | .sending _ => true
  | _ => false

def AcceptPc.holds : AcceptPc → Bool
  | .checking _ _ => true
  | .joining _ _ _ => true
  | _ => false

/-- The channel whose destructor it is in. -/
def AcceptPc.destroys : AcceptPc → Option ℕ
  | .joining _ c _ => some c
  | _ => none

def AppPc.holds : AppPc → Bool
  | .joining _ _ => true
  | .sending => true
  | .clearing => true
  | _ => false

def AppPc.destroys : AppPc → Option ℕ
  | .joining c _ => some c
  | _ => none

namespace ServerSystem

variable {α : Type*}

def holds (s : ServerSystem α) : ServerThread α → Bool
  | .accept => s.acceptPc.holds
  | .channel c => (s.worker c).holds
  | .app a => (s.appPc a).holds

def destroys (s : ServerSystem α) : ServerThread α → Option ℕ
  | .accept => s.acceptPc.destroys
  | .channel _ => none
  | .app a => (s.appPc a).destroys

variable [DecidableEq α]

/-- What the steps of the system can be. -/
inductive Stepped (s : ServerSystem α) : ServerAct α → ServerSystem α → Prop where
  | acceptMoves (act : AcceptAct) (pc : AcceptPc) (hholds : pc.holds = s.acceptPc.holds)
      (hdestroys : pc.destroys = none) : Stepped s (.accept act) (s.goAccept pc)
  | acceptLocks (ready : Bool) (hpc : s.acceptPc = .checks ready) (hfree : s.lock = none) :
      Stepped s (.accept .next)
        ({ s with lock := some .accept }.goAccept (.checking ready s.channels))
  | acceptErases (ready : Bool) (c : ℕ) (rest : List ℕ)
      (hpc : s.acceptPc = .checking ready (c :: rest)) (hstatus : s.status c = .tcpDisc) :
      Stepped s (.accept .next) ((s.erase c).goAccept (.joining ready c rest))
  | acceptUnlocks (pc : AcceptPc) (hold : s.acceptPc.holds = true) (hholds : pc.holds = false)
      (hdestroys : pc.destroys = none) : Stepped s (.accept .next) (s.release.goAccept pc)
  | connects (hpc : s.acceptPc = .connecting) :
      Stepped s (.accept .next)
        ({ s with created := s.created + 1 }.setWorker s.created .looping
          |>.goAccept (.inserting s.created))
  | inserts (c : ℕ) (hpc : s.acceptPc = .inserting c) (hfree : s.lock = none) :
      Stepped s (.accept .next) ({ s with channels := s.channels ++ [c] }.goAccept .looping)
  | workerMoves (c : ℕ) (act : WorkerAct) (pc : WorkerPc)
      (hnext : (s.worker c).next (s.stop c) s.useEvent s.onAfterReceive act = some pc) :
      Stepped s (.channel c act) (s.setWorker c pc)
  | workerLocks (c : ℕ) (inner : Bool) (hpc : s.worker c = .waiting inner)
      (hfree : s.lock = none) :
      Stepped s (.channel c .acquire)
        ({ s with lock := some (.channel c) }.setWorker c (.sending inner))
  | workerUnlocks (c : ℕ) (inner : Bool) (hpc : s.worker c = .sending inner) :
      Stepped s (.channel c .release) (s.release.setWorker c (.calling inner))
  | workerExits (c : ℕ) (hpc : s.worker c = .leaving) :
      Stepped s (.channel c .exit)
        ({ s with status := Function.update s.status c .tcpDisc }.setWorker c .exited)
  | appMoves (a : α) (act : AppAct) (pc : AppPc) (hholds : pc.holds = (s.appPc a).holds)
      (hdestroys : pc.destroys = none) : Stepped s (.app a act) (s.goApp a pc)
  | appLocks (a : α) (pc : AppPc) (hfree : s.lock = none) (hdestroys : pc.destroys = none) :
      Stepped s (.app a .next) ({ s with lock := some (.app a) }.goApp a pc)
  | closes (a : α) (c : ℕ) (hpc : s.appPc a = .closing c) (hmem : c ∈ s.channels)
      (hfree : s.lock = none) :
      Stepped s (.app a .next)
        (({ s with lock := some (.app a) }.erase c).goApp a (.joining c false))
  | clears (a : α) (c : ℕ) (hpc : s.appPc a = .clearing) (hhead : s.channels.head? = some c) :
      Stepped s (.app a .next) ((s.erase c).goApp a (.joining c true))
  -- the lock is released by its holder, or was taken in this step
  | returns (a : α) (hlock : (s.appPc a).holds = true ∨ s.lock = none) :
      Stepped s (.app a .next) (s.release.goApp a .idle)
  | disarms (a : α) (hpc : s.appPc a = .joiningServer) :
      Stepped s (.app a .next) ({ s with onAfterReceive := false }.goApp a .clears)
  | begins (a : α) (hpc : s.appPc a = .idle) :
      Stepped s (.app a .destroy) ({ s with stopped := true }.goApp a .joiningServer)
  | setsLimit (nCount : ℤ) : Stepped s (.setLimit nCount) { s with limit := nCount }

omit [DecidableEq α] in
theorem acquire_eq_some {s s' : ServerSystem α} {t : ServerThread α} :
    s.acquire t = some s' ↔ s.lock = none ∧ s' = { s with lock := some t } := by
  unfold acquire
  cases hlock : s.lock with
  | none => simp [eq_comm]
  | some u => simp

omit [DecidableEq α] in
/-- The part of a step behind `acquire`. -/
theorem map_acquire_eq_some {s s' : ServerSystem α} {t : ServerThread α}
    {f : ServerSystem α → ServerSystem α} (h : (s.acquire t).map f = some s') :
    s.lock = none ∧ s' = f { s with lock := some t } := by
  obtain ⟨u, hu, rfl⟩ := Option.map_eq_some_iff.mp h
  obtain ⟨hfree, rfl⟩ := acquire_eq_some.mp hu
  exact ⟨hfree, rfl⟩

theorem stepped_of_channelStep {s s' : ServerSystem α} {c : ℕ} {act : WorkerAct}
    (h : s.channelStep c act = some s') : Stepped s (.channel c act) s' := by
  unfold channelStep at h
  split at h
  · split at h
    · rename_i inner hpc
      obtain ⟨hfree, rfl⟩ := map_acquire_eq_some h
      exact .workerLocks c inner hpc hfree
    · cases h
  · split at h
    · rename_i inner hpc
      cases h
      exact .workerUnlocks c inner hpc
    · cases h
  · split at h
    · rename_i hpc
      cases h
      exact .workerExits c hpc
    · cases h
  · obtain ⟨pc, hnext, rfl⟩ := Option.map_eq_some_iff.mp h
    exact .workerMoves c act pc hnext

theorem stepped_of_acceptNext {s s' : ServerSystem α} (h : s.acceptNext = some s') :
    Stepped s (.accept .next) s' := by
  unfold acceptNext at h
  split at h
  · rename_i hpc
    cases h
    exact .acceptMoves _ _ (by rw [hpc]; split <;> rfl) (by split <;> rfl)
  · rename_i ready hpc
    obtain ⟨hfree, rfl⟩ := map_acquire_eq_some h
    exact .acceptLocks ready hpc hfree
  · rename_i ready hpc
    cases h
    exact .acceptUnlocks _ (by rw [hpc]; rfl) (by split <;> rfl) (by split <;> rfl)
  · rename_i ready c rest hpc
    split at h
    · rename_i hstatus
      cases h
      exact .acceptErases ready c rest hpc hstatus
    · cases h
      exact .acceptMoves _ _ (by rw [hpc]; rfl) rfl
  · rename_i ready c rest hpc
    split at h
    · cases h
      exact .acceptMoves _ _ (by rw [hpc]; rfl) rfl
    · cases h
  · rename_i hpc
    split at h
    · cases h
      exact .acceptMoves _ _ (by rw [hpc]; split <;> rfl) (by split <;> rfl)
    · cases h
  · rename_i hpc
    cases h
    exact .connects hpc
  · rename_i c hpc
    split at h
    · rename_i hfree
      cases h
      exact .inserts c hpc hfree
    · cases h
  · cases h

theorem stepped_of_acceptStep {s s' : ServerSystem α} {act : AcceptAct}
    (h : s.acceptStep act = some s') : Stepped s (.accept act) s' := by
  cases act with
  | next => exact stepped_of_acceptNext h
  | select nResult =>
    simp only [acceptStep] at h
    split at h
    · rename_i hpc
      cases h
      exact .acceptMoves _ _ (by rw [hpc]; split <;> rfl) (by split <;> rfl)
    · cases h
  | accept client =>
    simp only [acceptStep] at h
    split at h
    · rename_i hpc
      cases h
      exact .acceptMoves _ _ (by rw [hpc]; split <;> rfl) (by split <;> rfl)
    · cases h

theorem stepped_of_appNext {s s' : ServerSystem α} {a : α} (h : s.appNext a = some s') :
    Stepped s (.app a .next) s' := by
  unfold appNext at h
  split at h
  · cases h
  · rename_i c hpc
    obtain ⟨hfree, rfl⟩ := map_acquire_eq_some h
    unfold closeChannel
    split
    · rename_i hmem
      exact .closes a c hpc hmem hfree
    · exact .returns a (.inr hfree)
  · rename_i c clears hpc
    split at h
    · split at h
      · cases h
        exact .appMoves a _ _ (by rw [hpc]; rfl) rfl
      · cases h
        exact .returns a (.inl (by rw [hpc]; rfl))
    · cases h
  · obtain ⟨hfree, rfl⟩ := map_acquire_eq_some h
    exact .appLocks a _ hfree rfl
  · rename_i hpc
    cases h
    exact .returns a (.inl (by rw [hpc]; rfl))
  · rename_i hpc
    split at h
    · cases h
      exact .disarms a hpc
    · cases h
  · obtain ⟨hfree, rfl⟩ := map_acquire_eq_some h
    exact .appLocks a _ hfree rfl
  · rename_i hpc
    split at h
    · cases h
      exact .returns a (.inl (by rw [hpc]; rfl))
    · rename_i c rest hchannels
      cases h
      exact .clears a c hpc (by rw [hchannels]; rfl)

theorem stepped_of_appStep {s s' : ServerSystem α} {a : α} {act : AppAct}
    (h : s.appStep a act = some s') : Stepped s (.app a act) s' := by
  cases act with
  | next => exact stepped_of_appNext h
  | closeChannel c =>
    simp only [appStep] at h
    split at h
    · rename_i hguard
      cases h
      exact .appMoves a _ _ (by rw [hguard.1]; rfl) rfl
    · cases h
  | send =>
    simp only [appStep] at h
    split at h
    · rename_i hguard
      cases h
      exact .appMoves a _ _ (by rw [hguard.1]; rfl) rfl
    · cases h
  | destroy =>
    simp only [appStep] at h
    split at h
    · rename_i hguard
      cases h
      exact .begins a hguard.1
    · cases h

/-- **Case analysis of a step.** -/
theorem stepped_of_step {s s' : ServerSystem α} {act : ServerAct α} (h : s.step act = some s') :
    Stepped s act s' := by
  cases act with
  | accept act => exact stepped_of_acceptStep h
  | channel c act => exact stepped_of_channelStep h
  | app a act => exact stepped_of_appStep h
  | setLimit nCount =>
    simp only [step] at h
    split at h
    · cases h
      exact .setsLimit nCount
    · cases h

end ServerSystem

end Pdk.Net
