import Pdk.Net.TcpServer
import Pdk.Sync.Thread

/-!
# Calls into `TcpServer` from its own threads

Model of the threads of a `TcpServer` (`src/tcpserver.cpp`) as stacks of calls. The callback
`OnAfterReceive` is executed by the receive thread of a channel, and it may call `send` and
`close_channel`, of the channel that it was called for or of another one. A `send` that fails calls
`close`, `close_channel` destroys the channel, and both get to `Thread::close_post`
(`src/jthread.cpp`), which joins the receive thread.

A thread that joins itself gets a `system_error`. The exception leaves `close_post` through the
destructor of `local`, which is still joinable and joins again; an exception there terminates the
process.

An application thread, and `OnBeforeSend` for the channels of `channels_`, may call `send` too. The
other callbacks return without calling back into the server. A channel without a socket, whose
`send` returns before it does anything, is not told apart from one whose `send` succeeds. Use of a
channel that was destroyed is undefined, and nothing is said about what follows.
-/

namespace Pdk.Net

open Foundation

/-! ## Calls -/

/-- Where a `close()` or a `~TcpChannel` stands. -/
inductive ClosePc where
  -- before `close_pre`
  | starts
  -- before the first critical section of `close_post`
  | stopping
  -- in the join
  | joins (worker : Option ℕ)
  -- before the second critical section
  | resets
  -- the join has thrown
  | threw
  deriving DecidableEq, Repr

/-- A call that has not returned. -/
inductive Frame where
  -- `close_channel(c)`, before it has `lock_`, and behind `erase`
  | closeChannel (c : ℕ)
  | unlocks
  -- `broadcast` or `send_all`, before it has `lock_`, and in the loop that calls `OnBeforeSend`
  | broadcast
  | sending
  -- `check_channels`, before it has `lock_`, and in its loop with the channels from the iterator on
  | checkChannels
  | checking (rest : List ℕ)
  -- `~TcpServer`: in the join of the accept thread, before it has `lock_`, in `clear()`
  | joiningServer
  | clears
  | clearing
  -- `close()` of a channel, or its destructor
  | close (c : ℕ) (destroys : Bool) (pc : ClosePc)
  deriving DecidableEq, Repr

/-- The channel whose `close_post` the call has entered, and has neither left nor thrown out of. -/
def Frame.post : Frame → Option ℕ
  | .close c _ (.joins _) => some c
  | .close c _ .resets => some c
  | _ => none

/-- Where `TcpServer::thread_proc` stands outside of `check_channels`. -/
inductive AcceptorPc where
  | looping
  | selecting
  | accepting
  -- before the limit check
  | limiting
  -- behind it, with a client that is not rejected
  | connecting
  -- the channel is created but not in `channels_`
  | inserting (c : ℕ)
  | exited
  deriving DecidableEq, Repr

/-- Who takes a step in its loop is executing, and does not begin with it. -/
theorem WorkerPc.next_some {stop useEvent onAfterReceive : Bool} {pc pc' : WorkerPc}
    {act : WorkerAct} (h : pc.next stop useEvent onAfterReceive act = some pc') :
    pc ≠ .unborn ∧ pc ≠ .exited ∧ pc' ≠ .unborn := by
  refine ⟨?_, ?_, ?_⟩
  · rintro rfl
    cases act <;> cases h
  · rintro rfl
    cases act <;> cases h
  · rintro rfl
    unfold next at h
    split at h <;> first | cases h | (split_ifs at h <;> cases h)

/-! ## The system -/

structure CallSystem (α : Type*) where
  -- who holds `lock_`
  lock : Option (ServerThread α)
  -- `channels_`
  channels : List ℕ
  limit : ℤ
  useEvent : Bool
  -- `OnAfterReceive` is not null
  onAfterReceive : Bool
  -- `do_exit()` of the accept thread; the destructor has begun
  stopped : Bool
  -- how many channels have been created
  created : ℕ
  acceptor : AcceptorPc
  -- the lifecycle members of each channel; its receive thread has the channel's number
  thread : ℕ → Sync.Thread
  -- the channel is not destroyed
  alive : ℕ → Bool
  worker : ℕ → WorkerPc
  status : ℕ → TcpStatus
  stack : ServerThread α → List Frame
  -- a channel was used after it was destroyed
  undefined : Bool
  -- `std::terminate`
  terminated : Bool

inductive ServerCall where
  -- `send` of a channel, with the value that `::send` returns
  | send (c : ℕ) (nCount : ℤ)
  | closeChannel (c : ℕ)
  -- `broadcast` or `send_all`
  | broadcast
  -- `~TcpServer`
  | destroy
  deriving DecidableEq, Repr

inductive CallAct (α : Type*) where
  | accept (act : AcceptAct)
  | channel (c : ℕ) (act : WorkerAct)
  -- the thread, which is in the callback or in the application, begins a call
  | call (t : ServerThread α) (op : ServerCall)
  -- the next step of the innermost call
  | next (t : ServerThread α)
  | setLimit (nCount : ℤ)
  deriving DecidableEq, Repr

namespace CallSystem

variable {α : Type*}

def setThread (s : CallSystem α) (c : ℕ) (thread : Sync.Thread) : CallSystem α :=
  { s with thread := Function.update s.thread c thread }

def setWorker (s : CallSystem α) (c : ℕ) (pc : WorkerPc) : CallSystem α :=
  { s with worker := Function.update s.worker c pc }

def release (s : CallSystem α) : CallSystem α :=
  { s with lock := none }

/-- `channels_.erase(it)` up to the destructor of the channel. -/
def unlist (s : CallSystem α) (c : ℕ) : CallSystem α :=
  { s with channels := s.channels.erase c }

def acquire (s : CallSystem α) (t : ServerThread α) : Option (CallSystem α) :=
  match s.lock with
  | none => some { s with lock := some t }
  | some _ => none

variable [DecidableEq α]

def setStack (s : CallSystem α) (t : ServerThread α) (frames : List Frame) : CallSystem α :=
  { s with stack := Function.update s.stack t frames }

/-! ## `close` -/

/-- `close_post` returns, and with it `close()` or the destructor of the channel. The `close()` of
    `~Thread` finds nothing to close, or a shutdown under way, and returns. -/
def finish (s : CallSystem α) (t : ServerThread α) (c : ℕ) (destroys : Bool) (rest : List Frame) :
    CallSystem α :=
  { s with alive := if destroys then Function.update s.alive c false else s.alive }.setStack t rest

/-- The first critical section of `close_post`. -/
def closePost (s : CallSystem α) (t : ServerThread α) (c : ℕ) (destroys : Bool)
    (rest : List Frame) : CallSystem α :=
  if (s.thread c).closing then s.finish t c destroys rest
  else
    match (s.thread c).thread with
    | none => s.finish t c destroys rest
    | some worker =>
      (s.setThread c (s.thread c).moveOut).setStack t (.close c destroys (.joins worker) :: rest)

/-- A critical section of a channel's own mutex. -/
def within (s : CallSystem α) (c : ℕ) (s' : CallSystem α) : CallSystem α :=
  if s.alive c then s' else { s with undefined := true }

/-- The steps of `close()` and of `~TcpChannel`, executed by `t`. -/
def closeStep (s : CallSystem α) (t : ServerThread α) (c : ℕ) (destroys : Bool)
    (rest : List Frame) : ClosePc → Option (CallSystem α)
  | .starts =>
    some (s.within c
      ((s.setThread c (s.thread c).closePre).setStack t (.close c destroys .stopping :: rest)))
  | .stopping => some (s.within c (s.closePost t c destroys rest))
  -- not joinable
  | .joins none => some (s.setStack t (.close c destroys .resets :: rest))
  | .joins (some w) =>
    if t = .channel w then
      some ({ s with terminated := true }.setStack t (.close c destroys .threw :: rest))
    else if s.worker w = .exited then some (s.setStack t (.close c destroys .resets :: rest))
    else none
  | .resets =>
    some (s.within c ((s.setThread c (s.thread c).reset).finish t c destroys rest))
  | .threw => none

/-! ## The other calls -/

/-- `close_channel`, which has `lock_` now. -/
def closeChannel (s : CallSystem α) (t : ServerThread α) (c : ℕ) (rest : List Frame) :
    CallSystem α :=
  if c ∈ s.channels then (s.unlist c).setStack t (.close c true .starts :: .unlocks :: rest)
  else s.release.setStack t rest

/-- The next step of the innermost call of `t`. -/
def frameStep (s : CallSystem α) (t : ServerThread α) (rest : List Frame) :
    Frame → Option (CallSystem α)
  | .closeChannel c => (s.acquire t).map (·.closeChannel t c rest)
  | .unlocks => some (s.release.setStack t rest)
  | .broadcast => (s.acquire t).map (·.setStack t (.sending :: rest))
  | .sending => some (s.release.setStack t rest)
  | .checkChannels => (s.acquire t).map (·.setStack t (.checking s.channels :: rest))
  | .checking [] => some (s.release.setStack t rest)
  | .checking (c :: cs) =>
    if s.status c = .tcpDisc then
      some ((s.unlist c).setStack t (.close c true .starts :: .checking cs :: rest))
    else some (s.setStack t (.checking cs :: rest))
  | .joiningServer =>
    if s.acceptor = .exited then
      some ({ s with onAfterReceive := false }.setStack t (.clears :: rest))
    else none
  | .clears => (s.acquire t).map (·.setStack t (.clearing :: rest))
  -- `clear()` destroys the channels from the front
  | .clearing =>
    match s.channels with
    | [] => some (s.release.setStack t rest)
    | c :: _ => some ((s.unlist c).setStack t (.close c true .starts :: .clearing :: rest))
  | .close c destroys pc => s.closeStep t c destroys rest pc

/-- The thread executes the callback, or application code outside of calls into the server. No call
    of the application begins once the destructor has begun. -/
def inUserCode (s : CallSystem α) (t : ServerThread α) : Bool :=
  match t, s.stack t with
  | .channel c, [] =>
    match s.worker c with
    | .calling _ => true
    | _ => false
  | .app _, [] => !s.stopped
  | _, _ => false

/-- The thread executes `OnBeforeSend` for the channel. -/
def inBeforeSend (s : CallSystem α) (t : ServerThread α) (c : ℕ) : Bool :=
  match s.stack t with
  | .sending :: _ => decide (c ∈ s.channels)
  | _ => false

def push (s : CallSystem α) (t : ServerThread α) (frame : Frame) : CallSystem α :=
  s.setStack t (frame :: s.stack t)

/-- `TcpChannel::send` from `::send` on. -/
def send (s : CallSystem α) (t : ServerThread α) (c : ℕ) (nCount : ℤ) : CallSystem α :=
  s.within c (if nCount = -1 then s.push t (.close c false .starts) else s)

def callStep (s : CallSystem α) (t : ServerThread α) : ServerCall → Option (CallSystem α)
  | .send c nCount =>
    if s.inUserCode t || s.inBeforeSend t c then some (s.send t c nCount) else none
  | .closeChannel c => if s.inUserCode t then some (s.push t (.closeChannel c)) else none
  | .broadcast => if s.inUserCode t then some (s.push t .broadcast) else none
  | .destroy =>
    match t with
    | .app _ =>
      if s.inUserCode t then some ({ s with stopped := true }.push t .joiningServer) else none
    | _ => none

/-! ## The loops -/

/-- `TcpChannel::thread_proc` outside of calls; what the callback calls is on the stack. -/
def channelStep (s : CallSystem α) (c : ℕ) (act : WorkerAct) : Option (CallSystem α) :=
  if s.stack (.channel c) ≠ [] then none
  else
    match act, s.worker c with
    | .send, _ => none
    | .exit, .leaving =>
      some (s.within c
        ({ s with status := Function.update s.status c .tcpDisc }.setWorker c .exited))
    | act, pc =>
      (pc.next (s.thread c).doExit s.useEvent s.onAfterReceive act).map fun pc' =>
        s.within c (s.setWorker c pc')

/-- `create` of a new channel. -/
def connect (s : CallSystem α) : CallSystem α :=
  { s with
    created := s.created + 1
    thread := Function.update s.thread s.created { Sync.Thread.new with thread := some (some s.created) }
    alive := Function.update s.alive s.created true
    worker := Function.update s.worker s.created .looping
    acceptor := .inserting s.created }

/-- `TcpServer::thread_proc` outside of `check_channels`. -/
def acceptStep (s : CallSystem α) (act : AcceptAct) : Option (CallSystem α) :=
  if s.stack .accept ≠ [] then none
  else
    match s.acceptor, act with
    | .looping, .next => some { s with acceptor := if s.stopped then .exited else .selecting }
    | .selecting, .select nResult =>
      if nResult = -1 then some { s with acceptor := .exited }
      else
        some ({ s with acceptor := if nResult = 0 then .looping else .accepting }.push .accept
          .checkChannels)
    -- a client, a null pointer, or an exception
    | .accepting, .accept (some true) => some { s with acceptor := .limiting }
    | .accepting, .accept (some false) => some { s with acceptor := .looping }
    | .accepting, .accept none => some { s with acceptor := .exited }
    | .limiting, .next =>
      if s.lock.isSome then none
      else
        some { s with
          acceptor := if (s.channels.length : ℤ) = s.limit then .looping else .connecting }
    | .connecting, .next => some s.connect
    | .inserting c, .next =>
      if s.lock.isSome then none
      else some { s with channels := s.channels ++ [c], acceptor := .looping }
    | _, _ => none

def step (s : CallSystem α) (a : CallAct α) : Option (CallSystem α) :=
  if s.undefined || s.terminated then none
  else
    match a with
    | .accept act => s.acceptStep act
    | .channel c act => s.channelStep c act
    | .call t op => s.callStep t op
    | .next t =>
      match s.stack t with
      | [] => none
      | frame :: rest => s.frameStep t rest frame
    | .setLimit nCount => if s.stopped then none else some { s with limit := nCount }

/-- The accept thread has been started, and there are no channels. -/
def initial (α : Type*) (useEvent onAfterReceive : Bool) : CallSystem α :=
  ⟨none, [], 1, useEvent, onAfterReceive, false, 0, .looping, fun _ => .new, fun _ => false,
    fun _ => .unborn, fun _ => .tcpConn, fun _ => [], false, false⟩

def machine (α : Type*) [DecidableEq α] (useEvent onAfterReceive : Bool) :
    Machine (CallSystem α) (CallAct α) :=
  ⟨initial α useEvent onAfterReceive, step⟩

/-! ## What a step can do -/

omit [DecidableEq α] in
/-- The lifecycle members and the receive threads are the same. -/
structure Same (s s' : CallSystem α) : Prop where
  thread : s'.thread = s.thread
  worker : s'.worker = s.worker
  created : s'.created = s.created

omit [DecidableEq α] in
/-- The receive thread of the channel has been started and has not ended. -/
def Executing (s : CallSystem α) (c : ℕ) : Prop :=
  s.worker c ≠ .unborn ∧ s.worker c ≠ .exited

/-- What the steps of the system can be. -/
inductive Stepped (s : CallSystem α) : CallAct α → CallSystem α → Prop where
  | stays (a : CallAct α) (s' : CallSystem α) (hsame : s.Same s') (hstack : s'.stack = s.stack) :
      Stepped s a s'
  -- calls begin and end outside of `close_post`, or at the test that it begins with
  | shifts (a : CallAct α) (s' : CallSystem α) (t : ServerThread α) (frames : List Frame)
      (hsame : s.Same s') (hstack : s'.stack = Function.update s.stack t frames)
      (hframes : ∀ f ∈ frames, f ∈ s.stack t ∨ f.post = none)
      (hpost : ∀ f ∈ s.stack t, f ∈ frames ∨ f.post = none)
      (hcall : ∀ c, t = .channel c → s.stack t = [] → ∃ inner, s.worker c = .calling inner) :
      Stepped s a s'
  | works (c : ℕ) (act : WorkerAct) (pc : WorkerPc) (s' : CallSystem α)
      (hempty : s.stack (.channel c) = []) (hexecuting : s.Executing c) (hborn : pc ≠ .unborn)
      (hthread : s'.thread = s.thread) (hworker : s'.worker = Function.update s.worker c pc)
      (hcreated : s'.created = s.created) (hstack : s'.stack = s.stack) :
      Stepped s (.channel c act) s'
  | connects : Stepped s (.accept .next) s.connect
  -- `close_pre`
  | requests (t : ServerThread α) (c : ℕ) (destroys : Bool) (rest : List Frame)
      (hstack : s.stack t = .close c destroys .starts :: rest) :
      Stepped s (.next t)
        ((s.setThread c (s.thread c).closePre).setStack t (.close c destroys .stopping :: rest))
  -- `close_post`
  | movesOut (t : ServerThread α) (c : ℕ) (destroys : Bool) (rest : List Frame) (worker : Option ℕ)
      (hstack : s.stack t = .close c destroys .stopping :: rest) (halive : s.alive c = true)
      (hopen : (s.thread c).closing = false) (hthread : (s.thread c).thread = some worker) :
      Stepped s (.next t)
        ((s.setThread c (s.thread c).moveOut).setStack t (.close c destroys (.joins worker) :: rest))
  | joined (t : ServerThread α) (c : ℕ) (destroys : Bool) (rest : List Frame) (worker : Option ℕ)
      (hstack : s.stack t = .close c destroys (.joins worker) :: rest)
      (hdone : ∀ w, worker = some w → s.worker w = .exited) :
      Stepped s (.next t) (s.setStack t (.close c destroys .resets :: rest))
  | joinsItself (c : ℕ) (destroys : Bool) (rest : List Frame) (w : ℕ)
      (hstack : s.stack (.channel w) = .close c destroys (.joins (some w)) :: rest) :
      Stepped s (.next (.channel w))
        ({ s with terminated := true }.setStack (.channel w) (.close c destroys .threw :: rest))
  | resets (t : ServerThread α) (c : ℕ) (destroys : Bool) (rest : List Frame)
      (hstack : s.stack t = .close c destroys .resets :: rest) :
      Stepped s (.next t) ((s.setThread c (s.thread c).reset).finish t c destroys rest)

variable {s s' : CallSystem α} {a : CallAct α} {t : ServerThread α}

/-- The innermost call is outside of `close_post`, and is replaced by calls that are. -/
theorem Stepped.shiftsTop {frame : Frame} {rest : List Frame} (frames : List Frame)
    {s₁ : CallSystem α} (hstack : s.stack t = frame :: rest) (hquiet : frame.post = none)
    (hsame : s.Same s₁) (hkeep : s₁.stack = s.stack) (hframes : ∀ f ∈ frames, f.post = none) :
    Stepped s a (s₁.setStack t (frames ++ rest)) := by
  refine .shifts a _ t (frames ++ rest) ⟨hsame.thread, hsame.worker, hsame.created⟩ ?_ ?_ ?_ ?_
  · rw [setStack, hkeep]
  · intro f hf
    rcases List.mem_append.mp hf with hnew | hrest
    · exact .inr (hframes f hnew)
    · exact .inl (hstack ▸ List.mem_cons_of_mem frame hrest)
  · intro f hf
    rw [hstack] at hf
    rcases List.mem_cons.mp hf with rfl | hrest
    · exact .inr hquiet
    · exact .inl (List.mem_append_right _ hrest)
  · intro c _ hnil
    rw [hstack] at hnil
    cases hnil

/-- The innermost call returns, and was outside of `close_post`. -/
theorem Stepped.returns {frame : Frame} {rest : List Frame} {s₁ : CallSystem α}
    (hstack : s.stack t = frame :: rest) (hquiet : frame.post = none) (hsame : s.Same s₁)
    (hkeep : s₁.stack = s.stack) : Stepped s a (s₁.setStack t rest) :=
  .shiftsTop [] hstack hquiet hsame hkeep nofun

omit [DecidableEq α] in
theorem acquire_eq_some (h : s.acquire t = some s') :
    s' = { s with lock := some t } := by
  unfold acquire at h
  split at h
  · cases h
    rfl
  · cases h

omit [DecidableEq α] in
/-- The part of a step behind `acquire`. -/
theorem map_acquire_eq_some {f : CallSystem α → CallSystem α} (h : (s.acquire t).map f = some s') :
    s' = f { s with lock := some t } := by
  obtain ⟨u, hu, rfl⟩ := Option.map_eq_some_iff.mp h
  rw [acquire_eq_some hu]

omit [DecidableEq α] in
theorem within_eq (s : CallSystem α) (c : ℕ) (s' : CallSystem α) :
    (s.alive c = true ∧ s.within c s' = s') ∨ s.within c s' = { s with undefined := true } := by
  unfold within
  split
  · rename_i halive
    exact .inl ⟨halive, rfl⟩
  · exact .inr rfl

/-- A critical section of a channel that was destroyed. -/
theorem Stepped.undefined : Stepped s a { s with undefined := true } :=
  .stays a _ ⟨rfl, rfl, rfl⟩ rfl

theorem stepped_of_closePost {c : ℕ} {destroys : Bool} {rest : List Frame}
    (hstack : s.stack t = .close c destroys .stopping :: rest) (halive : s.alive c = true) :
    Stepped s (.next t) (s.closePost t c destroys rest) := by
  unfold closePost
  split
  · exact .returns hstack rfl ⟨rfl, rfl, rfl⟩ rfl
  · rename_i hopen
    split
    · exact .returns hstack rfl ⟨rfl, rfl, rfl⟩ rfl
    · rename_i worker hthread
      exact .movesOut t c destroys rest worker hstack halive (by simpa using hopen) hthread

theorem stepped_of_closeStep {c : ℕ} {destroys : Bool} {rest : List Frame} {pc : ClosePc}
    (hstack : s.stack t = .close c destroys pc :: rest)
    (h : s.closeStep t c destroys rest pc = some s') : Stepped s (.next t) s' := by
  unfold closeStep at h
  split at h
  · cases h
    rcases within_eq s c ((s.setThread c (s.thread c).closePre).setStack t
      (.close c destroys .stopping :: rest)) with ⟨-, heq⟩ | heq
    · rw [heq]
      exact .requests t c destroys rest hstack
    · rw [heq]
      exact .undefined
  · cases h
    rcases within_eq s c (s.closePost t c destroys rest) with ⟨halive, heq⟩ | heq
    · rw [heq]
      exact stepped_of_closePost hstack halive
    · rw [heq]
      exact .undefined
  · cases h
    exact .joined t c destroys rest none hstack nofun
  · rename_i w
    split at h
    · rename_i hself
      subst hself
      cases h
      exact .joinsItself c destroys rest w hstack
    · split at h
      · rename_i hexited
        cases h
        refine .joined t c destroys rest (some w) hstack ?_
        rintro _ ⟨⟩
        exact hexited
      · cases h
  · cases h
    rcases within_eq s c ((s.setThread c (s.thread c).reset).finish t c destroys rest) with
      ⟨-, heq⟩ | heq
    · rw [heq]
      exact .resets t c destroys rest hstack
    · rw [heq]
      exact .undefined
  · cases h

theorem stepped_of_frameStep {frame : Frame} {rest : List Frame}
    (hstack : s.stack t = frame :: rest) (h : s.frameStep t rest frame = some s') :
    Stepped s (.next t) s' := by
  unfold frameStep at h
  split at h
  · rename_i c
    rw [map_acquire_eq_some h]
    unfold closeChannel
    split
    · exact .shiftsTop [.close c true .starts, .unlocks] hstack rfl ⟨rfl, rfl, rfl⟩ rfl
        (by simp [Frame.post])
    · exact .returns hstack rfl ⟨rfl, rfl, rfl⟩ rfl
  · cases h
    exact .returns hstack rfl ⟨rfl, rfl, rfl⟩ rfl
  · rw [map_acquire_eq_some h]
    exact .shiftsTop [.sending] hstack rfl ⟨rfl, rfl, rfl⟩ rfl (by simp [Frame.post])
  · cases h
    exact .returns hstack rfl ⟨rfl, rfl, rfl⟩ rfl
  · rw [map_acquire_eq_some h]
    exact .shiftsTop [.checking s.channels] hstack rfl ⟨rfl, rfl, rfl⟩ rfl
      (by simp [Frame.post])
  · cases h
    exact .returns hstack rfl ⟨rfl, rfl, rfl⟩ rfl
  · rename_i c cs
    split at h
    · cases h
      exact .shiftsTop [.close c true .starts, .checking cs] hstack rfl
        ⟨rfl, rfl, rfl⟩ rfl (by simp [Frame.post])
    · cases h
      exact .shiftsTop [.checking cs] hstack rfl ⟨rfl, rfl, rfl⟩ rfl
        (by simp [Frame.post])
  · split at h
    · cases h
      exact .shiftsTop [.clears] hstack rfl ⟨rfl, rfl, rfl⟩ rfl (by simp [Frame.post])
    · cases h
  · rw [map_acquire_eq_some h]
    exact .shiftsTop [.clearing] hstack rfl ⟨rfl, rfl, rfl⟩ rfl (by simp [Frame.post])
  · split at h
    · cases h
      exact .returns hstack rfl ⟨rfl, rfl, rfl⟩ rfl
    · rename_i c cs _
      cases h
      exact .shiftsTop [.close c true .starts, .clearing] hstack rfl
        ⟨rfl, rfl, rfl⟩ rfl (by simp [Frame.post])
  · exact stepped_of_closeStep hstack h

omit [DecidableEq α] in
theorem calling_of_inUserCode {c : ℕ} (h : s.inUserCode (.channel c) = true) :
    ∃ inner, s.worker c = .calling inner := by
  unfold inUserCode at h
  split at h
  · rename_i c' heq _
    cases heq
    split at h
    · rename_i inner hpc
      exact ⟨inner, hpc⟩
    · cases h
  · rename_i heq _
    cases heq
  · cases h

/-- A call begins. -/
theorem Stepped.pushes {frame : Frame} {s₁ : CallSystem α} (hsame : s.Same s₁)
    (hkeep : s₁.stack = s.stack) (hquiet : frame.post = none)
    (hcode : ∀ c, t = .channel c → s.stack t = [] → s.inUserCode t = true) :
    Stepped s a (s₁.push t frame) := by
  refine .shifts a _ t (frame :: s.stack t) ⟨hsame.thread, hsame.worker, hsame.created⟩ ?_ ?_ ?_ ?_
  · rw [push, setStack, hkeep]
  · intro f hf
    rcases List.mem_cons.mp hf with rfl | hold
    · exact .inr hquiet
    · exact .inl hold
  · intro f hf
    exact .inl (List.mem_cons_of_mem frame hf)
  · rintro c rfl hnil
    exact calling_of_inUserCode (hcode c rfl hnil)

theorem stepped_of_callStep {op : ServerCall} (h : s.callStep t op = some s') :
    Stepped s (.call t op) s' := by
  unfold callStep at h
  split at h
  · rename_i c nCount
    split at h
    · rename_i hcode
      cases h
      have hcode' : s.stack t = [] → s.inUserCode t = true := by
        intro hnil
        rw [Bool.or_eq_true] at hcode
        rcases hcode with hcode | hcode
        · exact hcode
        · rw [inBeforeSend, hnil] at hcode
          cases hcode
      unfold send
      rcases within_eq s c (if nCount = -1 then s.push t (.close c false .starts) else s) with
        ⟨-, heq⟩ | heq
      · rw [heq]
        split
        · exact .pushes ⟨rfl, rfl, rfl⟩ rfl rfl fun _ _ => hcode'
        · exact .stays _ _ ⟨rfl, rfl, rfl⟩ rfl
      · rw [heq]
        exact .undefined
    · cases h
  · split at h
    · rename_i hcode
      cases h
      exact .pushes ⟨rfl, rfl, rfl⟩ rfl rfl fun _ _ _ => hcode
    · cases h
  · split at h
    · rename_i hcode
      cases h
      exact .pushes ⟨rfl, rfl, rfl⟩ rfl rfl fun _ _ _ => hcode
    · cases h
  · split at h
    · split at h
      · rename_i hcode
        cases h
        exact .pushes ⟨rfl, rfl, rfl⟩ rfl rfl fun _ _ _ => hcode
      · cases h
    · cases h

theorem stepped_of_channelStep {c : ℕ} {act : WorkerAct} (h : s.channelStep c act = some s') :
    Stepped s (.channel c act) s' := by
  unfold channelStep at h
  split at h
  · cases h
  · rename_i hempty
    have hnil : s.stack (.channel c) = [] := by simpa using hempty
    split at h
    · cases h
    · rename_i hpc
      cases h
      rcases within_eq s c ({ s with status := Function.update s.status c .tcpDisc }.setWorker c
        .exited) with ⟨-, heq⟩ | heq
      · rw [heq]
        exact .works c _ .exited _ hnil (by rw [Executing, hpc]; decide) (by decide) rfl rfl rfl rfl
      · rw [heq]
        exact .undefined
    · obtain ⟨pc, hnext, rfl⟩ := Option.map_eq_some_iff.mp h
      obtain ⟨hunborn, hexited, hborn⟩ := WorkerPc.next_some hnext
      rcases within_eq s c (s.setWorker c pc) with ⟨-, heq⟩ | heq
      · rw [heq]
        exact .works c _ pc _ hnil ⟨hunborn, hexited⟩ hborn rfl rfl rfl rfl
      · rw [heq]
        exact .undefined

theorem stepped_of_acceptStep {act : AcceptAct} (h : s.acceptStep act = some s') :
    Stepped s (.accept act) s' := by
  unfold acceptStep at h
  split at h
  · cases h
  · split at h
    · cases h
      exact .stays _ _ ⟨rfl, rfl, rfl⟩ rfl
    · split at h
      · cases h
        exact .stays _ _ ⟨rfl, rfl, rfl⟩ rfl
      · cases h
        exact .pushes ⟨rfl, rfl, rfl⟩ rfl rfl nofun
    · cases h
      exact .stays _ _ ⟨rfl, rfl, rfl⟩ rfl
    · cases h
      exact .stays _ _ ⟨rfl, rfl, rfl⟩ rfl
    · cases h
      exact .stays _ _ ⟨rfl, rfl, rfl⟩ rfl
    · split at h
      · cases h
      · cases h
        exact .stays _ _ ⟨rfl, rfl, rfl⟩ rfl
    · cases h
      exact .connects
    · split at h
      · cases h
      · cases h
        exact .stays _ _ ⟨rfl, rfl, rfl⟩ rfl
    · cases h

/-- **Case analysis of a step.** -/
theorem stepped_of_step (h : s.step a = some s') : Stepped s a s' := by
  unfold step at h
  split at h
  · cases h
  · split at h
    · exact stepped_of_acceptStep h
    · exact stepped_of_channelStep h
    · exact stepped_of_callStep h
    · split at h
      · cases h
      · rename_i frame rest hstack
        exact stepped_of_frameStep hstack h
    · split at h
      · cases h
      · cases h
        exact .stays _ _ ⟨rfl, rfl, rfl⟩ rfl

end CallSystem

end Pdk.Net
