import Mathlib.Logic.Function.Basic
import Pdk.Sync.GlobalTimerAgreement

/-!
# Timers, event queues and the threads that wait for them

`GlobalTimer` together with the bounded event queues of its owners and with the loop of
`IcmpMonitor::thread_proc` (`include/icmp.hpp`), which starts its timer again on each
`CI_TIMER_DONE`.

`lock_` is held during the whole pass of the scan, so that no timer starts or stops in between; the
queues have mutexes of their own, and owners and producers use them while the scan goes on. Hence
the scan is cut at its iterator: one step for each element of `timer_list_`. `run_scan` says that
these steps together are `GlobalTimer.scan`.
-/

namespace Pdk.Sync

open Foundation

/-- Where the loop of `IcmpMonitor::thread_proc` stands. -/
inductive MonitorPc where
  -- no thread executes the loop
  | idle
  -- about to call `start_timer(interval_)` for the first time
  | starts
  -- about to evaluate `do_exit()`
  | checks
  -- about to enter `remove()`, or waiting in it
  | removes
  -- `CI_TIMER_DONE` was taken, and `start_timer(interval_)` was not yet called behind it
  | handles
  deriving DecidableEq, Repr

/-- The number under which a monitor starts its timer: the default of `which`. -/
def monitorWhich : CInt := ⟨0, int32_zero⟩

/-- A pass of the scan under way: the time that it has read, and its iterator. -/
structure ScanPass where
  ntv : TimeVal
  it : ℕ
  deriving DecidableEq, Repr

structure Delivery (O P : Type*) where
  timer : GlobalTimer O P
  -- the pass that holds `lock_`
  pass : Option ScanPass
  -- `queue_` of each owner
  queue : O → Queue EventInfo
  monitor : O → MonitorPc
  -- a record was used after it was deleted
  undefined : Bool

inductive DeliveryAct (O P : Type*) where
  -- `start_timer`, with the time that `gettimeofday` and the address that `new` returns
  | startTimer (obj : O) (msecs nWhich : CInt) (tv : TimeVal) (p : P)
  | stopTimer (obj : O) (nWhich : CInt)
  -- the loop of `GlobalTimer::thread_proc` has read the clock, and takes `lock_`
  | scanBegin (ntv : TimeVal)
  -- the pass at its iterator
  | scanNext
  -- `add`, by any producer
  | add (obj : O) (event : EventInfo)
  -- `remove`, by an owner that is not a monitor
  | consume (obj : O)
  -- `create` of a monitor
  | launch (obj : O)
  -- `start_timer(interval_)` of a monitor
  | arm (obj : O) (interval : CInt) (tv : TimeVal) (p : P)
  -- `do_exit()` of a monitor
  | check (obj : O) (exits : Bool)
  -- `remove` of a monitor
  | remove (obj : O)
  deriving DecidableEq

namespace Delivery

variable {O P : Type*} [DecidableEq O] [DecidableEq P]

omit [DecidableEq P] in
def setQueue (s : Delivery O P) (obj : O) (queue : Queue EventInfo) : Delivery O P :=
  { s with queue := Function.update s.queue obj queue }

omit [DecidableEq P] in
/-- `add` of an owner. Whether the event was accepted is not used by any caller here. -/
def post (s : Delivery O P) (obj : O) (event : EventInfo) : Delivery O P :=
  s.setQueue obj ((s.queue obj).put event).2

omit [DecidableEq P] in
def moveTo (s : Delivery O P) (obj : O) (pc : MonitorPc) : Delivery O P :=
  { s with monitor := Function.update s.monitor obj pc }

omit [DecidableEq P] in
@[simp]
theorem queue_setQueue_self (s : Delivery O P) (obj : O) (queue : Queue EventInfo) :
    (s.setQueue obj queue).queue obj = queue :=
  Function.update_self _ _ _

omit [DecidableEq P] in
theorem queue_setQueue_of_ne (s : Delivery O P) {obj obj' : O} (h : obj ≠ obj')
    (queue : Queue EventInfo) : (s.setQueue obj' queue).queue obj = s.queue obj :=
  Function.update_of_ne h _ _

omit [DecidableEq P] in
@[simp]
theorem monitor_moveTo_self (s : Delivery O P) (obj : O) (pc : MonitorPc) :
    (s.moveTo obj pc).monitor obj = pc :=
  Function.update_self _ _ _

omit [DecidableEq P] in
theorem monitor_moveTo_of_ne (s : Delivery O P) {obj obj' : O} (h : obj ≠ obj') (pc : MonitorPc) :
    (s.moveTo obj' pc).monitor obj = s.monitor obj :=
  Function.update_of_ne h _ _

/-- `start_timer`, which waits for `lock_`. -/
def startTimer (s : Delivery O P) (obj : O) (msecs nWhich : CInt) (tv : TimeVal) (p : P) :
    Option (Delivery O P) :=
  if s.pass.isSome then none
  else
    match s.timer.addElement obj msecs nWhich tv p with
    | (false, timer) => some { s with timer := timer }
    | (true, timer) =>
      -- `new` does not return the address of a live record
      if (s.timer.live.lookup p).isSome then none else some { s with timer := timer }

/-- `stop_timer`, which waits for `lock_`. -/
def stopTimer (s : Delivery O P) (obj : O) (nWhich : CInt) : Option (Delivery O P) :=
  if s.pass.isSome then none
  else
    match s.timer.removeElement obj nWhich with
    | none => some { s with undefined := true }
    | some (_, timer) => some { s with timer := timer }

/-- The loop of the scan at its iterator. -/
def scanNext (s : Delivery O P) : Option (Delivery O P) :=
  match s.pass with
  | none => none
  | some pass =>
    match s.timer.timerList[pass.it]? with
    -- `it == timer_list_.end()`
    | none => some { s with pass := none }
    | some p =>
      match GlobalTimer.scanSpec pass.ntv s.timer p with
      | none => some { s with undefined := true }
      -- `++it`
      | some (none, timer) => some { s with timer := timer, pass := some ⟨pass.ntv, pass.it + 1⟩ }
      -- `it = timer_list_.erase(it)`, and the event behind it
      | some (some (obj, event), timer) =>
        some (post
          { s with timer := { timer with timerList := timer.timerList.eraseIdx pass.it } } obj event)

/-- `remove()` of a monitor, and the test behind it. -/
def remove (s : Delivery O P) (obj : O) : Option (Delivery O P) :=
  match (s.queue obj).get with
  | none => none
  | some (none, _) => some (s.moveTo obj .idle)
  | some (some event, queue) =>
    some ((s.setQueue obj queue).moveTo obj
      (if event.type = ciTimerDone then .handles else .checks))

/-- One critical section. Nothing is said about what follows undefined behaviour. -/
def step (s : Delivery O P) (a : DeliveryAct O P) : Option (Delivery O P) :=
  if s.undefined then none
  else
    match a with
    | .startTimer obj msecs nWhich tv p => s.startTimer obj msecs nWhich tv p
    | .stopTimer obj nWhich => s.stopTimer obj nWhich
    | .scanBegin ntv => if s.pass.isSome then none else some { s with pass := some ⟨ntv, 0⟩ }
    | .scanNext => s.scanNext
    | .add obj event => some (s.post obj event)
    | .consume obj =>
      match s.monitor obj, (s.queue obj).get with
      | .idle, some (_, queue) => some (s.setQueue obj queue)
      | _, _ => none
    | .launch obj =>
      match s.monitor obj with
      | .idle => some (s.moveTo obj .starts)
      | _ => none
    | .arm obj interval tv p =>
      match s.monitor obj with
      | .starts | .handles =>
        (s.startTimer obj interval monitorWhich tv p).map (·.moveTo obj .checks)
      | _ => none
    | .check obj exits =>
      match s.monitor obj with
      | .checks => some (s.moveTo obj (if exits then .idle else .removes))
      | _ => none
    | .remove obj =>
      match s.monitor obj with
      | .removes => s.remove obj
      | _ => none

omit [DecidableEq O] [DecidableEq P] in
/-- No timer, and an empty queue of each owner's length. -/
def initial (bufferLen : O → ℤ) : Delivery O P :=
  ⟨.new, none, fun obj => .new (bufferLen obj), fun _ => .idle, false⟩

def machine (bufferLen : O → ℤ) : Machine (Delivery O P) (DeliveryAct O P) :=
  ⟨initial bufferLen, step⟩

/-! ## What a step can do -/

/-- What the steps of the system can be. -/
inductive Stepped (s : Delivery O P) : DeliveryAct O P → Delivery O P → Prop where
  -- `start_timer` of a timer that is running, by anyone or by a monitor
  | running (obj : O) (msecs nWhich : CInt) (tv : TimeVal) (p q : P)
      (hvalue : s.timer.timerMap.value obj nWhich = some q) :
      Stepped s (.startTimer obj msecs nWhich tv p) s
  | started (obj : O) (msecs nWhich : CInt) (tv : TimeVal) (p : P)
      (hnone : s.timer.timerMap.value obj nWhich = none) (hfresh : s.timer.live.lookup p = none) :
      Stepped s (.startTimer obj msecs nWhich tv p)
        { s with timer := (s.timer.addElement obj msecs nWhich tv p).2 }
  | armedRunning (obj : O) (interval : CInt) (tv : TimeVal) (p q : P)
      (hvalue : s.timer.timerMap.value obj monitorWhich = some q) :
      Stepped s (.arm obj interval tv p) (s.moveTo obj .checks)
  | armed (obj : O) (interval : CInt) (tv : TimeVal) (p : P)
      (hnone : s.timer.timerMap.value obj monitorWhich = none)
      (hfresh : s.timer.live.lookup p = none) :
      Stepped s (.arm obj interval tv p)
        (moveTo { s with timer := (s.timer.addElement obj interval monitorWhich tv p).2 } obj .checks)
  -- `stop_timer`
  | notRunning (obj : O) (nWhich : CInt) : Stepped s (.stopTimer obj nWhich) s
  | stopped (obj : O) (nWhich : CInt) (p : P) (hvalue : s.timer.timerMap.value obj nWhich = some p) :
      Stepped s (.stopTimer obj nWhich) { s with timer := s.timer.drop obj nWhich p }
  | stoppedDeleted (obj : O) (nWhich : CInt) (p : P)
      (hvalue : s.timer.timerMap.value obj nWhich = some p)
      (hdeleted : s.timer.live.lookup p = none) :
      Stepped s (.stopTimer obj nWhich) { s with undefined := true }
  -- the scan
  | scanBegun (ntv : TimeVal) : Stepped s (.scanBegin ntv) { s with pass := some ⟨ntv, 0⟩ }
  | scanDone : Stepped s .scanNext { s with pass := none }
  | scanDeleted (pass : ScanPass) (p : P) (hpass : s.pass = some pass)
      (hit : s.timer.timerList[pass.it]? = some p) (hdeleted : s.timer.live.lookup p = none) :
      Stepped s .scanNext { s with undefined := true }
  | scanPasses (pass : ScanPass) (p : P) (spec : TimeSpec O) (hpass : s.pass = some pass)
      (hit : s.timer.timerList[pass.it]? = some p) (hspec : s.timer.live.lookup p = some spec)
      (hnot : s.timer.timerMap.value spec.obj (ofUint8 spec.nWhich) = none ∨
        ¬spec.Elapsed pass.ntv) :
      Stepped s .scanNext { s with pass := some ⟨pass.ntv, pass.it + 1⟩ }
  -- a timer ends: `q` is the record that the map has under its number
  | scanEnds (pass : ScanPass) (p q : P) (spec : TimeSpec O) (hpass : s.pass = some pass)
      (hit : s.timer.timerList[pass.it]? = some p) (hspec : s.timer.live.lookup p = some spec)
      (hvalue : s.timer.timerMap.value spec.obj (ofUint8 spec.nWhich) = some q)
      (hdue : spec.Elapsed pass.ntv) :
      Stepped s .scanNext (post
        { s with
          timer := ⟨s.timer.timerMap.discard spec.obj (ofUint8 spec.nWhich),
            s.timer.timerList.eraseIdx pass.it, s.timer.live.erase p⟩ }
        spec.obj (timerEvent spec pass.ntv))
  -- the queues
  | added (obj : O) (event : EventInfo) : Stepped s (.add obj event) (s.post obj event)
  | consumed (obj : O) (queue : Queue EventInfo) (hpc : s.monitor obj = .idle) :
      Stepped s (.consume obj) (s.setQueue obj queue)
  -- the loop of a monitor
  | launched (obj : O) : Stepped s (.launch obj) (s.moveTo obj .starts)
  | exits (obj : O) : Stepped s (.check obj true) (s.moveTo obj .idle)
  | stays (obj : O) (hpc : s.monitor obj = .checks) :
      Stepped s (.check obj false) (s.moveTo obj .removes)
  | removedNull (obj : O) : Stepped s (.remove obj) (s.moveTo obj .idle)
  | removed (obj : O) (event : EventInfo) (rest : List EventInfo) (hpc : s.monitor obj = .removes)
      (hq : (s.queue obj).q = event :: rest) :
      Stepped s (.remove obj) ((s.setQueue obj { s.queue obj with q := rest }).moveTo obj
        (if event.type = ciTimerDone then .handles else .checks))

variable {s s' : Delivery O P} {a : DeliveryAct O P}

theorem startTimer_cases {obj : O} {msecs nWhich : CInt} {tv : TimeVal} {p : P}
    (h : s.startTimer obj msecs nWhich tv p = some s') :
    (∃ q, s.timer.timerMap.value obj nWhich = some q ∧ s' = s) ∨
      (s.timer.timerMap.value obj nWhich = none ∧ s.timer.live.lookup p = none ∧
        s' = { s with timer := (s.timer.addElement obj msecs nWhich tv p).2 }) := by
  unfold startTimer at h
  split at h
  · cases h
  · cases hvalue : s.timer.timerMap.value obj nWhich with
    | some q =>
      rw [GlobalTimer.addElement_running hvalue] at h
      cases h
      exact .inl ⟨q, rfl, rfl⟩
    | none =>
      right
      rw [GlobalTimer.addElement_new hvalue] at h ⊢
      simp only at h
      split at h
      · cases h
      · rename_i hfresh
        cases h
        exact ⟨rfl, Option.not_isSome_iff_eq_none.mp hfresh, rfl⟩

theorem stepped_of_stopTimer {obj : O} {nWhich : CInt} (h : s.stopTimer obj nWhich = some s') :
    Stepped s (.stopTimer obj nWhich) s' := by
  unfold stopTimer at h
  split at h
  · cases h
  · cases hvalue : s.timer.timerMap.value obj nWhich with
    | none =>
      rw [GlobalTimer.removeElement_none hvalue] at h
      cases h
      exact .notRunning obj nWhich
    | some p =>
      cases hspec : s.timer.live.lookup p with
      | some spec =>
        rw [GlobalTimer.removeElement_some hvalue hspec] at h
        cases h
        exact .stopped obj nWhich p hvalue
      | none =>
        rw [GlobalTimer.removeElement_deleted hvalue hspec] at h
        cases h
        exact .stoppedDeleted obj nWhich p hvalue hspec

theorem stepped_of_scanNext (h : s.scanNext = some s') : Stepped s .scanNext s' := by
  unfold scanNext at h
  split at h
  · cases h
  · rename_i pass hpass
    split at h
    · cases h
      exact .scanDone
    · rename_i p hit
      cases hspec : s.timer.live.lookup p with
      | none =>
        have hscan : GlobalTimer.scanSpec pass.ntv s.timer p = none := by
          simp only [GlobalTimer.scanSpec, hspec]
        rw [hscan] at h
        cases h
        exact .scanDeleted pass p hpass hit hspec
      | some spec =>
        cases hvalue : s.timer.timerMap.value spec.obj (ofUint8 spec.nWhich) with
        | none =>
          rw [GlobalTimer.scanSpec_none pass.ntv hspec hvalue] at h
          cases h
          exact .scanPasses pass p spec hpass hit hspec (.inl hvalue)
        | some q =>
          rw [GlobalTimer.scanSpec_eq pass.ntv hspec hvalue] at h
          by_cases hdue : spec.Elapsed pass.ntv
          · rw [if_pos hdue] at h
            cases h
            exact .scanEnds pass p q spec hpass hit hspec hvalue hdue
          · rw [if_neg hdue] at h
            cases h
            exact .scanPasses pass p spec hpass hit hspec (.inr hdue)

theorem stepped_of_remove {obj : O} (hpc : s.monitor obj = .removes)
    (h : s.remove obj = some s') : Stepped s (.remove obj) s' := by
  unfold remove at h
  rcases Queue.get_cases (s.queue obj) with ⟨event, rest, hq, hget⟩ | ⟨-, -, hget⟩ | ⟨-, -, hget⟩
  · rw [hget] at h
    cases h
    exact .removed obj event rest hpc hq
  · rw [hget] at h
    cases h
    exact .removedNull obj
  · rw [hget] at h
    cases h

theorem stepped_of_arm {obj : O} {interval : CInt} {tv : TimeVal} {p : P}
    (h : (s.startTimer obj interval monitorWhich tv p).map (·.moveTo obj .checks) = some s') :
    Stepped s (.arm obj interval tv p) s' := by
  rw [Option.map_eq_some_iff] at h
  obtain ⟨t, ht, rfl⟩ := h
  rcases startTimer_cases ht with ⟨q, hvalue, rfl⟩ | ⟨hnone, hfresh, rfl⟩
  · exact .armedRunning obj interval tv p q hvalue
  · exact .armed obj interval tv p hnone hfresh

/-- **Case analysis of a step**, which is taken from a state that is defined. -/
theorem stepped_of_step (h : s.step a = some s') : Stepped s a s' ∧ s.undefined = false := by
  unfold step at h
  split at h
  · cases h
  · rename_i hdefined
    refine ⟨?_, Bool.eq_false_iff.mpr hdefined⟩
    cases a with
    | startTimer obj msecs nWhich tv p =>
      rcases startTimer_cases h with ⟨q, hvalue, rfl⟩ | ⟨hnone, hfresh, rfl⟩
      · exact .running obj msecs nWhich tv p q hvalue
      · exact .started obj msecs nWhich tv p hnone hfresh
    | stopTimer obj nWhich => exact stepped_of_stopTimer h
    | scanBegin ntv =>
      simp only at h
      split at h
      · cases h
      · cases h
        exact .scanBegun ntv
    | scanNext => exact stepped_of_scanNext h
    | add obj event =>
      cases h
      exact .added obj event
    | consume obj =>
      simp only at h
      split at h
      · rename_i hpc _
        cases h
        exact .consumed obj _ hpc
      · cases h
    | launch obj =>
      simp only at h
      split at h
      · cases h
        exact .launched obj
      · cases h
    | arm obj interval tv p =>
      simp only at h
      split at h
      · exact stepped_of_arm h
      · exact stepped_of_arm h
      · cases h
    | check obj exits =>
      simp only at h
      split at h
      · rename_i hpc
        cases h
        cases exits with
        | true => exact .exits obj
        | false => exact .stays obj hpc
      · cases h
    | remove obj =>
      simp only at h
      split at h
      · rename_i hpc
        exact stepped_of_remove hpc h
      · cases h

/-! ## The steps of a pass together -/

omit [DecidableEq P] in
/-- The queues behind the events of a pass, in the order of the calls of `add_event`. -/
def postAll (queue : O → Queue EventInfo) (events : List (O × EventInfo)) : O → Queue EventInfo :=
  events.foldl (fun queue e => Function.update queue e.1 ((queue e.1).put e.2).2) queue

/-- The rest of a pass. -/
theorem run_scanNext (bufferLen : O → ℤ) (ntv : TimeVal) (before todo : List P)
    (t : GlobalTimer O P) (s : Delivery O P) (hdefined : s.undefined = false) {kept : List P}
    {events : List (O × EventInfo)} {t' : GlobalTimer O P}
    (hscan : GlobalTimer.scanList ntv todo t = some (kept, events, t')) :
    (machine bufferLen).run
      { s with
        timer := { t with timerList := before ++ todo }
        pass := some ⟨ntv, before.length⟩ }
      (List.replicate (todo.length + 1) .scanNext) =
    some { s with
      timer := { t' with timerList := before ++ kept }
      pass := none
      queue := postAll s.queue events } := by
  induction todo generalizing before t s kept events with
  | nil =>
    cases hscan
    simp [machine, step, scanNext, hdefined, postAll]
  | cons p todo ih =>
    have hit : (before ++ p :: todo)[before.length]? = some p := by simp
    simp only [GlobalTimer.scanList] at hscan
    split at hscan
    · cases hscan
    · rename_i posted t₁ hspec
      split at hscan
      · cases hscan
      · rename_i kept' events' t₂ hrest
        rw [List.length_cons, List.replicate_succ, Machine.run_cons]
        simp only [machine, step, hdefined, scanNext, hit, GlobalTimer.scanSpec_timerList, hspec,
          Option.map_some, Bool.false_eq_true, if_false]
        split at hscan
        · rename_i event
          cases hscan
          have herase : (before ++ p :: todo).eraseIdx before.length = before ++ todo := by
            simp [List.eraseIdx_append_of_length_le]
          have hnext := ih before t₁ (s.post event.1 event.2) hdefined hrest
          simp only [post, setQueue, hdefined] at hnext
          simp only [herase]
          exact hnext
        · cases hscan
          have hnext := ih (before ++ [p]) t₁ s hdefined hrest
          rw [List.append_assoc, List.append_assoc, List.length_append, hdefined] at hnext
          exact hnext

/-- **A pass is `GlobalTimer.scan`**, when no other step comes in between. -/
theorem run_scan (bufferLen : O → ℤ) {ntv : TimeVal} {events : List (O × EventInfo)}
    {t' : GlobalTimer O P} (hdefined : s.undefined = false) (hfree : s.pass = none)
    (hscan : s.timer.scan ntv = some (events, t')) :
    (machine bufferLen).run s
      (.scanBegin ntv :: List.replicate (s.timer.timerList.length + 1) .scanNext) =
    some { s with timer := t', queue := postAll s.queue events } := by
  unfold GlobalTimer.scan at hscan
  split at hscan
  · cases hscan
  · rename_i kept events' t₁ hlist
    cases hscan
    have hpass := run_scanNext bufferLen ntv [] s.timer.timerList s.timer s hdefined hlist
    have hbegin : (machine bufferLen).step s (.scanBegin ntv) =
        some { s with pass := some ⟨ntv, 0⟩ } := by
      simp [machine, step, hdefined, hfree]
    rw [Machine.run_cons, hbegin, Option.bind_some, hfree]
    exact hpass

end Delivery

end Pdk.Sync
