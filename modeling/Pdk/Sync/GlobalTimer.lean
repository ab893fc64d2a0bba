import Pdk.Foundation.Bytes
import Pdk.Foundation.NestedMap
import Pdk.Foundation.Transition
import Pdk.Sync.QThread

/-!
# `GlobalTimer`

Model of `GlobalTimer` in `include/util.hpp` and `src/util.cpp`. A timer is a `TimeSpec` that was
allocated with `new`; it is in `timer_list_` and, under its owner and its number, in `timer_map_`.
`start_timer`, `stop_timer` and one pass of the loop of `thread_proc` are critical sections of
`lock_`, hence atomic; the clock and the address that `new` returns are inputs of the steps.

A record that was deleted must not be used again: where the source does so, its behaviour is
undefined, and the functions here have no result.

The order of a hash map is never observed, so that a map that keeps its insertion order stands for
it.
-/

namespace Pdk.Sync

open Foundation

/-! ## Time -/

/-- `struct timeval`. -/
structure TimeVal where
  tvSec : ℤ
  tvUsec : ℤ
  deriving DecidableEq, Repr

/-- `PDK_ABS`. -/
def pdkAbs (x : ℤ) : ℤ :=
  if x ≥ 0 then x else -x

/-- `DIFFTIME(tvp, uvp)`: milliseconds, with the division of C++, which rounds towards zero. The
    operands are `long`s, and the differences of two clock values stay far from their bounds. -/
def diffTime (tvp uvp : TimeVal) : ℤ :=
  pdkAbs ((tvp.tvSec - uvp.tvSec) * 1000 + (tvp.tvUsec - uvp.tvUsec).tdiv 1000)

/-! ## Records -/

/-- `static_cast<uint8_t>`. -/
def toUint8 (n : CInt) : UInt8 :=
  UInt8.ofNat (n.val % 256).toNat

/-- A `uint8_t` where an `int` is expected. -/
def ofUint8 (b : UInt8) : CInt :=
  ⟨b.toNat, by
    have hlt := b.toNat_lt
    have hmin : int32Min = -2147483648 := rfl
    have hmax : int32Max = 2147483647 := rfl
    omega⟩

/-- `GlobalTimer::TimeSpec`. -/
structure TimeSpec (O : Type*) where
  tv : TimeVal
  nTerm : CInt
  nWhich : UInt8
  obj : O

namespace TimeSpec

variable {O : Type*}

/-- The test of the scan. -/
def Elapsed (spec : TimeSpec O) (ntv : TimeVal) : Prop :=
  diffTime spec.tv ntv ≥ spec.nTerm.val

instance (spec : TimeSpec O) (ntv : TimeVal) : Decidable (spec.Elapsed ntv) :=
  inferInstanceAs (Decidable (_ ≥ _))

end TimeSpec

/-- `CI_TIMER_DONE`. -/
def ciTimerDone : ℕ := 0xFFFF

/-- `strBuf`, with its terminator. -/
def timerText (term : ℤ) (delay : CInt) : List UInt8 :=
  ("Term:" ++ toString term ++ ", Delay:" ++ toString delay.val).toList.map Char.toUInt8 ++ [0]

/-- The event that the scan passes to `add_event` of the owner. -/
def timerEvent {O : Type*} (spec : TimeSpec O) (ntv : TimeVal) : EventInfo :=
  .build ciTimerDone spec.nWhich.toNat (timerText (diffTime spec.tv ntv) spec.nTerm)

/-! ## The object -/

/-- The registry of the timers; `O` are the addresses of the owners, `P` those of the records. -/
structure GlobalTimer (O P : Type*) where
  timerMap : OrderedMap O (OrderedMap CInt P)
  timerList : List P
  -- the memory: the records that were allocated and not deleted
  live : OrderedMap P (TimeSpec O)

namespace GlobalTimer

variable {O P : Type*} [DecidableEq O] [DecidableEq P]

omit [DecidableEq O] [DecidableEq P] in
def new : GlobalTimer O P :=
  ⟨OrderedMap.empty, [], OrderedMap.empty⟩

/-- `AddElement(obj, msecs, nWhich)` at time `tv`, where `new` returns `p`. -/
def addElement (t : GlobalTimer O P) (obj : O) (msecs nWhich : CInt) (tv : TimeVal) (p : P) :
    Bool × GlobalTimer O P :=
  -- `timer_map_[obj]` makes an inner map when there is none
  let whichMap := t.timerMap.inner obj
  let timerMap := t.timerMap.insert obj whichMap
  if (whichMap.lookup nWhich).isSome then (false, { t with timerMap := timerMap })
  else
    (true,
      { timerMap := timerMap.insert obj (whichMap.insert nWhich p)
        timerList := t.timerList ++ [p]
        live := t.live.insert p ⟨tv, msecs, toUint8 nWhich, obj⟩ })

/-- `RemoveElement(obj, nWhich)`; no result when a record is deleted that was deleted before. -/
def removeElement (t : GlobalTimer O P) (obj : O) (nWhich : CInt) :
    Option (Bool × GlobalTimer O P) :=
  match t.timerMap.lookup obj with
  | none => some (false, t)
  | some whichMap =>
    match whichMap.lookup nWhich with
    | none => some (false, t)
    | some p =>
      if (t.live.lookup p).isSome then
        some (true,
          { timerMap := t.timerMap.discard obj nWhich
            timerList := t.timerList.filter (· ≠ p)
            live := t.live.erase p })
      else none

/-- The loop of `thread_proc` at one element of the list: the event, if the record is deleted, and
    the object without the change of the list. No result when the record was deleted before. -/
def scanSpec (ntv : TimeVal) (t : GlobalTimer O P) (p : P) :
    Option (Option (O × EventInfo) × GlobalTimer O P) :=
  match t.live.lookup p with
  | none => none
  | some spec =>
    match t.timerMap.lookup spec.obj with
    | none => some (none, t)
    | some whichMap =>
      -- the key is the number as the record holds it
      match whichMap.lookup (ofUint8 spec.nWhich) with
      | none => some (none, t)
      | some _ =>
        if spec.Elapsed ntv then
          some (some (spec.obj, timerEvent spec ntv),
            { t with
              timerMap := t.timerMap.discard spec.obj (ofUint8 spec.nWhich)
              live := t.live.erase p })
        else some (none, t)

/-- The loop of `thread_proc` over the rest of the list: what stays of it, the events, and the
    object. -/
def scanList (ntv : TimeVal) : List P → GlobalTimer O P →
    Option (List P × List (O × EventInfo) × GlobalTimer O P)
  | [], t => some ([], [], t)
  | p :: ps, t =>
    match scanSpec ntv t p with
    | none => none
    | some (posted, t') =>
      match scanList ntv ps t' with
      | none => none
      | some (kept, events, t'') =>
        match posted with
        -- `it = timer_list_.erase(it)`
        | some event => some (kept, event :: events, t'')
        -- `++it`
        | none => some (p :: kept, events, t'')

/-- One pass of the loop of `thread_proc`, at time `ntv`: the events in the order of the calls of
    `add_event`. -/
def scan (t : GlobalTimer O P) (ntv : TimeVal) : Option (List (O × EventInfo) × GlobalTimer O P) :=
  match scanList ntv t.timerList t with
  | none => none
  | some (kept, events, t') => some (events, { t' with timerList := kept })

end GlobalTimer

/-! ## Runs -/

inductive TimerAction (O P : Type*) where
  -- `start_timer`, with the time that `gettimeofday` and the address that `new` returns
  | startTimer (obj : O) (msecs nWhich : CInt) (tv : TimeVal) (p : P)
  | stopTimer (obj : O) (nWhich : CInt)
  | scan (ntv : TimeVal)
  deriving DecidableEq

/-- What can be seen of a step. -/
inductive TimerOutcome (O : Type*) where
  | started (obj : O) (nWhich : CInt) (result : Bool)
  | stopped (obj : O) (nWhich : CInt) (result : Bool)
  | posted (obj : O) (event : EventInfo)
  deriving DecidableEq

structure TimerSystem (O P : Type*) where
  timer : GlobalTimer O P
  log : List (TimerOutcome O)
  -- a record was used after it was deleted
  undefined : Bool

namespace TimerSystem

variable {O P : Type*} [DecidableEq O] [DecidableEq P]

/-- The step of a call that had a result. -/
def after (s : TimerSystem O P) (timer : GlobalTimer O P) (outcomes : List (TimerOutcome O)) :
    TimerSystem O P :=
  { s with timer := timer, log := s.log ++ outcomes }

def postings (events : List (O × EventInfo)) : List (TimerOutcome O) :=
  events.map fun e => .posted e.1 e.2

/-- One critical section of `lock_`. Nothing is said about what follows undefined behaviour. -/
def step (s : TimerSystem O P) (a : TimerAction O P) : Option (TimerSystem O P) :=
  if s.undefined then none
  else
    match a with
    | .startTimer obj msecs nWhich tv p =>
      match s.timer.addElement obj msecs nWhich tv p with
      | (false, timer) => some (s.after timer [.started obj nWhich false])
      | (true, timer) =>
        -- `new` does not return the address of a live record
        if (s.timer.live.lookup p).isSome then none
        else some (s.after timer [.started obj nWhich true])
    | .stopTimer obj nWhich =>
      match s.timer.removeElement obj nWhich with
      | none => some { s with undefined := true }
      | some (result, timer) => some (s.after timer [.stopped obj nWhich result])
    | .scan ntv =>
      match s.timer.scan ntv with
      | none => some { s with undefined := true }
      | some (events, timer) => some (s.after timer (postings events))

omit [DecidableEq O] [DecidableEq P] in
def initial : TimerSystem O P :=
  ⟨.new, [], false⟩

def machine : Machine (TimerSystem O P) (TimerAction O P) :=
  ⟨initial, step⟩

end TimerSystem

end Pdk.Sync
