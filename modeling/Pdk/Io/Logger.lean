import Mathlib.Algebra.GroupWithZero.Nat
import Mathlib.Logic.Function.Basic
import Pdk.Foundation.Bytes
import Pdk.Foundation.Transition

/-!
# `Logger`

Model of the consumer thread of `src/logger.cpp` with the files it works on. A step is one message
taken from `queue_`, or one operation on the file system: what is left to do for a message is a list
of operations, so that every state of the files between two of them is a state of the model.

`check_quota` moves the active file `prefix.MMDD` to `prefix.1` when it has grown over the quota, and
`prefix.1`, …, `prefix.6` one slot further before that. `do_open` calls it again. The code that
handles a message exists twice, in the main loop and in the loop that drains the queue behind `Stop`;
both do the same.

`stat`, `rename`, `open` and `write` do as POSIX says, and no name is cut by `snprintf`. Sizes and
quotas are below 2^53, so that the comparison of `check_quota` in `double` is exact.
-/

namespace Pdk.Io

open Foundation

/-- A path name. -/
abbrev Path : Type := List Char

/-- A text as `log` puts it into the queue: what `snprintf` leaves in its buffer. -/
structure LogText where
  bytes : List UInt8
  length_lt : bytes.length < 20480 + 128
  deriving DecidableEq, Repr

inductive LogMsg where
  | log (text : LogText)
  -- an empty name or path, or the quota 0, keeps what is set
  | reopen (prefixName path : Path) (quota : CInt)
  | stop
  deriving DecidableEq, Repr

/-- What is left to do for a message. -/
inductive LogOp where
  -- an iteration of the loop of `check_quota`
  | cascade (i : ℕ)
  -- its last `rename`
  | moveActive
  | doOpen
  -- the part of `do_open` behind the name
  | openFile
  | write (text : LogText)
  deriving DecidableEq, Repr

structure Logger where
  prefixName : Path
  rootPath : Path
  loggerPath : Path
  quota : ℤ
  -- the name under which `file_` was opened
  file : Option Path
  date : ℕ
  queue : List LogMsg
  todo : List LogOp
  -- behind `Stop`
  draining : Bool
  exited : Bool
  -- the destructor has put `Stop`
  stopped : Bool
  files : Path → Option (List UInt8)
  -- the texts for which `file_.write` was called
  handled : List LogText

inductive LoggerAct where
  -- `log`, by any thread
  | log (text : LogText)
  -- the destructor puts `Stop`
  | destroy
  -- the consumer; `nDate` is what `make_date` returns
  | work (nDate : ℕ)
  deriving DecidableEq, Repr

/-- `MAX_QUATA_INDEX`. -/
def maxQuataIndex : ℕ := 7

/-- `%04d`, of a number below 10000. -/
def fourDigits (n : ℕ) : List Char :=
  [n / 1000 % 10, n / 100 % 10, n / 10 % 10, n % 10].map Nat.digitChar

/-- POSIX `rename`; it fails when the old name does not exist. -/
def rename (files : Path → Option (List UInt8)) (oldName newName : Path) :
    Path → Option (List UInt8) :=
  match files oldName with
  | none => files
  | some bytes => Function.update (Function.update files oldName none) newName (some bytes)

namespace Logger

/-- The name of slot `i`. -/
def slotName (s : Logger) (i : ℕ) : Path :=
  s.rootPath ++ s.prefixName ++ ['.', Nat.digitChar i]

/-- The name of the dated file. -/
def datedName (s : Logger) (date : ℕ) : Path :=
  s.rootPath ++ s.prefixName ++ '.' :: fourDigits (date % 10000)

/-- The tests of `check_quota`. -/
def overQuota (s : Logger) : Bool :=
  if s.quota < 1 then false
  else if s.loggerPath = [] then false
  else
    match s.files s.loggerPath with
    | none => false
    | some bytes => !decide ((bytes.length : ℤ) ≤ s.quota * 1048576)

/-- What `check_quota` does when it returns true, behind `file_.close()`. -/
def rotation : List LogOp :=
  ((List.range (maxQuataIndex - 1)).reverse.map fun i => .cascade (i + 1)) ++ [.moveActive]

example : rotation = [.cascade 6, .cascade 5, .cascade 4, .cascade 3, .cascade 2, .cascade 1,
    .moveActive] := by decide

/-- One operation, the rest of which is `rest`. -/
def perform (s : Logger) (rest : List LogOp) : LogOp → Logger
  -- nothing is renamed if the slot is not there
  | .cascade i => { s with files := rename s.files (s.slotName i) (s.slotName (i + 1)), todo := rest }
  | .moveActive => { s with files := rename s.files s.loggerPath (s.slotName 1), todo := rest }
  | .doOpen =>
    if s.overQuota then { s with file := none, todo := rotation ++ .openFile :: rest }
    else { s with loggerPath := s.datedName s.date, todo := .openFile :: rest }
  -- `modeWrite | modeNoTruncate | modeCreate` keeps what is in the file
  | .openFile =>
    { s with
      file := some s.loggerPath
      files := Function.update s.files s.loggerPath (some ((s.files s.loggerPath).getD []))
      todo := rest }
  | .write text =>
    -- the length is cast to `unsigned int`
    let bytes := text.bytes.take (text.bytes.length % 2 ^ 32)
    let files := match s.file with
      | none => s.files
      | some name => Function.update s.files name (some ((s.files name).getD [] ++ bytes))
    { s with files := files, handled := s.handled ++ [text], todo := rest }

/-- A `Log` message, up to the operations. -/
def handleLog (s : Logger) (nDate : ℕ) (text : LogText) : Logger :=
  if s.overQuota then { s with file := none, todo := rotation ++ [.doOpen, .write text] }
  else if s.date < nDate then { s with date := nDate, todo := [.doOpen, .write text] }
  else { s with todo := [.write text] }

/-- A `Reopen` message, up to the operations. -/
def handleReopen (s : Logger) (prefixName path : Path) (quota : CInt) : Logger :=
  { s with
    prefixName := if prefixName = [] then s.prefixName else prefixName
    rootPath := if path = [] then s.rootPath else path
    quota := if quota.val = 0 then s.quota else quota.val
    loggerPath := []
    todo := [.doOpen] }

/-- `thread_proc`. -/
def work (s : Logger) (nDate : ℕ) : Option Logger :=
  if s.exited then none
  else
    match s.todo, s.queue with
    | op :: rest, _ => some (s.perform rest op)
    | [], .log text :: queue => some ({ s with queue := queue }.handleLog nDate text)
    | [], .reopen prefixName path quota :: queue =>
      some ({ s with queue := queue }.handleReopen prefixName path quota)
    | [], .stop :: queue => some { s with queue := queue, draining := true }
    | [], [] => if s.draining then some { s with file := none, exited := true } else none

def step (s : Logger) : LoggerAct → Option Logger
  | .log text => some { s with queue := s.queue ++ [.log text] }
  | .destroy =>
    if s.stopped then none else some { s with queue := s.queue ++ [.stop], stopped := true }
  | .work nDate => s.work nDate

/-- A new logger on which `create_file(pPrefix, pPath, nQuata)` was called, with no files. -/
def created (prefixName path : Path) (quota : CInt) (date : ℕ) : Logger :=
  ⟨"log".toList, "../bin/log/".toList, [], 0, none, date, [.reopen prefixName path quota], [], false,
    false, false, fun _ => none, []⟩

def machine (prefixName path : Path) (quota : CInt) (date : ℕ) : Machine Logger LoggerAct :=
  ⟨created prefixName path quota date, step⟩

/-- What a step of the consumer can be. -/
inductive Worked (s : Logger) (nDate : ℕ) : Logger → Prop where
  | performs (op : LogOp) (rest : List LogOp) (htodo : s.todo = op :: rest) :
      Worked s nDate (s.perform rest op)
  | logs (text : LogText) (queue : List LogMsg) (htodo : s.todo = [])
      (hqueue : s.queue = .log text :: queue) :
      Worked s nDate ({ s with queue := queue }.handleLog nDate text)
  | reopens (prefixName path : Path) (quota : CInt) (queue : List LogMsg) (htodo : s.todo = [])
      (hqueue : s.queue = .reopen prefixName path quota :: queue) :
      Worked s nDate ({ s with queue := queue }.handleReopen prefixName path quota)
  | stops (queue : List LogMsg) (htodo : s.todo = []) (hqueue : s.queue = .stop :: queue) :
      Worked s nDate { s with queue := queue, draining := true }
  | leaves (htodo : s.todo = []) (hqueue : s.queue = []) (hdraining : s.draining = true) :
      Worked s nDate { s with file := none, exited := true }

/-- **Case analysis of a step of the consumer.** -/
theorem worked_of_work {s s' : Logger} {nDate : ℕ} (h : s.work nDate = some s') :
    s.exited = false ∧ Worked s nDate s' := by
  unfold work at h
  split at h
  · cases h
  · rename_i hexited
    refine ⟨by simpa using hexited, ?_⟩
    split at h
    · rename_i op rest htodo
      cases h
      exact .performs op rest htodo
    · rename_i text queue htodo hqueue
      cases h
      exact .logs text queue htodo hqueue
    · rename_i prefixName path quota queue htodo hqueue
      cases h
      exact .reopens prefixName path quota queue htodo hqueue
    · rename_i queue htodo hqueue
      cases h
      exact .stops queue htodo hqueue
    · rename_i htodo hqueue
      split at h
      · rename_i hdraining
        cases h
        exact .leaves htodo hqueue hdraining
      · cases h

/-- An operation leaves the queue and the flags alone. -/
theorem perform_flags (s : Logger) (rest : List LogOp) (op : LogOp) :
    (s.perform rest op).queue = s.queue ∧ (s.perform rest op).draining = s.draining ∧
      (s.perform rest op).exited = s.exited ∧ (s.perform rest op).stopped = s.stopped := by
  cases op with
  | doOpen =>
    simp only [perform]
    split
    · exact ⟨rfl, rfl, rfl, rfl⟩
    · exact ⟨rfl, rfl, rfl, rfl⟩
  | _ => exact ⟨rfl, rfl, rfl, rfl⟩

theorem handleLog_flags (s : Logger) (nDate : ℕ) (text : LogText) :
    (s.handleLog nDate text).queue = s.queue ∧ (s.handleLog nDate text).draining = s.draining ∧
      (s.handleLog nDate text).exited = s.exited ∧
      (s.handleLog nDate text).stopped = s.stopped ∧
      (s.handleLog nDate text).handled = s.handled := by
  unfold handleLog
  split
  · exact ⟨rfl, rfl, rfl, rfl, rfl⟩
  · split
    · exact ⟨rfl, rfl, rfl, rfl, rfl⟩
    · exact ⟨rfl, rfl, rfl, rfl, rfl⟩

/-- The contents of a file; that of an absent one is empty. -/
def contents (s : Logger) (name : Path) : List UInt8 :=
  (s.files name).getD []

end Logger

end Pdk.Io
