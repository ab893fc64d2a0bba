import Pdk.Io.LoggerRotation

/-!
# The file of the day

The consumer of `src/logger.cpp` compares `date_` with `make_date()` for every text, and opens the
file of the new day when they differ. The test comes behind that of the quota: when the active file
has grown over the quota, the text goes to a fresh file of the day in `date_`, whatever day it is
now. The next text is compared again.

`DatedLogger` records for every text what `make_date` returned when it was handled, and the file that
it was written to. `dated_iff` says when the two agree.
-/

namespace Pdk.Io

open Foundation

/-- An operation of `check_quota`. -/
def LogOp.rotates : LogOp → Bool
  | .cascade _ => true
  | .moveActive => true
  | _ => false

theorem fourDigits_inj {m n : ℕ} (hm : m < 10000) (hn : n < 10000)
    (h : fourDigits m = fourDigits n) : m = n := by
  simp only [fourDigits, List.map_cons, List.map_nil, List.cons.injEq, and_true] at h
  obtain ⟨h₁, h₂, h₃, h₄⟩ := h
  have hdigit : ∀ k, k % 10 < 10 := fun k => Nat.mod_lt k (by decide)
  have h₁' := Logger.digitChar_inj (hdigit _) (hdigit _) h₁
  have h₂' := Logger.digitChar_inj (hdigit _) (hdigit _) h₂
  have h₃' := Logger.digitChar_inj (hdigit _) (hdigit _) h₃
  have h₄' := Logger.digitChar_inj (hdigit _) (hdigit _) h₄
  omega

namespace Logger

/-! ## What is left to do for a message -/

variable {s s' : Logger} {rest : List LogOp} {op : LogOp}

/-- `logger_path_` is the file of the day in `date_`. -/
def Named (s : Logger) : Prop :=
  s.loggerPath = s.datedName s.date

/-- A text to write, or nothing. -/
def Ending (tail : List LogOp) : Prop :=
  tail = [] ∨ ∃ text, tail = [.write text]

/-- The operations that are left end with the file of the day in `date_` open. -/
inductive Doing (s : Logger) : List LogOp → Prop where
  | idle (hnamed : s.Named) (hfile : s.exited = false → s.file = some s.loggerPath) : Doing s []
  | writes (text : LogText) (hnamed : s.Named) (hfile : s.file = some s.loggerPath) :
      Doing s [.write text]
  -- `check_quota` has returned true, in `do_open` or before it
  | opens (ops tail : List LogOp) (hops : ∀ op ∈ ops, op.rotates = true) (htail : Ending tail)
      (hnamed : s.Named) : Doing s (ops ++ .openFile :: tail)
  | rotates (ops tail : List LogOp) (hops : ∀ op ∈ ops, op.rotates = true) (htail : Ending tail)
      (hnamed : s.Named) : Doing s (ops ++ .doOpen :: tail)
  -- or it will return false
  | names (tail : List LogOp) (htail : Ending tail) (hquota : s.overQuota = false) :
      Doing s (.doOpen :: tail)

/-- An operation of `check_quota` is about the files alone. -/
theorem perform_rotates (hop : op.rotates = true) :
    (s.perform rest op).loggerPath = s.loggerPath ∧ (s.perform rest op).date = s.date ∧
      (s.perform rest op).datedName = s.datedName ∧ (s.perform rest op).todo = rest := by
  cases op with
  | cascade i => exact ⟨rfl, rfl, rfl, rfl⟩
  | moveActive => exact ⟨rfl, rfl, rfl, rfl⟩
  | _ => cases hop

theorem Named.perform_rotates (h : s.Named) (hop : op.rotates = true) :
    (s.perform rest op).Named := by
  rw [Named, (Logger.perform_rotates hop).1, (Logger.perform_rotates hop).2.1,
    (Logger.perform_rotates hop).2.2.1]
  exact h

theorem rotates_rotation : ∀ op ∈ rotation, op.rotates = true := by decide

theorem doing_openFile (hnamed : s.Named) {tail : List LogOp} (htail : Ending tail) :
    Doing (s.perform tail .openFile) (s.perform tail .openFile).todo := by
  rcases htail with rfl | ⟨text, rfl⟩
  · exact .idle hnamed fun _ => rfl
  · exact .writes text hnamed rfl

theorem doing_doOpen (hnamed : s.Named ∨ s.overQuota = false) {tail : List LogOp}
    (htail : Ending tail) : Doing (s.perform tail .doOpen) (s.perform tail .doOpen).todo := by
  simp only [perform]
  split
  · rename_i hover
    rcases hnamed with hnamed | hunder
    · exact .opens rotation tail rotates_rotation htail hnamed
    · rw [hover] at hunder
      cases hunder
  · exact .opens [] tail (fun _ hop => absurd hop List.not_mem_nil) htail rfl

/-- **Step lemma of the operations.** -/
theorem Doing.perform (h : Doing s (op :: rest)) :
    Doing (s.perform rest op) (s.perform rest op).todo := by
  generalize htodo : op :: rest = todo at h
  cases h with
  | idle _ _ => cases htodo
  | writes text hnamed hfile =>
    cases htodo
    exact .idle hnamed fun _ => hfile
  | opens ops tail hops htail hnamed =>
    cases ops with
    | nil =>
      cases htodo
      exact doing_openFile hnamed htail
    | cons o ops =>
      cases htodo
      have hop := hops op List.mem_cons_self
      rw [(perform_rotates hop).2.2.2]
      exact .opens ops tail (fun o ho => hops o (List.mem_cons_of_mem _ ho)) htail
        (hnamed.perform_rotates hop)
  | rotates ops tail hops htail hnamed =>
    cases ops with
    | nil =>
      cases htodo
      exact doing_doOpen (.inl hnamed) htail
    | cons o ops =>
      cases htodo
      have hop := hops op List.mem_cons_self
      rw [(perform_rotates hop).2.2.2]
      exact .rotates ops tail (fun o ho => hops o (List.mem_cons_of_mem _ ho)) htail
        (hnamed.perform_rotates hop)
  | names tail htail hquota =>
    cases htodo
    exact doing_doOpen (.inr hquota) htail

theorem doing_of_nil (htodo : s.todo = []) (hnamed : s.Named)
    (hfile : s.exited = false → s.file = some s.loggerPath) : Doing s s.todo := by
  rw [htodo]
  exact .idle hnamed hfile

/-- With nothing left to do, the file is open. -/
theorem Doing.of_nil (h : Doing s []) :
    s.Named ∧ (s.exited = false → s.file = some s.loggerPath) := by
  generalize htodo : ([] : List LogOp) = todo at h
  cases h with
  | idle hnamed hfile => exact ⟨hnamed, hfile⟩
  | writes _ _ _ => cases htodo
  | opens ops _ _ _ _ => cases ops <;> cases htodo
  | rotates ops _ _ _ _ => cases ops <;> cases htodo
  | names _ _ _ => cases htodo

/-- A text is taken from the queue. -/
theorem Doing.handleLog (h : Doing s []) (hexited : s.exited = false) (nDate : ℕ) (text : LogText) :
    Doing (s.handleLog nDate text) (s.handleLog nDate text).todo := by
  obtain ⟨hnamed, hfile⟩ := h.of_nil
  have hending : Ending [.write text] := .inr ⟨text, rfl⟩
  unfold Logger.handleLog
  split
  · exact .rotates rotation [.write text] rotates_rotation hending hnamed
  · rename_i hunder
    have hquota : s.overQuota = false := by simpa using hunder
    split
    · exact .names [.write text] hending hquota
    · exact .writes text hnamed (hfile hexited)

theorem doing_handleReopen (prefixName path : Path) (quota : CInt) :
    Doing (s.handleReopen prefixName path quota) [.doOpen] := by
  refine .names [] (.inl rfl) ?_
  simp [overQuota, handleReopen]

theorem Doing.frame {todo : List LogOp} (h : Doing s todo) (queue : List LogMsg)
    (draining stopped : Bool) :
    Doing { s with queue := queue, draining := draining, stopped := stopped } todo := by
  cases h with
  | idle hnamed hfile => exact .idle hnamed hfile
  | writes text hnamed hfile => exact .writes text hnamed hfile
  | opens ops tail hops htail hnamed => exact .opens ops tail hops htail hnamed
  | rotates ops tail hops htail hnamed => exact .rotates ops tail hops htail hnamed
  | names tail htail hquota => exact .names tail htail hquota

/-- What is written goes to the file of the day in `date_`. -/
theorem Doing.file_eq {text : LogText} (h : Doing s (.write text :: rest)) :
    s.file = some (s.datedName s.date) := by
  generalize htodo : LogOp.write text :: rest = todo at h
  cases h with
  | idle _ _ => cases htodo
  | writes _ hnamed hfile => rw [hfile, hnamed]
  | opens ops tail hops _ _ =>
    cases ops with
    | nil => cases htodo
    | cons op ops =>
      cases htodo
      cases hops _ List.mem_cons_self
  | rotates ops tail hops _ _ =>
    cases ops with
    | nil => cases htodo
    | cons op ops =>
      cases htodo
      cases hops _ List.mem_cons_self
  | names _ _ _ => cases htodo

/-! ## Names and dates -/

theorem datedName_congr (s : Logger) {m n : ℕ} (h : m % 10000 = n % 10000) :
    s.datedName m = s.datedName n := by
  rw [datedName, datedName, h]

theorem datedName_inj (s : Logger) {m n : ℕ} (h : s.datedName m = s.datedName n) :
    m % 10000 = n % 10000 := by
  have htail := List.append_cancel_left h
  exact fourDigits_inj (Nat.mod_lt _ (by decide)) (Nat.mod_lt _ (by decide))
    (List.cons.inj htail).2

theorem perform_date (s : Logger) (rest : List LogOp) (op : LogOp) :
    (s.perform rest op).date = s.date ∧ (s.perform rest op).datedName = s.datedName := by
  cases op with
  | doOpen =>
    simp only [perform]
    split
    · exact ⟨rfl, rfl⟩
    · exact ⟨rfl, rfl⟩
  | _ => exact ⟨rfl, rfl⟩

theorem handleLog_datedName (s : Logger) (nDate : ℕ) (text : LogText) :
    (s.handleLog nDate text).datedName = s.datedName := by
  unfold handleLog
  split
  · rfl
  · split
    · rfl
    · rfl

/-- The step takes a text from the queue, and calls `make_date`. -/
def takesLog (s : Logger) : Bool :=
  match s.todo, s.queue with
  | [], .log _ :: _ => true
  | _, _ => false

/-- A text is about to be written, now or behind other operations. -/
def Pending (s : Logger) : Prop :=
  ∃ text, .write text ∈ s.todo

theorem not_pending_of_todo_nil (h : s.todo = []) : ¬s.Pending := by
  rintro ⟨text, htext⟩
  rw [h] at htext
  cases htext

/-- An operation other than the write leaves the text pending, and none makes one. -/
theorem pending_perform (htodo : s.todo = op :: rest) (hop : ∀ text, op ≠ .write text) :
    (s.perform rest op).Pending ↔ s.Pending := by
  have hrotation : ∀ text, .write text ∉ rotation := by
    intro text hmem
    cases rotates_rotation _ hmem
  have hhead : ∀ text, LogOp.write text ≠ op := fun text heq => hop text heq.symm
  unfold Pending
  rw [htodo]
  cases op with
  | cascade i => simp [Logger.perform]
  | moveActive => simp [Logger.perform]
  | doOpen =>
    simp only [Logger.perform]
    split
    · simp [hrotation]
    · simp
  | openFile => simp [Logger.perform]
  | write text => exact absurd rfl (hop text)

end Logger

/-! ## The texts of a run -/

/-- A logger, with what `make_date` has returned and where the texts went. -/
structure DatedLogger where
  logger : Logger
  -- the last value of `make_date`
  today : ℕ
  -- the value of `make_date` and the open file, for each text that was written
  written : List (ℕ × Option Path)

namespace DatedLogger

/-- The text that a step of the consumer writes. -/
def writes (s : DatedLogger) : List (ℕ × Option Path) :=
  match s.logger.todo with
  | .write _ :: _ => [(s.today, s.logger.file)]
  | _ => []

/-- `make_date` does not go back. -/
def step (s : DatedLogger) : LoggerAct → Option DatedLogger
  | .work nDate =>
    if s.logger.takesLog then
      if nDate < s.today then none
      else (s.logger.work nDate).map fun logger => { s with logger, today := nDate }
    else
      (s.logger.work nDate).map fun logger => { s with logger, written := s.written ++ s.writes }
  | act => (s.logger.step act).map fun logger => { s with logger }

/-- A new logger on which `create_file` was called, over any files. -/
def created (files : Path → Option (List UInt8)) (prefixName path : Path) (quota : CInt)
    (date : ℕ) : DatedLogger :=
  ⟨{ Logger.created prefixName path quota date with files }, date, []⟩

def machine (files : Path → Option (List UInt8)) (prefixName path : Path) (quota : CInt)
    (date : ℕ) : Machine DatedLogger LoggerAct :=
  ⟨created files prefixName path quota date, step⟩

/-- Every text was written to the file of its day. -/
def Dated (s : DatedLogger) : Prop :=
  ∀ w ∈ s.written, w.2 = some (s.logger.datedName w.1)

/-- A text that finds the active file over the quota is of the month and day in `date_`. -/
def SameDay (s : DatedLogger) : LoggerAct → Prop
  | .work nDate => s.logger.takesLog = true → s.logger.overQuota = true →
      s.logger.date % 10000 = nDate % 10000
  | _ => True

instance (s : DatedLogger) : ∀ act, Decidable (s.SameDay act)
  | .work nDate => inferInstanceAs (Decidable (s.logger.takesLog = true →
      s.logger.overQuota = true → s.logger.date % 10000 = nDate % 10000))
  | .log _ => inferInstanceAs (Decidable True)
  | .destroy => inferInstanceAs (Decidable True)

/-! ## What a step can do -/

/-- What the steps can be. -/
inductive Stepped (s : DatedLogger) : LoggerAct → DatedLogger → Prop where
  -- a message is put into the queue
  | puts (act : LoggerAct) (msg : LogMsg) (stopped : Bool) (hact : ∀ nDate, act ≠ .work nDate)
      (hmsg : ∀ prefixName path quota, msg ≠ .reopen prefixName path quota) :
      Stepped s act { s with
        logger := { s.logger with queue := s.logger.queue ++ [msg], stopped := stopped } }
  | performs (nDate : ℕ) (op : LogOp) (rest : List LogOp) (htodo : s.logger.todo = op :: rest) :
      Stepped s (.work nDate)
        { s with logger := s.logger.perform rest op, written := s.written ++ s.writes }
  | logs (nDate : ℕ) (text : LogText) (queue : List LogMsg) (htodo : s.logger.todo = [])
      (hqueue : s.logger.queue = .log text :: queue) (hexited : s.logger.exited = false)
      (hdate : s.today ≤ nDate) :
      Stepped s (.work nDate)
        { s with logger := { s.logger with queue := queue }.handleLog nDate text, today := nDate }
  | reopens (nDate : ℕ) (prefixName path : Path) (quota : CInt) (queue : List LogMsg)
      (htodo : s.logger.todo = [])
      (hqueue : s.logger.queue = .reopen prefixName path quota :: queue) :
      Stepped s (.work nDate) { s with
        logger := { s.logger with queue := queue }.handleReopen prefixName path quota }
  | stops (nDate : ℕ) (queue : List LogMsg) (htodo : s.logger.todo = [])
      (hqueue : s.logger.queue = .stop :: queue) :
      Stepped s (.work nDate) { s with logger := { s.logger with queue := queue, draining := true } }
  | leaves (nDate : ℕ) (htodo : s.logger.todo = []) (hqueue : s.logger.queue = []) :
      Stepped s (.work nDate) { s with logger := { s.logger with file := none, exited := true } }

variable {s s' : DatedLogger} {act : LoggerAct}

theorem writes_of_todo_nil (h : s.logger.todo = []) : s.writes = [] := by
  rw [writes, h]

/-- **Case analysis of a step.** -/
theorem stepped_of_step (h : s.step act = some s') : Stepped s act s' := by
  cases act with
  | log text =>
    cases h
    exact .puts _ (.log text) s.logger.stopped (fun _ heq => by cases heq) fun _ _ _ heq => by
      cases heq
  | destroy =>
    simp only [step, Logger.step] at h
    split at h
    · cases h
    · cases h
      exact .puts _ .stop true (fun _ heq => by cases heq) fun _ _ _ heq => by cases heq
  | work nDate =>
    simp only [step] at h
    split at h
    · rename_i htakes
      split at h
      · cases h
      · rename_i hdate
        obtain ⟨logger, hwork, rfl⟩ := Option.map_eq_some_iff.mp h
        obtain ⟨hexited, hworked⟩ := Logger.worked_of_work hwork
        cases hworked with
        | logs text queue htodo hqueue =>
          exact .logs nDate text queue htodo hqueue hexited (Nat.not_lt.mp hdate)
        | performs op rest htodo => simp [Logger.takesLog, htodo] at htakes
        | reopens prefixName path quota queue htodo hqueue =>
          simp [Logger.takesLog, htodo, hqueue] at htakes
        | stops queue htodo hqueue => simp [Logger.takesLog, htodo, hqueue] at htakes
        | leaves htodo hqueue hdraining => simp [Logger.takesLog, htodo, hqueue] at htakes
    · rename_i htakes
      obtain ⟨logger, hwork, rfl⟩ := Option.map_eq_some_iff.mp h
      obtain ⟨hexited, hworked⟩ := Logger.worked_of_work hwork
      cases hworked with
      | performs op rest htodo => exact .performs nDate op rest htodo
      | logs text queue htodo hqueue => simp [Logger.takesLog, htodo, hqueue] at htakes
      | reopens prefixName path quota queue htodo hqueue =>
        rw [writes_of_todo_nil htodo, List.append_nil]
        exact .reopens nDate prefixName path quota queue htodo hqueue
      | stops queue htodo hqueue =>
        rw [writes_of_todo_nil htodo, List.append_nil]
        exact .stops nDate queue htodo hqueue
      | leaves htodo hqueue hdraining =>
        rw [writes_of_todo_nil htodo, List.append_nil]
        exact .leaves nDate htodo hqueue

/-! ## The invariant -/

/-- `create_file` was called once: its message is the first in the queue, or was handled. -/
inductive Phase (s : DatedLogger) : Prop where
  | waits (prefixName path : Path) (quota : CInt) (queue : List LogMsg)
      (hqueue : s.logger.queue = .reopen prefixName path quota :: queue)
      (hrest : Logger.NoReopen queue) (htodo : s.logger.todo = []) (hwritten : s.written = [])
  | works (hqueue : Logger.NoReopen s.logger.queue) (hdoing : s.logger.Doing s.logger.todo)

structure Inv (s : DatedLogger) : Prop where
  phase : s.Phase
  date : s.logger.date ≤ s.today

theorem Phase.doing (h : s.Phase) {op : LogOp} {rest : List LogOp}
    (htodo : s.logger.todo = op :: rest) :
    Logger.NoReopen s.logger.queue ∧ s.logger.Doing (op :: rest) := by
  cases h with
  | waits _ _ _ _ _ _ hnil _ =>
    rw [hnil] at htodo
    cases htodo
  | works hqueue hdoing => exact ⟨hqueue, htodo ▸ hdoing⟩

/-- Behind the message of `create_file`. -/
theorem Phase.idle (h : s.Phase) (htodo : s.logger.todo = [])
    (hhead : ∀ prefixName path quota queue,
      s.logger.queue ≠ .reopen prefixName path quota :: queue) :
    Logger.NoReopen s.logger.queue ∧ s.logger.Doing [] := by
  cases h with
  | waits prefixName path quota queue hqueue _ _ _ =>
    exact absurd hqueue (hhead prefixName path quota queue)
  | works hqueue hdoing => exact ⟨hqueue, htodo ▸ hdoing⟩

theorem noReopen_tail {msg : LogMsg} {queue : List LogMsg}
    (h : Logger.NoReopen (msg :: queue)) : Logger.NoReopen queue :=
  fun m hm => h m (List.mem_cons_of_mem msg hm)

theorem phase_step (h : s.Phase) (hstep : Stepped s act s') : s'.Phase := by
  cases hstep with
  | puts _ msg stopped hact hmsg =>
    have hsingle : Logger.NoReopen [msg] := by
      intro m hm
      rw [List.mem_singleton.mp hm]
      exact hmsg
    cases h with
    | waits prefixName path quota queue hqueue hrest htodo hwritten =>
      refine .waits prefixName path quota (queue ++ [msg]) ?_
        (Logger.noReopen_append hrest hsingle) htodo hwritten
      simp only [hqueue, List.cons_append]
    | works hqueue hdoing =>
      exact .works (Logger.noReopen_append hqueue hsingle)
        (hdoing.frame (s.logger.queue ++ [msg]) s.logger.draining stopped)
  | performs nDate op rest htodo =>
    obtain ⟨hqueue, hdoing⟩ := h.doing htodo
    refine .works ?_ hdoing.perform
    rw [(Logger.perform_flags s.logger rest op).1]
    exact hqueue
  | logs nDate text queue htodo hqueue hexited hdate =>
    obtain ⟨hno, hdoing⟩ := h.idle htodo fun _ _ _ _ heq => by rw [hqueue] at heq; cases heq
    rw [hqueue] at hno
    have hframe := hdoing.frame queue s.logger.draining s.logger.stopped
    refine .works ?_ (hframe.handleLog hexited nDate text)
    rw [(Logger.handleLog_flags _ nDate text).1]
    exact noReopen_tail hno
  | reopens nDate prefixName path quota queue htodo hqueue =>
    cases h with
    | waits _ _ _ queue' hqueue' hrest _ _ =>
      rw [hqueue] at hqueue'
      cases hqueue'
      exact .works hrest (Logger.doing_handleReopen prefixName path quota)
    | works hno _ =>
      rw [hqueue] at hno
      exact absurd rfl (hno _ List.mem_cons_self prefixName path quota)
  | stops nDate queue htodo hqueue =>
    obtain ⟨hno, hdoing⟩ := h.idle htodo fun _ _ _ _ heq => by rw [hqueue] at heq; cases heq
    rw [hqueue] at hno
    obtain ⟨hnamed, hfile⟩ := hdoing.of_nil
    exact .works (noReopen_tail hno) (Logger.doing_of_nil htodo hnamed hfile)
  | leaves nDate htodo hqueue =>
    obtain ⟨hno, hdoing⟩ := h.idle htodo fun _ _ _ _ heq => by rw [hqueue] at heq; cases heq
    exact .works hno (Logger.doing_of_nil htodo hdoing.of_nil.1 nofun)

theorem inv_step (h : s.Inv) (hstep : Stepped s act s') : s'.Inv := by
  refine ⟨phase_step h.phase hstep, ?_⟩
  have hdate := h.date
  cases hstep with
  | puts _ msg stopped hact hmsg => exact hdate
  | performs nDate op rest htodo =>
    rw [(Logger.perform_date s.logger rest op).1]
    exact hdate
  | logs nDate text queue htodo hqueue hexited htoday =>
    show (Logger.handleLog _ nDate text).date ≤ nDate
    unfold Logger.handleLog
    split
    · exact hdate.trans htoday
    · split
      · exact Nat.le_refl nDate
      · exact hdate.trans htoday
  | reopens nDate prefixName path quota queue htodo hqueue => exact hdate
  | stops nDate queue htodo hqueue => exact hdate
  | leaves nDate htodo hqueue => exact hdate

/-! ## Texts and their days -/

/-- Every text was written to the file of its day, and the one that is about to be written will
    be. -/
structure Sound (s : DatedLogger) : Prop where
  dated : s.Dated
  pending : s.logger.Pending → s.logger.date % 10000 = s.today % 10000

/-- An operation of the consumer: the texts were and are written to the files of their days before
    it exactly if they are after it. -/
theorem sound_perform_iff (h : s.Inv) {op : LogOp} {rest : List LogOp}
    (htodo : s.logger.todo = op :: rest) :
    Sound { s with logger := s.logger.perform rest op, written := s.written ++ s.writes } ↔
      s.Sound := by
  obtain ⟨hdate, hname⟩ := Logger.perform_date s.logger rest op
  obtain ⟨-, hdoing⟩ := h.phase.doing htodo
  by_cases hop : ∃ text, op = .write text
  · obtain ⟨text, rfl⟩ := hop
    have hwrites : s.writes = [(s.today, some (s.logger.datedName s.logger.date))] := by
      rw [writes, htodo, ← hdoing.file_eq]
    have hpending : s.logger.Pending := ⟨text, by rw [htodo]; exact List.mem_cons_self⟩
    constructor
    · intro hsound
      have hdated := hsound.dated
      simp only [Dated, hwrites, hname] at hdated
      refine ⟨fun w hw => hdated w (List.mem_append_left _ hw), fun _ => ?_⟩
      have hnew := hdated (s.today, some (s.logger.datedName s.logger.date)) (by simp)
      exact Logger.datedName_inj _ (Option.some.inj hnew)
    · intro hsound
      refine ⟨?_, fun _ => hdate.symm ▸ hsound.pending hpending⟩
      simp only [Dated, hwrites, hname]
      intro w hw
      rcases List.mem_append.mp hw with hold | hnew
      · exact hsound.dated w hold
      · rw [List.mem_singleton.mp hnew]
        exact congrArg some (Logger.datedName_congr _ (hsound.pending hpending))
  · have hne : ∀ text, op ≠ .write text := fun text heq => hop ⟨text, heq⟩
    have hwrites : s.writes = [] := by
      rw [writes, htodo]
      split
      · rename_i heq
        exact absurd (List.cons.inj heq).1 (hne _)
      · rfl
    have hpending := Logger.pending_perform htodo hne
    rw [hwrites, List.append_nil]
    constructor
    · intro hsound
      refine ⟨fun w hw => hname ▸ hsound.dated w hw, fun hold => ?_⟩
      exact hdate ▸ hsound.pending (hpending.mpr hold)
    · intro hsound
      refine ⟨fun w hw => hname.symm ▸ hsound.dated w hw, fun hnew => ?_⟩
      exact hdate.symm ▸ hsound.pending (hpending.mp hnew)

/-- With nothing left to do, only the texts that were written count. -/
theorem sound_iff_dated (htodo : s.logger.todo = []) : s.Sound ↔ s.Dated :=
  ⟨Sound.dated, fun h => ⟨h, fun hpending => absurd hpending (Logger.not_pending_of_todo_nil htodo)⟩⟩

/-- **A text is taken from the queue**: its day is that of the file unless the quota comes first. -/
theorem sound_handleLog_iff (h : s.Inv) {nDate : ℕ} {text : LogText} {queue : List LogMsg}
    (htodo : s.logger.todo = []) (hdate : s.today ≤ nDate) :
    Sound { s with logger := { s.logger with queue := queue }.handleLog nDate text,
                   today := nDate } ↔
      s.Sound ∧ (s.logger.overQuota = true → s.logger.date % 10000 = nDate % 10000) := by
  have hname := Logger.handleLog_datedName { s.logger with queue := queue } nDate text
  rw [sound_iff_dated htodo]
  have hsplit : ∀ logger : Logger, logger.datedName = s.logger.datedName → logger.Pending →
      (Sound ⟨logger, nDate, s.written⟩ ↔ s.Dated ∧ logger.date % 10000 = nDate % 10000) := by
    intro logger hname hpending
    constructor
    · intro hsound
      exact ⟨fun w hw => hname ▸ hsound.dated w hw, hsound.pending hpending⟩
    · intro ⟨hdated, hday⟩
      exact ⟨fun w hw => hname.symm ▸ hdated w hw, fun _ => hday⟩
  have htoday := h.date
  unfold Logger.handleLog
  split
  · rename_i hover
    refine (hsplit _ (by rfl) ⟨text, by simp⟩).trans (and_congr_right fun _ => ?_)
    exact ⟨fun hday _ => hday, fun hday => hday hover⟩
  · rename_i hunder
    split
    · refine (hsplit _ (by rfl) ⟨text, by simp⟩).trans (and_congr_right fun _ => ?_)
      exact ⟨fun _ hover => absurd hover hunder, fun _ => rfl⟩
    · rename_i hnew
      -- `date_` is a value that `make_date` has returned
      have hday : s.logger.date = nDate := Nat.le_antisymm (htoday.trans hdate) (Nat.not_lt.mp hnew)
      refine (hsplit _ (by rfl) ⟨text, by simp⟩).trans (and_congr_right fun _ => ?_)
      exact ⟨fun _ hover => absurd hover hunder, fun _ => congrArg (· % 10000) hday⟩

theorem sameDay_of_not_work (h : ∀ nDate, act ≠ .work nDate) : s.SameDay act := by
  cases act with
  | log text => trivial
  | destroy => trivial
  | work nDate => exact absurd rfl (h nDate)

/-- Without a text to take, `make_date` is not called. -/
theorem sameDay_of_not_takesLog (h : s.logger.takesLog = false) : s.SameDay act := by
  cases act with
  | log text => trivial
  | destroy => trivial
  | work nDate =>
    intro htakes
    rw [h] at htakes
    cases htakes

/-- **Step lemma.** -/
theorem sound_step_iff (h : s.Inv) (hstep : Stepped s act s') :
    s'.Sound ↔ s.Sound ∧ s.SameDay act := by
  cases hstep with
  | puts _ msg stopped hact hmsg =>
    exact ⟨fun hsound => ⟨⟨hsound.dated, hsound.pending⟩, sameDay_of_not_work hact⟩,
      fun hboth => ⟨hboth.1.dated, hboth.1.pending⟩⟩
  | performs nDate op rest htodo =>
    have htakes : s.logger.takesLog = false := by simp [Logger.takesLog, htodo]
    exact (sound_perform_iff h htodo).trans (and_iff_left (sameDay_of_not_takesLog htakes)).symm
  | logs nDate text queue htodo hqueue hexited hdate =>
    have htakes : s.logger.takesLog = true := by simp [Logger.takesLog, htodo, hqueue]
    refine (sound_handleLog_iff h htodo hdate).trans (and_congr_right fun _ => ?_)
    exact ⟨fun hday _ => hday, fun hday => hday htakes⟩
  | reopens nDate prefixName path quota queue htodo hqueue =>
    have htakes : s.logger.takesLog = false := by simp [Logger.takesLog, htodo, hqueue]
    have hwritten : s.written = [] := by
      cases h.phase with
      | waits _ _ _ _ _ _ _ hwritten => exact hwritten
      | works hno _ =>
        rw [hqueue] at hno
        exact absurd rfl (hno _ List.mem_cons_self prefixName path quota)
    have hdated : ∀ t : DatedLogger, t.written = s.written → t.Dated := by
      intro t ht w hw
      rw [ht, hwritten] at hw
      cases hw
    refine iff_of_true ⟨hdated _ rfl, ?_⟩
      ⟨(sound_iff_dated htodo).mpr (hdated s rfl), sameDay_of_not_takesLog htakes⟩
    rintro ⟨text, htext⟩
    simp [Logger.handleReopen] at htext
  | stops nDate queue htodo hqueue =>
    have htakes : s.logger.takesLog = false := by simp [Logger.takesLog, htodo, hqueue]
    exact ⟨fun hsound => ⟨⟨hsound.dated, hsound.pending⟩, sameDay_of_not_takesLog htakes⟩,
      fun hboth => ⟨hboth.1.dated, hboth.1.pending⟩⟩
  | leaves nDate htodo hqueue =>
    have htakes : s.logger.takesLog = false := by simp [Logger.takesLog, htodo, hqueue]
    exact ⟨fun hsound => ⟨⟨hsound.dated, hsound.pending⟩, sameDay_of_not_takesLog htakes⟩,
      fun hboth => ⟨hboth.1.dated, hboth.1.pending⟩⟩

/-! ## Whole runs -/

section Runs

variable {files : Path → Option (List UInt8)} {prefixName path : Path} {quota : CInt} {date : ℕ}

theorem inv_created : (created files prefixName path quota date).Inv := by
  refine ⟨.waits prefixName path quota [] rfl ?_ rfl rfl, Nat.le_refl date⟩
  intro msg hmsg
  cases hmsg

theorem sound_created : (created files prefixName path quota date).Sound :=
  ⟨nofun, fun hpending => absurd hpending (Logger.not_pending_of_todo_nil rfl)⟩

/-- **Every text goes to the file of its day as long as no text finds the active file over the quota
    on another day than the one in `date_`; one that does goes to the file of the old day.** -/
theorem dated_iff {acts : List LoggerAct}
    (hrun : (machine files prefixName path quota date).run
      (created files prefixName path quota date) acts = some s) :
    ((machine files prefixName path quota date).Along SameDay
        (created files prefixName path quota date) acts →
      (machine files prefixName path quota date).Throughout Dated
        (created files prefixName path quota date) acts) ∧
    (s.logger.todo = [] →
      (machine files prefixName path quota date).Throughout Dated
        (created files prefixName path quota date) acts →
      (machine files prefixName path quota date).Along SameDay
        (created files prefixName path quota date) acts) := by
  obtain ⟨henough, hneeded⟩ := Machine.throughout_and_along (I := Inv) (Q := Sound) (P := Dated)
    (fun _ h => h.dated) (fun _ _ _ h hstep => inv_step h (stepped_of_step hstep))
    (fun _ _ _ h hstep => sound_step_iff h (stepped_of_step hstep)) inv_created sound_created hrun
  exact ⟨henough, fun htodo => hneeded (sound_iff_dated htodo).mpr⟩

end Runs

/-- A text of the last day of the year, and one of the first day of the next. -/
theorem dated_new_year :
    let text : LogText := ⟨[104, 105], by decide⟩
    let acts : List LoggerAct :=
      [.work 0, .work 0, .work 0, .log text, .work 20241231, .work 0, .log text, .work 20250101,
        .work 0, .work 0, .work 0]
    ∃ s, (machine (fun _ => none) ['a'] ['/'] ⟨1, by decide⟩ 20241231).run
        (created (fun _ => none) ['a'] ['/'] ⟨1, by decide⟩ 20241231) acts = some s ∧
      s.written = [(20241231, some ['/', 'a', '.', '1', '2', '3', '1']),
        (20250101, some ['/', 'a', '.', '0', '1', '0', '1'])] ∧
      (machine (fun _ => none) ['a'] ['/'] ⟨1, by decide⟩ 20241231).Throughout Dated
        (created (fun _ => none) ['a'] ['/'] ⟨1, by decide⟩ 20241231) acts := by
  intro text acts
  exact ⟨_, rfl, by decide, (dated_iff rfl).1 (by decide)⟩

/-- The file of the last day of the year. -/
def oldFile : Path := ['/', 'a', '.', '1', '2', '3', '1']

/-- It is over the quota of 1 MB. -/
def fullFiles : Path → Option (List UInt8) :=
  fun name => if name = oldFile then some (List.replicate 1048577 0) else none

/-- The logger that has opened it. -/
def openedFull : Logger :=
  { Logger.created ['a'] ['/'] ⟨1, int32_one⟩ 20241231 with
    prefixName := ['a']
    rootPath := ['/']
    loggerPath := oldFile
    quota := 1
    file := some oldFile
    queue := []
    files := Function.update fullFiles oldFile (some ((fullFiles oldFile).getD [])) }

theorem overQuota_openedFull : openedFull.overQuota = true := by
  have hbytes : openedFull.files openedFull.loggerPath = some (List.replicate 1048577 0) := rfl
  unfold Logger.overQuota
  rw [if_neg (by decide), if_neg (by decide), hbytes]
  simp only [List.length_replicate]
  decide

/-- A text of the new year is put into the queue and taken from it. -/
theorem run_openedFull (text : LogText) :
    (machine fullFiles ['a'] ['/'] ⟨1, by decide⟩ 20241231).run
        (created fullFiles ['a'] ['/'] ⟨1, by decide⟩ 20241231)
        ([.work 0, .work 0, .work 0, .log text] ++ [.work 20250101]) =
      some ⟨{ openedFull with file := none, todo := Logger.rotation ++ [.doOpen, .write text] },
        20250101, []⟩ := by
  have htaken : step ⟨{ openedFull with queue := [.log text] }, 20241231, []⟩ (.work 20250101) =
      some ⟨{ openedFull with file := none, todo := Logger.rotation ++ [.doOpen, .write text] },
        20250101, []⟩ := by
    show some (DatedLogger.mk (openedFull.handleLog 20250101 text) 20250101 []) = _
    rw [Logger.handleLog, if_pos overQuota_openedFull]
  exact Machine.run_concat_eq_some.mpr
    ⟨⟨{ openedFull with queue := [.log text] }, 20241231, []⟩, rfl, htaken⟩

/-- The text of the new year goes to the file of the old one. -/
theorem dated_counterexample :
    let acts : List LoggerAct := ([.work 0, .work 0, .work 0, .log ⟨[104, 105], by decide⟩] ++
      [.work 20250101]) ++ List.replicate 10 (.work 0)
    ∃ s, (machine fullFiles ['a'] ['/'] ⟨1, by decide⟩ 20241231).run
        (created fullFiles ['a'] ['/'] ⟨1, by decide⟩ 20241231) acts = some s ∧
      s.written = [(20250101, some oldFile)] ∧
      ¬(machine fullFiles ['a'] ['/'] ⟨1, by decide⟩ 20241231).Throughout Dated
        (created fullFiles ['a'] ['/'] ⟨1, by decide⟩ 20241231) acts := by
  intro acts
  have hlast : ((machine fullFiles ['a'] ['/'] ⟨1, by decide⟩ 20241231).run
      ⟨{ openedFull with
          file := none
          todo := Logger.rotation ++ [.doOpen, .write ⟨[104, 105], by decide⟩] }, 20250101, []⟩
      (List.replicate 10 (.work 0))).any (fun s => decide (s.written = [(20250101, some oldFile)] ∧
        s.logger.datedName 20250101 ≠ oldFile)) = true := by
    decide +kernel
  obtain ⟨s, hrun, hs⟩ := Machine.exists_of_run_any _ _ _ _ hlast
  obtain ⟨hwritten, hname⟩ := of_decide_eq_true hs
  have hall := Machine.run_append_eq_some.mpr ⟨_, run_openedFull ⟨[104, 105], by decide⟩, hrun⟩
  refine ⟨s, hall, hwritten, ?_⟩
  intro h
  have hdated := h acts [] s (List.append_nil acts).symm hall
  have hold := hdated (20250101, some oldFile) (by rw [hwritten]; exact List.mem_cons_self)
  exact hname (Option.some.inj hold).symm

end DatedLogger

end Pdk.Io
