import Pdk.Io.Logger

/-!
# The queue of a `Logger`

Texts are handled in the order in which they were logged. `Stop` is behind all texts that were logged
before the destructor put it there, so that the consumer has handled them when it leaves
`thread_proc`; and it does leave, since every message takes a bounded number of operations.
-/

namespace Pdk.Io

open Foundation

namespace Logger

/-! ## Texts on their way -/

/-- The texts that were logged in a run. -/
def logged (acts : List LoggerAct) : List LogText :=
  acts.filterMap fun
    | .log text => some text
    | _ => none

/-- Those that were logged before the destructor put `Stop`. -/
def loggedBefore (acts : List LoggerAct) : List LogText :=
  logged (acts.takeWhile (· ≠ .destroy))

def queueTexts (queue : List LogMsg) : List LogText :=
  queue.filterMap fun
    | .log text => some text
    | _ => none

def todoTexts (todo : List LogOp) : List LogText :=
  todo.filterMap fun
    | .write text => some text
    | _ => none

theorem logged_append (acts acts' : List LoggerAct) :
    logged (acts ++ acts') = logged acts ++ logged acts' :=
  List.filterMap_append

theorem queueTexts_append (queue queue' : List LogMsg) :
    queueTexts (queue ++ queue') = queueTexts queue ++ queueTexts queue' :=
  List.filterMap_append

theorem todoTexts_append (todo todo' : List LogOp) :
    todoTexts (todo ++ todo') = todoTexts todo ++ todoTexts todo' :=
  List.filterMap_append

theorem todoTexts_rotation : todoTexts rotation = [] := by decide

theorem takeWhile_concat_of_mem {α : Type*} {p : α → Bool} {l : List α} {x : α} (hx : x ∈ l)
    (hp : p x = false) (y : α) : (l ++ [y]).takeWhile p = l.takeWhile p := by
  induction l with
  | nil => cases hx
  | cons z l ih =>
    rw [List.cons_append]
    cases hz : p z with
    | false => rw [List.takeWhile_cons_of_neg (by simp [hz]), List.takeWhile_cons_of_neg (by simp [hz])]
    | true =>
      rw [List.takeWhile_cons_of_pos hz, List.takeWhile_cons_of_pos hz]
      refine congrArg (z :: ·) (ih ?_)
      rcases List.mem_cons.mp hx with rfl | hx
      · rw [hp] at hz
        cases hz
      · exact hx

theorem loggedBefore_concat {acts : List LoggerAct} (h : .destroy ∈ acts) (act : LoggerAct) :
    loggedBefore (acts ++ [act]) = loggedBefore acts := by
  rw [loggedBefore, takeWhile_concat_of_mem h (by simp), loggedBefore]

theorem loggedBefore_destroy {acts : List LoggerAct} (h : .destroy ∉ acts) :
    loggedBefore (acts ++ [.destroy]) = logged acts := by
  rw [loggedBefore, List.takeWhile_append_of_pos, List.takeWhile_cons_of_neg (by simp),
    List.append_nil]
  intro act hact
  simp only [decide_eq_true_eq]
  rintro rfl
  exact h hact

/-! ## One step -/

/-- An operation hands at most its own text on. -/
theorem perform_texts (s : Logger) (rest : List LogOp) (op : LogOp) :
    (s.perform rest op).handled ++ todoTexts (s.perform rest op).todo =
      s.handled ++ todoTexts (op :: rest) := by
  cases op with
  | doOpen =>
    simp only [perform]
    split
    · show s.handled ++ todoTexts (rotation ++ .openFile :: rest) = _
      rw [todoTexts_append, todoTexts_rotation]
      rfl
    · rfl
  | write text => simp [perform, todoTexts]
  | _ => rfl

theorem handleLog_texts (s : Logger) (nDate : ℕ) (text : LogText) :
    todoTexts (s.handleLog nDate text).todo = [text] := by
  unfold handleLog
  split
  · show todoTexts (rotation ++ [.doOpen, .write text]) = _
    rw [todoTexts_append, todoTexts_rotation]
    rfl
  · split
    · rfl
    · rfl

/-- What the consumer does to the texts on their way: it takes a message from the front of the
    queue, or leaves. -/
theorem worked_texts {s s' : Logger} {nDate : ℕ} (h : Worked s nDate s') :
    (s'.queue = s.queue ∧ s'.handled ++ todoTexts s'.todo = s.handled ++ todoTexts s.todo) ∨
      ∃ msg, s.queue = msg :: s'.queue ∧
        s'.handled ++ todoTexts s'.todo = s.handled ++ todoTexts s.todo ++ queueTexts [msg] := by
  cases h with
  | performs op rest htodo =>
    refine .inl ⟨(s.perform_flags rest op).1, ?_⟩
    rw [perform_texts, htodo]
  | logs text queue htodo hqueue =>
    refine .inr ⟨.log text, ?_, ?_⟩
    · rw [(handleLog_flags _ nDate text).1]
      exact hqueue
    · rw [handleLog_texts, (handleLog_flags _ nDate text).2.2.2.2, htodo]
      simp [todoTexts, queueTexts]
  | reopens prefixName path quota queue htodo hqueue =>
    refine .inr ⟨_, hqueue, ?_⟩
    simp [handleReopen, todoTexts, queueTexts, htodo]
  | stops queue htodo hqueue =>
    refine .inr ⟨_, hqueue, ?_⟩
    simp [queueTexts]
  | leaves htodo hqueue hdraining => exact .inl ⟨rfl, rfl⟩

/-- What the consumer does to the flags: `Stop` is in the queue or behind it, and it leaves when there
    is nothing to do. -/
theorem worked_flags {s s' : Logger} {nDate : ℕ} (h : Worked s nDate s') :
    s'.stopped = s.stopped ∧
      (.stop ∈ s'.queue ∨ s'.draining = true ↔ .stop ∈ s.queue ∨ s.draining = true) ∧
      (s'.exited = s.exited ∨
        s.queue = [] ∧ s.draining = true ∧ s.todo = [] ∧ s'.todo = [] ∧ s'.handled = s.handled) := by
  cases h with
  | performs op rest htodo =>
    obtain ⟨hqueue, hdraining, hexited, hstopped⟩ := s.perform_flags rest op
    refine ⟨hstopped, ?_, .inl hexited⟩
    rw [hqueue, hdraining]
  | logs text queue htodo hqueue =>
    obtain ⟨hqueue', hdraining, hexited, hstopped, -⟩ :=
      handleLog_flags { s with queue := queue } nDate text
    refine ⟨hstopped, ?_, .inl hexited⟩
    rw [hqueue', hdraining, hqueue]
    simp
  | reopens prefixName path quota queue htodo hqueue =>
    refine ⟨rfl, ?_, .inl rfl⟩
    rw [hqueue]
    simp [handleReopen]
  | stops queue htodo hqueue =>
    refine ⟨rfl, ?_, .inl rfl⟩
    rw [hqueue]
    simp
  | leaves htodo hqueue hdraining =>
    exact ⟨rfl, Iff.rfl, .inr ⟨hqueue, hdraining, htodo, htodo, rfl⟩⟩

/-! ## Whole runs -/

/-- `Stop` is behind the texts in the queue, or these have left it. -/
def Ahead (texts : List LogText) (s : Logger) : Prop :=
  (∃ front back, s.queue = front ++ .stop :: back ∧
      texts = s.handled ++ todoTexts s.todo ++ queueTexts front) ∨
    texts <+: s.handled ++ todoTexts s.todo

/-- Where the texts of a run are. -/
structure Fifo (acts : List LoggerAct) (s : Logger) : Prop where
  order : logged acts = s.handled ++ todoTexts s.todo ++ queueTexts s.queue
  stopped : .destroy ∈ acts ↔ s.stopped = true
  stop : .stop ∈ s.queue ∨ s.draining = true ↔ .destroy ∈ acts
  before : .destroy ∈ acts → s.Ahead (loggedBefore acts)
  exited : s.exited = true → .destroy ∈ acts ∧ s.todo = [] ∧ loggedBefore acts <+: s.handled

variable {s s' : Logger} {acts : List LoggerAct}

theorem Ahead.work {texts : List LogText} {nDate : ℕ} (h : s.Ahead texts)
    (hworked : Worked s nDate s') : s'.Ahead texts := by
  rcases worked_texts hworked with ⟨hqueue, htexts⟩ | ⟨msg, hqueue, htexts⟩
  · rw [Ahead, hqueue, htexts]
    exact h
  · rw [Ahead, htexts]
    rcases h with ⟨front, back, hfront, hbefore⟩ | hbefore
    · rw [hqueue] at hfront
      cases front with
      | nil =>
        -- the message is `Stop`
        right
        rw [hbefore, List.prefix_append_right_inj]
        exact List.nil_prefix
      | cons msg' front =>
        obtain ⟨rfl, hrest⟩ := List.cons.inj hfront
        refine .inl ⟨front, back, hrest, ?_⟩
        rw [hbefore, List.append_assoc _ (queueTexts [msg]), ← queueTexts_append]
        rfl
    · exact .inr (hbefore.trans (List.prefix_append _ _))

/-- An empty queue has no `Stop` in it. -/
theorem Ahead.of_queue_nil {texts : List LogText} (h : s.Ahead texts) (hqueue : s.queue = []) :
    texts <+: s.handled ++ todoTexts s.todo := by
  rcases h with ⟨front, back, hfront, -⟩ | hbefore
  · rw [hqueue] at hfront
    simp at hfront
  · exact hbefore

theorem fifo_created (prefixName path : Path) (quota : CInt) (date : ℕ) :
    Fifo [] (created prefixName path quota date) := by
  refine ⟨rfl, ?_, ?_, nofun, nofun⟩
  · simp [created]
  · simp [created]

theorem Fifo.log (h : Fifo acts s) (text : LogText) :
    Fifo (acts ++ [.log text]) { s with queue := s.queue ++ [.log text] } := by
  have hmem : .destroy ∈ acts ++ [.log text] ↔ .destroy ∈ acts := by simp
  refine ⟨?_, hmem.trans h.stopped, ?_, ?_, ?_⟩
  · show logged (acts ++ [.log text]) =
      s.handled ++ todoTexts s.todo ++ queueTexts (s.queue ++ [.log text])
    rw [logged_append, queueTexts_append, h.order, List.append_assoc _ (queueTexts s.queue)]
    rfl
  · rw [hmem, ← h.stop]
    simp
  · intro hdestroy
    have hdestroy := hmem.mp hdestroy
    rw [loggedBefore_concat hdestroy]
    rcases h.before hdestroy with ⟨front, back, hqueue, hbefore⟩ | hbefore
    · refine .inl ⟨front, back ++ [.log text], ?_, hbefore⟩
      show s.queue ++ [.log text] = _
      rw [hqueue, List.append_assoc, List.cons_append]
    · exact .inr hbefore
  · intro hexited
    obtain ⟨hdestroy, htodo, hbefore⟩ := h.exited hexited
    rw [loggedBefore_concat hdestroy]
    exact ⟨hmem.mpr hdestroy, htodo, hbefore⟩

theorem Fifo.destroy (h : Fifo acts s) (hstopped : s.stopped = false) :
    Fifo (acts ++ [.destroy]) { s with queue := s.queue ++ [.stop], stopped := true } := by
  have hdestroy : .destroy ∉ acts := by
    rw [h.stopped, hstopped]
    exact Bool.false_ne_true
  refine ⟨?_, ?_, ?_, ?_, ?_⟩
  · show logged (acts ++ [.destroy]) =
      s.handled ++ todoTexts s.todo ++ queueTexts (s.queue ++ [.stop])
    rw [logged_append, queueTexts_append, h.order, List.append_assoc _ (queueTexts s.queue)]
    rfl
  · simp
  · simp
  · intro _
    rw [loggedBefore_destroy hdestroy]
    exact .inl ⟨s.queue, [], rfl, h.order⟩
  · intro hexited
    exact absurd (h.exited hexited).1 hdestroy

theorem Fifo.work (h : Fifo acts s) {nDate : ℕ} (hwork : s.work nDate = some s') :
    Fifo (acts ++ [.work nDate]) s' := by
  obtain ⟨hrunning, hworked⟩ := worked_of_work hwork
  obtain ⟨hstopped, hstop, hexited⟩ := worked_flags hworked
  have hmem : .destroy ∈ acts ++ [.work nDate] ↔ .destroy ∈ acts := by simp
  have hlogged : logged (acts ++ [.work nDate]) = logged acts := by
    rw [logged_append]
    exact List.append_nil _
  refine ⟨?_, ?_, ?_, ?_, ?_⟩
  · rw [hlogged, h.order]
    rcases worked_texts hworked with ⟨hqueue, htexts⟩ | ⟨msg, hqueue, htexts⟩
    · rw [hqueue, htexts]
    · rw [hqueue, htexts, List.append_assoc _ (queueTexts [msg]), ← queueTexts_append]
      rfl
  · rw [hmem, hstopped]
    exact h.stopped
  · rw [hmem, hstop]
    exact h.stop
  · intro hdestroy
    have hdestroy := hmem.mp hdestroy
    rw [loggedBefore_concat hdestroy]
    exact (h.before hdestroy).work hworked
  · intro hleft
    rcases hexited with hsame | ⟨hqueue, hdraining, htodo, htodo', hhandled⟩
    · rw [hsame, hrunning] at hleft
      cases hleft
    · have hdestroy := h.stop.mp (.inr hdraining)
      refine ⟨hmem.mpr hdestroy, htodo', ?_⟩
      have hbefore := (h.before hdestroy).of_queue_nil hqueue
      rw [htodo] at hbefore
      rw [loggedBefore_concat hdestroy, hhandled]
      simpa [todoTexts] using hbefore

/-- **Run lemma.** -/
theorem fifo_of_run {prefixName path : Path} {quota : CInt} {date : ℕ}
    (hrun : (machine prefixName path quota date).run (created prefixName path quota date) acts =
      some s) : Fifo acts s := by
  refine Machine.run_history (M := machine prefixName path quota date)
    (fifo_created prefixName path quota date) ?_ hrun
  intro acts s act s' h hstep
  cases act with
  | log text =>
    cases hstep
    exact h.log text
  | destroy =>
    simp only [machine, step] at hstep
    split at hstep
    · cases hstep
    · rename_i hstopped
      cases hstep
      exact h.destroy (by simpa using hstopped)
  | work nDate => exact h.work hstep

/-! ## The consumer leaves -/

/-- The steps that an operation can take: `do_open` may rotate. -/
def opWeight : LogOp → ℕ
  | .doOpen => 9
  | _ => 1

def todoWeight (todo : List LogOp) : ℕ :=
  (todo.map opWeight).sum

/-- The steps that are left, at most. -/
def rank (s : Logger) : ℕ :=
  18 * s.queue.length + todoWeight s.todo + (!s.exited).toNat

theorem perform_weight (s : Logger) (rest : List LogOp) (op : LogOp) :
    todoWeight (s.perform rest op).todo < todoWeight (op :: rest) := by
  cases op with
  | doOpen =>
    simp only [perform]
    split
    · show todoWeight (rotation ++ .openFile :: rest) < _
      have hrotation : (rotation.map opWeight).sum = 7 := by decide
      simp only [todoWeight, List.map_append, List.sum_append, hrotation, List.map_cons,
        List.sum_cons, opWeight]
      omega
    · simp [todoWeight, opWeight]
  | _ => simp [perform, todoWeight, opWeight]

theorem handleLog_weight (s : Logger) (nDate : ℕ) (text : LogText) :
    todoWeight (s.handleLog nDate text).todo ≤ 17 := by
  unfold handleLog
  split
  · exact Nat.le_of_eq rfl
  · split
    · show 10 ≤ 17
      decide
    · show 1 ≤ 17
      decide

theorem rank_work {nDate : ℕ} (hwork : s.work nDate = some s') : s'.rank < s.rank := by
  obtain ⟨hrunning, hworked⟩ := worked_of_work hwork
  cases hworked with
  | performs op rest htodo =>
    obtain ⟨hqueue, -, hexited, -⟩ := s.perform_flags rest op
    have hweight := s.perform_weight rest op
    rw [rank, rank, hqueue, hexited, htodo]
    omega
  | logs text queue htodo hqueue =>
    obtain ⟨hqueue', -, hexited, -⟩ := handleLog_flags { s with queue := queue } nDate text
    have hweight := handleLog_weight { s with queue := queue } nDate text
    rw [rank, rank, hqueue', hexited, hqueue, List.length_cons]
    show 18 * queue.length + _ + (!s.exited).toNat < _
    omega
  | reopens prefixName path quota queue htodo hqueue =>
    show 18 * queue.length + 9 + (!s.exited).toNat < _
    rw [rank, hqueue, List.length_cons]
    omega
  | stops queue htodo hqueue =>
    show 18 * queue.length + todoWeight s.todo + (!s.exited).toNat < _
    rw [rank, hqueue, List.length_cons]
    omega
  | leaves htodo hqueue hdraining =>
    show 18 * s.queue.length + todoWeight s.todo + 0 < _
    rw [rank, hrunning]
    simp

/-- With `Stop` put, the consumer does not wait. -/
theorem work_of_stop (hstop : .stop ∈ s.queue ∨ s.draining = true) (hexited : s.exited = false)
    (nDate : ℕ) : ∃ s', s.work nDate = some s' := by
  rw [work, hexited]
  cases htodo : s.todo with
  | cons op rest => exact ⟨_, rfl⟩
  | nil =>
    cases hqueue : s.queue with
    | nil =>
      rw [hqueue] at hstop
      have hdraining : s.draining = true := by simpa using hstop
      simp only [hdraining]
      exact ⟨_, rfl⟩
    | cons msg queue =>
      cases msg with
      | log text => exact ⟨_, rfl⟩
      | reopen prefixName path quota => exact ⟨_, rfl⟩
      | stop => exact ⟨_, rfl⟩

/-- The consumer leaves `thread_proc` when it is left to work. -/
theorem leaves_of_stop (prefixName path : Path) (quota : CInt) (date nDate : ℕ)
    (hstop : .stop ∈ s.queue ∨ s.draining = true) :
    ∃ k s', (machine prefixName path quota date).run s (List.replicate k (.work nDate)) = some s' ∧
      s'.exited = true := by
  induction hrank : s.rank using Nat.strongRecOn generalizing s with
  | ind n ih =>
    cases hexited : s.exited with
    | true => exact ⟨0, s, rfl, hexited⟩
    | false =>
      obtain ⟨t, hwork⟩ := work_of_stop hstop hexited nDate
      have hstop' := (worked_flags (worked_of_work hwork).2).2.1.mpr hstop
      obtain ⟨k, s', hrun, hleft⟩ := ih t.rank (hrank ▸ rank_work hwork) hstop' rfl
      refine ⟨k + 1, s', ?_, hleft⟩
      rw [List.replicate_succ, Machine.run_cons_eq_some]
      exact ⟨t, hwork, hrun⟩

end Logger

end Pdk.Io
