import Pdk.Foundation.Slots
import Pdk.Io.LoggerQueue

/-!
# Log rotation

What the files of a `Logger` hold, in every state of a run on one calendar date. The slots hold a
list of files, the newest first, and while `check_quota` renames them one slot is free (`gapped`).
Read from `prefix.7` to `prefix.1`, and then the active file, they hold the texts that were handled,
up to those that were dropped with the oldest files when all slots were taken.

- `Layout`: the files of a state, as lists of texts
- `Stage`: where the consumer is in its work, and how the files stand there
- `rotation_keeps_suffix`: the result
-/

namespace Pdk.Io

open Foundation

/-- The bytes of texts that were written one after the other. -/
def logBytes (texts : List LogText) : List UInt8 :=
  texts.flatMap LogText.bytes

theorem logBytes_append (texts texts' : List LogText) :
    logBytes (texts ++ texts') = logBytes texts ++ logBytes texts' :=
  List.flatMap_append

theorem logBytes_singleton (text : LogText) : logBytes [text] = text.bytes := by
  simp [logBytes]

/-- Without its last text, the file is within the limit. -/
def WithinQuota (limit : ℤ) (file : List LogText) : Prop :=
  file = [] ∨ ∃ before text, file = before ++ [text] ∧ ((logBytes before).length : ℤ) ≤ limit

namespace Logger

/-! ## Names -/

theorem digitChar_inj {i k : ℕ} (hi : i < 10) (hk : k < 10)
    (h : Nat.digitChar i = Nat.digitChar k) : i = k := by
  have hi' := Nat.toNat_digitChar_of_lt_ten hi
  have hk' := Nat.toNat_digitChar_of_lt_ten hk
  rw [h] at hi'
  omega

theorem slotName_inj (s : Logger) {i k : ℕ} (hi : i < 10) (hk : k < 10)
    (h : s.slotName i = s.slotName k) : i = k := by
  have htail := List.append_cancel_left h
  exact digitChar_inj hi hk (by simpa using htail)

theorem slotName_ne_datedName (s : Logger) (i date : ℕ) : s.slotName i ≠ s.datedName date := by
  intro h
  have hlength := congrArg List.length (List.append_cancel_left h)
  simp [fourDigits] at hlength

/-- The names depend on `rootPath` and `prefixName` alone. -/
theorem names_congr {s s' : Logger} (hroot : s'.rootPath = s.rootPath)
    (hname : s'.prefixName = s.prefixName) :
    s'.slotName = s.slotName ∧ s'.datedName = s.datedName := by
  constructor
  · funext i
    simp only [slotName, hroot, hname]
  · funext date
    simp only [datedName, hroot, hname]

/-! ## Renaming -/

section

variable {files : Path → Option (List UInt8)} {oldName newName name : Path}

theorem rename_new :
    rename files oldName newName newName = (files oldName).or (files newName) := by
  unfold rename
  cases hold : files oldName with
  | none => rfl
  | some bytes => simp

theorem rename_old (h : oldName ≠ newName) : rename files oldName newName oldName = none := by
  unfold rename
  cases hold : files oldName with
  | none => exact hold
  | some bytes => simp [Function.update_of_ne h]

theorem rename_of_ne (hold : name ≠ oldName) (hnew : name ≠ newName) :
    rename files oldName newName name = files name := by
  unfold rename
  cases files oldName with
  | none => rfl
  | some bytes => simp [Function.update_of_ne hold, Function.update_of_ne hnew]

end

/-! ## The files of a state -/

/-- The slots hold the files of `archive`, the newest first, with the slot `gap` left free, and the
    active file holds `active`, if it is there. The texts that are gone are gone only if `full`
    holds. -/
structure Layout (limit : ℤ) (full : Prop) (s : Logger) (archive : List (List LogText)) (gap : ℕ)
    (active : Option (List LogText)) : Prop where
  path : ∃ date, s.loggerPath = s.datedName date
  quota : 1 ≤ s.quota ∧ s.quota * 1048576 = limit
  slots : ∀ j < maxQuataIndex, s.files (s.slotName (j + 1)) = (gapped archive gap j).map logBytes
  activeFile : s.files s.loggerPath = active.map logBytes
  -- no other file of the logger has been written to
  others : ∀ date, s.datedName date ≠ s.loggerPath → s.contents (s.datedName date) = []
  room : archive.length < maxQuataIndex ∨ archive.length ≤ maxQuataIndex ∧ maxQuataIndex ≤ gap
  bounded : ∀ file ∈ archive, WithinQuota limit file
  activeBounded : WithinQuota limit (active.getD [])
  history : ∃ dropped, s.handled = dropped ++ (archive.reverse.flatten ++ active.getD []) ∧
    (dropped ≠ [] → full)

variable {limit : ℤ} {full : Prop} {s s' : Logger} {archive : List (List LogText)} {gap : ℕ}
  {active : Option (List LogText)}

/-- The layout is about the files, their names, the quota and the texts handled. -/
theorem Layout.frame (h : Layout limit full s archive gap active) (hfiles : s'.files = s.files)
    (hroot : s'.rootPath = s.rootPath) (hname : s'.prefixName = s.prefixName)
    (hpath : s'.loggerPath = s.loggerPath) (hquota : s'.quota = s.quota)
    (hhandled : s'.handled = s.handled) : Layout limit full s' archive gap active := by
  obtain ⟨hslot, hdated⟩ := names_congr hroot hname
  refine ⟨?_, ?_, ?_, ?_, ?_, h.room, h.bounded, h.activeBounded, ?_⟩
  · rw [hpath, hdated]
    exact h.path
  · rw [hquota]
    exact h.quota
  · rw [hfiles, hslot]
    exact h.slots
  · rw [hfiles, hpath]
    exact h.activeFile
  · simp only [contents, hfiles, hpath, hdated]
    exact h.others
  · rw [hhandled]
    exact h.history

theorem Layout.mono {full' : Prop} (h : Layout limit full s archive gap active)
    (hfull : full → full') : Layout limit full' s archive gap active := by
  obtain ⟨dropped, hhandled, hdropped⟩ := h.history
  exact ⟨h.path, h.quota, h.slots, h.activeFile, h.others, h.room, h.bounded, h.activeBounded,
    ⟨dropped, hhandled, fun hne => hfull (hdropped hne)⟩⟩

/-- The slot behind the free one, and the free one, are in front of the others. -/
theorem Layout.length_lt (h : Layout limit full s archive gap active) (hgap : gap < maxQuataIndex) :
    archive.length < maxQuataIndex := by
  rcases h.room with hlt | ⟨-, hle⟩
  · exact hlt
  · omega

/-- What a `rename` between two slots does to the slots. -/
theorem files_cascade (s : Logger) {i j : ℕ} (hi : i + 1 < maxQuataIndex) (hj : j < maxQuataIndex) :
    rename s.files (s.slotName (i + 1)) (s.slotName (i + 2)) (s.slotName (j + 1)) =
      if j = i + 1 then (s.files (s.slotName (i + 1))).or (s.files (s.slotName (i + 2)))
      else if j = i then none
      else s.files (s.slotName (j + 1)) := by
  simp only [maxQuataIndex] at hi hj
  have hne : ∀ {k : ℕ}, k < 7 → j ≠ k → s.slotName (j + 1) ≠ s.slotName (k + 1) := by
    intro k hk hjk heq
    have := s.slotName_inj (by omega) (by omega) heq
    omega
  split
  · rename_i hjk
    subst hjk
    exact rename_new
  · rename_i hnew
    split
    · rename_i hjk
      subst hjk
      refine rename_old ?_
      exact hne (by omega) (by omega)
    · rename_i hold
      exact rename_of_ne (hne (by omega) hold) (hne (by omega) hnew)

/-- A `rename` between slots leaves the dated files alone. -/
theorem files_cascade_dated (s : Logger) (i date : ℕ) :
    rename s.files (s.slotName i) (s.slotName (i + 1)) (s.datedName date) =
      s.files (s.datedName date) :=
  rename_of_ne (s.slotName_ne_datedName i date).symm (s.slotName_ne_datedName (i + 1) date).symm

/-- So the active file and the other dated files are what they were. -/
theorem Layout.dated_cascade (h : Layout limit full s archive gap active) (i : ℕ) :
    rename s.files (s.slotName i) (s.slotName (i + 1)) s.loggerPath = active.map logBytes ∧
      ∀ date, s.datedName date ≠ s.loggerPath →
        (rename s.files (s.slotName i) (s.slotName (i + 1)) (s.datedName date)).getD [] = [] := by
  obtain ⟨date, hpath⟩ := h.path
  constructor
  · rw [hpath, files_cascade_dated, ← hpath]
    exact h.activeFile
  · intro date hdate
    rw [files_cascade_dated]
    exact h.others date hdate

/-- An iteration of the loop of `check_quota` that moves a file into the free slot. -/
theorem Layout.cascade {g : ℕ} (h : Layout limit full s archive (g + 1) active)
    (hg : g + 1 < maxQuataIndex) (rest : List LogOp) :
    Layout limit full (s.perform rest (.cascade (g + 1))) archive g active := by
  have hlength := h.length_lt hg
  obtain ⟨hactive, hothers⟩ := h.dated_cascade (g + 1)
  refine ⟨h.path, h.quota, ?_, hactive, hothers, .inl hlength, h.bounded, h.activeBounded, h.history⟩
  intro j hj
  show rename s.files (s.slotName (g + 1)) (s.slotName (g + 2)) (s.slotName (j + 1)) = _
  rw [files_cascade s hg hj, gapped_move]
  split
  · rw [h.slots g (by omega), h.slots (g + 1) hg, gapped_self, gapped_of_lt _ (Nat.lt_succ_self g)]
    simp
  · split
    · rfl
    · exact h.slots j hj

/-- All slots are taken. -/
def SlotsFull (s : Logger) : Prop :=
  ∀ j < maxQuataIndex, (s.files (s.slotName (j + 1))).isSome = true

theorem Layout.slotsFull (h : Layout limit full s archive maxQuataIndex active)
    (hlength : archive.length = maxQuataIndex) : s.SlotsFull := by
  intro j hj
  rw [h.slots j hj, gapped_of_lt _ hj, List.getElem?_eq_getElem (by omega)]
  rfl

/-- The first iteration of that loop: the oldest file is replaced, if all slots are taken. -/
theorem Layout.cascadeLast {full' : Prop} (h : Layout limit full s archive maxQuataIndex active)
    (hfull : full → full') (hnow : s.SlotsFull → full') (rest : List LogOp) :
    Layout limit full' (s.perform rest (.cascade 6)) (archive.take 6) 5 active := by
  have hroom : archive.length ≤ 7 := by
    rcases h.room with hlt | ⟨hle, -⟩
    · exact Nat.le_of_lt hlt
    · exact hle
  obtain ⟨hactive, hothers⟩ := h.dated_cascade 6
  obtain ⟨dropped, hhandled, hdropped⟩ := h.history
  refine ⟨h.path, h.quota, ?_, hactive, hothers, ?_, ?_, h.activeBounded, ?_⟩
  · intro j hj
    show rename s.files (s.slotName (5 + 1)) (s.slotName (5 + 2)) (s.slotName (j + 1)) = _
    rw [files_cascade s (by decide) hj, gapped_move]
    split
    · have hlast : archive[5]?.or archive[6]? = archive[5]? := by
        cases hfive : archive[5]? with
        | none =>
          rw [List.getElem?_eq_none_iff] at hfive
          exact List.getElem?_eq_none (by omega)
        | some file => rfl
      rw [h.slots 5 (by decide), h.slots 6 (by decide), gapped_of_lt _ (by decide),
        gapped_of_lt _ (by decide), ← Option.map_or, hlast, List.getElem?_take_of_lt (by decide)]
    · split
      · rfl
      · have hj6 : j < 6 := by
          simp only [maxQuataIndex] at hj
          omega
        rw [h.slots j hj, gapped_of_lt _ hj, gapped_of_lt _ hj6, List.getElem?_take_of_lt hj6]
  · left
    rw [List.length_take]
    simp only [maxQuataIndex]
    omega
  · intro file hfile
    exact h.bounded file (List.mem_of_mem_take hfile)
  · refine ⟨dropped ++ (archive.drop 6).reverse.flatten, ?_, ?_⟩
    · show s.handled = _
      have hsplit : archive.reverse.flatten =
          (archive.drop 6).reverse.flatten ++ (archive.take 6).reverse.flatten := by
        rw [← List.flatten_append, ← List.reverse_append, List.take_append_drop]
      rw [hhandled, hsplit, List.append_assoc, List.append_assoc]
    · intro hne
      by_cases hbefore : dropped = []
      · have hlength : archive.length = maxQuataIndex := by
          by_contra hshort
          simp only [maxQuataIndex] at hshort
          rw [hbefore, List.drop_of_length_le (by omega)] at hne
          exact hne rfl
        exact hnow (h.slotsFull hlength)
      · exact hfull (hdropped hbefore)

/-- The last `rename` of `check_quota`: the active file gets into the first slot. -/
theorem Layout.moveActive {file : List LogText} (h : Layout limit full s archive 0 (some file))
    (rest : List LogOp) :
    Layout limit full (s.perform rest .moveActive) (file :: archive) maxQuataIndex none := by
  have hlength := h.length_lt (by decide)
  obtain ⟨date, hpath⟩ := h.path
  have hactive : s.files s.loggerPath = some (logBytes file) := h.activeFile
  have hdated : ∀ i, s.slotName i ≠ s.loggerPath := by
    intro i
    rw [hpath]
    exact s.slotName_ne_datedName i date
  refine ⟨h.path, h.quota, ?_, ?_, ?_, .inr ⟨hlength, Nat.le_refl _⟩, ?_, .inl rfl, ?_⟩
  · intro j hj
    show rename s.files s.loggerPath (s.slotName 1) (s.slotName (j + 1)) = _
    rw [gapped_of_lt _ hj]
    cases j with
    | zero =>
      rw [rename_new, hactive]
      rfl
    | succ j =>
      rw [rename_of_ne (hdated _), h.slots (j + 1) hj, gapped_zero_succ, List.getElem?_cons_succ]
      intro heq
      simp only [maxQuataIndex] at hj
      have := s.slotName_inj (by omega) (by omega) heq
      omega
  · exact rename_old (hdated 1).symm
  · intro date hdate
    have hne : s.datedName date ≠ s.loggerPath := hdate
    show (rename s.files s.loggerPath (s.slotName 1) (s.datedName date)).getD [] = []
    rw [rename_of_ne hne (s.slotName_ne_datedName 1 date).symm]
    exact h.others date hdate
  · intro file' hfile
    rcases List.mem_cons.mp hfile with rfl | hfile
    · exact h.activeBounded
    · exact h.bounded file' hfile
  · obtain ⟨dropped, hhandled, hdropped⟩ := h.history
    refine ⟨dropped, ?_, hdropped⟩
    show s.handled = _
    rw [hhandled]
    simp

/-- Another content of the active file. -/
theorem Layout.update (h : Layout limit full s archive gap active) {file : List LogText}
    (hfiles : s'.files = Function.update s.files s.loggerPath (some (logBytes file)))
    (hroot : s'.rootPath = s.rootPath) (hname : s'.prefixName = s.prefixName)
    (hpath : s'.loggerPath = s.loggerPath) (hquota : s'.quota = s.quota)
    (hbounded : WithinQuota limit file)
    (hhistory : ∀ dropped, s.handled = dropped ++ (archive.reverse.flatten ++ active.getD []) →
      s'.handled = dropped ++ (archive.reverse.flatten ++ file)) :
    Layout limit full s' archive gap (some file) := by
  obtain ⟨hslot, hdated⟩ := names_congr hroot hname
  obtain ⟨date, hdate⟩ := h.path
  refine ⟨⟨date, by rw [hpath, hdated]; exact hdate⟩, by rw [hquota]; exact h.quota, ?_, ?_, ?_,
    h.room, h.bounded, hbounded, ?_⟩
  · intro j hj
    rw [hfiles, hslot, Function.update_of_ne]
    · exact h.slots j hj
    · rw [hdate]
      exact s.slotName_ne_datedName _ date
  · rw [hfiles, hpath, Function.update_self]
    rfl
  · intro date hne
    rw [hpath, hdated] at hne
    rw [contents, hfiles, hdated, Function.update_of_ne hne]
    exact h.others date hne
  · obtain ⟨dropped, hhandled, hdropped⟩ := h.history
    exact ⟨dropped, hhistory dropped hhandled, hdropped⟩

/-- `open` creates the active file, or keeps what is in it. -/
theorem Layout.openFile (h : Layout limit full s archive gap active) (rest : List LogOp) :
    Layout limit full (s.perform rest .openFile) archive gap (some (active.getD [])) := by
  refine h.update ?_ rfl rfl rfl rfl h.activeBounded (fun dropped hhandled => hhandled)
  show Function.update s.files s.loggerPath (some ((s.files s.loggerPath).getD [])) = _
  rw [h.activeFile]
  cases active with
  | none => rfl
  | some file => rfl

theorem take_bytes (text : LogText) : text.bytes.take (text.bytes.length % 2 ^ 32) = text.bytes := by
  have hlt := text.length_lt
  rw [Nat.mod_eq_of_lt (by omega), List.take_length]

/-- `write` appends the text to the active file. -/
theorem Layout.write {file : List LogText} (h : Layout limit full s archive gap (some file))
    (hfile : s.file = some s.loggerPath) (hsmall : ((logBytes file).length : ℤ) ≤ limit)
    (text : LogText) (rest : List LogOp) :
    Layout limit full (s.perform rest (.write text)) archive gap (some (file ++ [text])) := by
  refine h.update ?_ rfl rfl rfl rfl (.inr ⟨file, text, rfl, hsmall⟩) ?_
  · have hactive : s.files s.loggerPath = some (logBytes file) := h.activeFile
    simp only [perform, hfile, hactive, Option.getD_some, take_bytes, logBytes_append,
      logBytes_singleton]
  · intro dropped hhandled
    show s.handled ++ [text] = _
    rw [hhandled]
    simp

theorem Layout.loggerPath_ne_nil (h : Layout limit full s archive gap active) :
    s.loggerPath ≠ [] := by
  obtain ⟨date, hpath⟩ := h.path
  rw [hpath]
  simp [datedName]

theorem Layout.contents_loggerPath (h : Layout limit full s archive gap active) :
    s.contents s.loggerPath = logBytes (active.getD []) := by
  rw [contents, h.activeFile]
  cases active with
  | none => rfl
  | some file => rfl

/-- `check_quota` compares the active file with the limit. -/
theorem Layout.overQuota_iff (h : Layout limit full s archive gap active) :
    s.overQuota = true ↔ limit < (logBytes (active.getD [])).length := by
  have hpos : ¬s.quota < 1 := Int.not_lt.mpr h.quota.1
  rw [overQuota, if_neg hpos, if_neg h.loggerPath_ne_nil, h.activeFile, ← h.quota.2]
  cases active with
  | none =>
    simp only [Option.map_none, Option.getD_none, Bool.false_eq_true, false_iff]
    have hnonneg := h.quota.1
    simp only [logBytes, List.flatMap_nil, List.length_nil]
    omega
  | some file => simp

theorem Layout.overQuota_of_empty (h : Layout limit full s archive gap active)
    (hempty : active.getD [] = []) : s.overQuota = false := by
  rw [← Bool.not_eq_true, h.overQuota_iff, hempty, ← h.quota.2]
  have hnonneg := h.quota.1
  simp only [logBytes, List.flatMap_nil, List.length_nil]
  omega

/-- `do_open` without a rotation. -/
theorem perform_doOpen (s : Logger) (rest : List LogOp) (hunder : s.overQuota = false) :
    s.perform rest .doOpen =
      { s with loggerPath := s.datedName s.date, todo := .openFile :: rest } := by
  rw [perform, if_neg (by rw [hunder]; decide)]

/-- `do_open` with an empty active file: the file that it will open is empty as well. -/
theorem Layout.doOpen (h : Layout limit full s archive gap active) (hempty : active.getD [] = [])
    (rest : List LogOp) :
    ∃ active', active'.getD [] = [] ∧
      Layout limit full (s.perform rest .doOpen) archive gap active' := by
  have hperform := s.perform_doOpen rest (h.overQuota_of_empty hempty)
  have hnil : ∀ date, s.contents (s.datedName date) = [] := by
    intro date
    by_cases hdate : s.datedName date = s.loggerPath
    · rw [hdate, h.contents_loggerPath, hempty]
      rfl
    · exact h.others date hdate
  have hactive : ∃ active' : Option (List LogText), active'.getD [] = [] ∧
      s.files (s.datedName s.date) = active'.map logBytes := by
    have hcontents := hnil s.date
    rw [contents] at hcontents
    cases hfile : s.files (s.datedName s.date) with
    | none => exact ⟨none, rfl, rfl⟩
    | some bytes =>
      rw [hfile, Option.getD_some] at hcontents
      exact ⟨some [], rfl, by rw [hcontents]; rfl⟩
  obtain ⟨active', hempty', hfile⟩ := hactive
  refine ⟨active', hempty', ?_⟩
  rw [hperform]
  refine ⟨⟨s.date, rfl⟩, h.quota, h.slots, hfile, fun date _ => hnil date, h.room, h.bounded, ?_, ?_⟩
  · rw [hempty']
    exact .inl rfl
  · obtain ⟨dropped, hhandled, hdropped⟩ := h.history
    refine ⟨dropped, ?_, hdropped⟩
    show s.handled = _
    rw [hhandled, hempty, hempty']

/-! ## Where the consumer is -/

/-- What is left of `check_quota` when `i` iterations of its loop are left. -/
def cascades (i : ℕ) : List LogOp :=
  ((List.range i).reverse.map fun k => .cascade (k + 1)) ++ [.moveActive]

theorem cascades_succ (i : ℕ) : cascades (i + 1) = .cascade (i + 1) :: cascades i := by
  simp [cascades, List.range_succ]

/-- What follows behind `do_open`: nothing, or a text. The date is changed for the first text at the
    latest. -/
def Tail (today : ℕ) (s : Logger) (rest : List LogOp) : Prop :=
  rest = [] ∧ (s.date < today → s.handled = []) ∨ ∃ text, rest = [.write text] ∧ today ≤ s.date

/-- How the files stand at each point of the work, once `Reopen` was taken from the queue. -/
inductive Stage (limit : ℤ) (today : ℕ) (full : Prop) (s : Logger) : Prop where
  -- the first `do_open`
  | begins (htodo : s.todo = [.doOpen]) (hpath : s.loggerPath = []) (hfiles : s.files = fun _ => none)
      (hquota : 1 ≤ s.quota ∧ s.quota * 1048576 = limit) (hhandled : s.handled = [])
  | reopens (rest : List LogOp) (archive : List (List LogText)) (active : Option (List LogText))
      (htodo : s.todo = .doOpen :: rest) (htail : s.Tail today rest) (hempty : active.getD [] = [])
      (layout : Layout limit full s archive maxQuataIndex active)
  | opens (rest : List LogOp) (archive : List (List LogText)) (active : Option (List LogText))
      (htodo : s.todo = .openFile :: rest) (htail : s.Tail today rest) (hempty : active.getD [] = [])
      (layout : Layout limit full s archive maxQuataIndex active)
  -- between two messages, or before a text is written
  | writes (archive : List (List LogText)) (file : List LogText) (htail : s.Tail today s.todo)
      (hfile : s.exited = false → s.file = some s.loggerPath)
      (hsmall : s.todo ≠ [] → ((logBytes file).length : ℤ) ≤ limit)
      (layout : Layout limit full s archive maxQuataIndex (some file))
  -- in `check_quota`, before the last slot is filled, and behind that
  | rotates (text : LogText) (archive : List (List LogText)) (file : List LogText)
      (htodo : s.todo = cascades 6 ++ [.doOpen, .write text]) (hdate : today ≤ s.date)
      (layout : Layout limit full s archive maxQuataIndex (some file))
  | cascades (i : ℕ) (hi : i < 6) (text : LogText) (archive : List (List LogText))
      (file : List LogText) (htodo : s.todo = cascades i ++ [.doOpen, .write text])
      (hdate : today ≤ s.date) (layout : Layout limit full s archive i (some file))

variable {today : ℕ}

theorem Stage.mono {full' : Prop} (h : Stage limit today full s) (hfull : full → full') :
    Stage limit today full' s := by
  cases h with
  | begins htodo hpath hfiles hquota hhandled => exact .begins htodo hpath hfiles hquota hhandled
  | reopens rest archive active htodo htail hempty layout =>
    exact .reopens rest archive active htodo htail hempty (layout.mono hfull)
  | opens rest archive active htodo htail hempty layout =>
    exact .opens rest archive active htodo htail hempty (layout.mono hfull)
  | writes archive file htail hfile hsmall layout =>
    exact .writes archive file htail hfile hsmall (layout.mono hfull)
  | rotates text archive file htodo hdate layout =>
    exact .rotates text archive file htodo hdate (layout.mono hfull)
  | cascades i hi text archive file htodo hdate layout =>
    exact .cascades i hi text archive file htodo hdate (layout.mono hfull)

/-- A stage does not depend on the queue. -/
theorem Stage.queue (h : Stage limit today full s) (queue : List LogMsg) (draining stopped : Bool) :
    Stage limit today full { s with queue := queue, draining := draining, stopped := stopped } := by
  cases h with
  | begins htodo hpath hfiles hquota hhandled => exact .begins htodo hpath hfiles hquota hhandled
  | reopens rest archive active htodo htail hempty layout =>
    exact .reopens rest archive active htodo htail hempty (layout.frame rfl rfl rfl rfl rfl rfl)
  | opens rest archive active htodo htail hempty layout =>
    exact .opens rest archive active htodo htail hempty (layout.frame rfl rfl rfl rfl rfl rfl)
  | writes archive file htail hfile hsmall layout =>
    exact .writes archive file htail hfile hsmall (layout.frame rfl rfl rfl rfl rfl rfl)
  | rotates text archive file htodo hdate layout =>
    exact .rotates text archive file htodo hdate (layout.frame rfl rfl rfl rfl rfl rfl)
  | cascades i hi text archive file htodo hdate layout =>
    exact .cascades i hi text archive file htodo hdate (layout.frame rfl rfl rfl rfl rfl rfl)

/-- The first `do_open`. -/
theorem layout_begins (hpath : s.loggerPath = []) (hfiles : s.files = fun _ => none)
    (hquota : 1 ≤ s.quota ∧ s.quota * 1048576 = limit) (hhandled : s.handled = [])
    (rest : List LogOp) :
    s.overQuota = false ∧ Layout limit full (s.perform rest .doOpen) [] maxQuataIndex none := by
  have hunder : s.overQuota = false := by simp [overQuota, hpath]
  refine ⟨hunder, ?_⟩
  rw [s.perform_doOpen rest hunder]
  refine ⟨⟨s.date, rfl⟩, hquota, ?_, ?_, ?_, .inl (by decide), nofun, .inl rfl, ?_⟩
  · intro j hj
    rw [hfiles, gapped_of_length_le (Nat.zero_le _)]
    rfl
  · rw [hfiles]
    rfl
  · intro date _
    rw [contents, hfiles]
    rfl
  · exact ⟨[], hhandled, fun hne => absurd rfl hne⟩

/-- An operation on the files. -/
theorem Stage.perform {full' : Prop} (h : Stage limit today full s) (hfull : full → full')
    (hnow : s.SlotsFull → full') {op : LogOp} {rest : List LogOp} (htodo : s.todo = op :: rest)
    (hexited : s.exited = false) : Stage limit today full' (s.perform rest op) := by
  cases h with
  | begins hop hpath hfiles hquota hhandled =>
    obtain ⟨rfl, rfl⟩ := List.cons.inj (htodo.symm.trans hop)
    obtain ⟨hunder, layout⟩ := layout_begins hpath hfiles hquota hhandled []
    rw [s.perform_doOpen [] hunder] at layout ⊢
    exact .opens [] [] none rfl (.inl ⟨rfl, fun _ => hhandled⟩) rfl layout
  | reopens rest' archive active hop htail hempty layout =>
    obtain ⟨rfl, rfl⟩ := List.cons.inj (htodo.symm.trans hop)
    obtain ⟨active', hempty', layout'⟩ := (layout.mono hfull).doOpen hempty rest
    rw [s.perform_doOpen rest (layout.overQuota_of_empty hempty)] at layout' ⊢
    exact .opens rest archive active' rfl htail hempty' layout'
  | opens rest' archive active hop htail hempty layout =>
    obtain ⟨rfl, rfl⟩ := List.cons.inj (htodo.symm.trans hop)
    refine .writes archive (active.getD []) htail (fun _ => rfl) ?_ ((layout.mono hfull).openFile rest)
    intro _
    rw [hempty, ← layout.quota.2]
    have hnonneg := layout.quota.1
    simp only [logBytes, List.flatMap_nil, List.length_nil]
    omega
  | writes archive file htail hfile hsmall layout =>
    rcases htail with ⟨hnil, -⟩ | ⟨text, hop, hdate⟩
    · rw [htodo] at hnil
      cases hnil
    · obtain ⟨rfl, rfl⟩ := List.cons.inj (htodo.symm.trans hop)
      have hsmall := hsmall (by rw [htodo]; exact List.cons_ne_nil _ _)
      refine .writes archive (file ++ [text]) (.inl ⟨rfl, ?_⟩) hfile (fun hne => absurd rfl hne)
        ((layout.mono hfull).write (hfile hexited) hsmall text [])
      intro hlt
      exact absurd hdate (Nat.not_le.mpr hlt)
  | rotates text archive file hop hdate layout =>
    obtain ⟨rfl, rfl⟩ := List.cons.inj (htodo.symm.trans hop)
    exact .cascades 5 (by decide) text _ file rfl hdate (layout.cascadeLast hfull hnow _)
  | cascades i hi text archive file hop hdate layout =>
    cases i with
    | zero =>
      obtain ⟨rfl, rfl⟩ := List.cons.inj (htodo.symm.trans hop)
      exact .reopens [.write text] (file :: archive) none rfl (.inr ⟨text, rfl, hdate⟩) rfl
        ((layout.mono hfull).moveActive _)
    | succ i =>
      rw [cascades_succ] at hop
      obtain ⟨rfl, rfl⟩ := List.cons.inj (htodo.symm.trans hop)
      exact .cascades i (by omega) text archive file rfl hdate
        ((layout.mono hfull).cascade (by simp only [maxQuataIndex]; omega) _)

/-- Between two messages, the files are in place. -/
theorem Stage.idle (h : Stage limit today full s) (htodo : s.todo = []) :
    ∃ archive file, (s.date < today → s.handled = []) ∧
      (s.exited = false → s.file = some s.loggerPath) ∧
      Layout limit full s archive maxQuataIndex (some file) := by
  cases h with
  | begins hop => rw [htodo] at hop; cases hop
  | reopens rest archive active hop => rw [htodo] at hop; cases hop
  | opens rest archive active hop => rw [htodo] at hop; cases hop
  | rotates text archive file hop => rw [htodo] at hop; cases hop
  | cascades i hi text archive file hop =>
    rw [htodo] at hop
    simp at hop
  | writes archive file htail hfile hsmall layout =>
    refine ⟨archive, file, ?_, hfile, layout⟩
    rcases htail with ⟨-, hdate⟩ | ⟨text, hop, -⟩
    · exact hdate
    · rw [htodo] at hop
      cases hop

/-- A `Log` message is taken. -/
theorem Stage.handleLog (h : Stage limit today full s) (htodo : s.todo = []) (text : LogText) :
    Stage limit today full (s.handleLog today text) := by
  obtain ⟨archive, file, hdate, hfile, layout⟩ := h.idle htodo
  -- as long as nothing was handled, the active file is empty
  have hfresh : s.date < today → file = [] := by
    intro hlt
    obtain ⟨dropped, hhandled, -⟩ := layout.history
    rw [hdate hlt] at hhandled
    simpa using (List.append_eq_nil_iff.mp (List.append_eq_nil_iff.mp hhandled.symm).2).2
  unfold Logger.handleLog
  split
  · rename_i hover
    refine .rotates text archive file rfl ?_ (layout.frame rfl rfl rfl rfl rfl rfl)
    show today ≤ s.date
    by_contra hlt
    have hunder := layout.overQuota_of_empty (hfresh (Nat.not_le.mp hlt))
    rw [hover] at hunder
    cases hunder
  · rename_i hunder
    split
    · rename_i hlt
      exact .reopens [.write text] archive (some file) rfl (.inr ⟨text, rfl, Nat.le_refl _⟩)
        (hfresh hlt) (layout.frame rfl rfl rfl rfl rfl rfl)
    · rename_i hge
      refine .writes archive file (.inr ⟨text, rfl, Nat.not_lt.mp hge⟩) hfile ?_
        (layout.frame rfl rfl rfl rfl rfl rfl)
      intro _
      exact Int.not_lt.mp fun hlong => hunder (layout.overQuota_iff.mpr hlong)

/-- The consumer leaves `thread_proc`. -/
theorem Stage.leave (h : Stage limit today full s) (htodo : s.todo = []) :
    Stage limit today full { s with file := none, exited := true } := by
  obtain ⟨archive, file, hdate, hfile, layout⟩ := h.idle htodo
  exact .writes archive file (.inl ⟨htodo, hdate⟩) nofun (fun hne => absurd htodo hne)
    (layout.frame rfl rfl rfl rfl rfl rfl)

/-! ## Whole runs -/

/-- No `Reopen` is in the queue. -/
def NoReopen (queue : List LogMsg) : Prop :=
  ∀ msg ∈ queue, ∀ prefixName path quota, msg ≠ .reopen prefixName path quota

theorem noReopen_append {queue queue' : List LogMsg} (h : NoReopen queue) (h' : NoReopen queue') :
    NoReopen (queue ++ queue') := by
  intro msg hmsg
  rcases List.mem_append.mp hmsg with hmsg | hmsg
  · exact h msg hmsg
  · exact h' msg hmsg

/-- `create_file` was called once: its message is the first in the queue, or was handled. -/
inductive Reaches (prefixName path : Path) (quota : CInt) (today : ℕ) (full : Prop) (s : Logger) :
    Prop where
  | waits (rest : List LogMsg) (hqueue : s.queue = .reopen prefixName path quota :: rest)
      (hrest : NoReopen rest) (htodo : s.todo = []) (hpath : s.loggerPath = [])
      (hfiles : s.files = fun _ => none) (hhandled : s.handled = []) (hexited : s.exited = false)
  | works (hqueue : NoReopen s.queue) (hstage : Stage (quota.val * 1048576) today full s)

variable {prefixName path : Path} {quota : CInt}

theorem Reaches.put (h : Reaches prefixName path quota today full s) {msgs : List LogMsg}
    (hmsgs : NoReopen msgs) (stopped : Bool) :
    Reaches prefixName path quota today full
      { s with queue := s.queue ++ msgs, stopped := stopped } := by
  cases h with
  | waits rest hqueue hrest htodo hpath hfiles hhandled hexited =>
    refine .waits (rest ++ msgs) ?_ (noReopen_append hrest hmsgs) htodo hpath hfiles hhandled hexited
    show s.queue ++ msgs = _
    rw [hqueue, List.cons_append]
  | works hqueue hstage =>
    exact .works (noReopen_append hqueue hmsgs) (hstage.queue (s.queue ++ msgs) s.draining stopped)

theorem Reaches.mono {full' : Prop} (h : Reaches prefixName path quota today full s)
    (hfull : full → full') : Reaches prefixName path quota today full' s := by
  cases h with
  | waits rest hqueue hrest htodo hpath hfiles hhandled hexited =>
    exact .waits rest hqueue hrest htodo hpath hfiles hhandled hexited
  | works hqueue hstage => exact .works hqueue (hstage.mono hfull)

/-- **Step lemma** of the consumer. -/
theorem Reaches.work {full' : Prop} (h : Reaches prefixName path quota today full s)
    (hquota : 1 ≤ quota.val) (hfull : full → full') (hnow : s.SlotsFull → full')
    (hwork : s.work today = some s') : Reaches prefixName path quota today full' s' := by
  obtain ⟨hexited, hworked⟩ := worked_of_work hwork
  cases h with
  | waits rest hqueue hrest htodo hpath hfiles hhandled _ =>
    -- the first message is the one of `create_file`
    cases hworked with
    | performs op ops hop =>
      rw [htodo] at hop
      cases hop
    | logs text queue _ hlog =>
      rw [hqueue] at hlog
      cases hlog
    | stops queue _ hstop =>
      rw [hqueue] at hstop
      cases hstop
    | leaves _ hnil _ =>
      rw [hqueue] at hnil
      cases hnil
    | reopens prefixName' path' quota' queue _ hreopen =>
      rw [hqueue] at hreopen
      cases hreopen
      have hset : (if quota.val = 0 then s.quota else quota.val) = quota.val :=
        if_neg (by omega)
      exact .works hrest (.begins rfl rfl hfiles (by rw [handleReopen, hset]; exact ⟨hquota, rfl⟩)
        hhandled)
  | works hqueue hstage =>
    cases hworked with
    | performs op rest htodo =>
      refine .works ?_ (hstage.perform hfull hnow htodo hexited)
      rw [(s.perform_flags rest op).1]
      exact hqueue
    | logs text queue htodo hlog =>
      rw [hlog] at hqueue
      have hstage' := (hstage.mono hfull).queue queue s.draining s.stopped
      refine .works ?_ (hstage'.handleLog htodo text)
      rw [(handleLog_flags _ today text).1]
      exact fun msg hmsg => hqueue msg (List.mem_cons_of_mem _ hmsg)
    | reopens prefixName' path' quota' queue _ hreopen =>
      rw [hreopen] at hqueue
      exact absurd rfl (hqueue _ List.mem_cons_self prefixName' path' quota')
    | stops queue htodo hstop =>
      rw [hstop] at hqueue
      exact .works (fun msg hmsg => hqueue msg (List.mem_cons_of_mem _ hmsg))
        ((hstage.mono hfull).queue queue true s.stopped)
    | leaves htodo hnil hdraining => exact .works hqueue ((hstage.mono hfull).leave htodo)

/-- At some point of the run, all slots were taken. -/
def WasFull (prefixName path : Path) (quota : CInt) (date : ℕ) (acts : List LoggerAct) : Prop :=
  ∃ before after s, acts = before ++ after ∧
    (machine prefixName path quota date).run (created prefixName path quota date) before = some s ∧
    s.SlotsFull

variable {date : ℕ} {acts : List LoggerAct}

/-- **Run lemma.** -/
theorem reaches_of_run (hquota : 1 ≤ quota.val)
    (hrun : (machine prefixName path quota date).run (created prefixName path quota date) acts =
      some s)
    (hdates : ∀ nDate, .work nDate ∈ acts → nDate = today) :
    Reaches prefixName path quota today (WasFull prefixName path quota date acts) s := by
  suffices h : (machine prefixName path quota date).run (created prefixName path quota date) acts =
      some s ∧ ((∀ nDate, .work nDate ∈ acts → nDate = today) →
        Reaches prefixName path quota today (WasFull prefixName path quota date acts) s) from
    h.2 hdates
  refine Machine.run_history (M := machine prefixName path quota date) (P := fun acts s =>
    (machine prefixName path quota date).run (created prefixName path quota date) acts = some s ∧
      ((∀ nDate, .work nDate ∈ acts → nDate = today) →
        Reaches prefixName path quota today (WasFull prefixName path quota date acts) s)) ?_ ?_ hrun
  · refine ⟨rfl, fun _ => ?_⟩
    refine .waits [] ?_ ?_ ?_ ?_ ?_ ?_ ?_
    · rfl
    · simp [NoReopen]
    · rfl
    · rfl
    · rfl
    · rfl
    · rfl
  · intro acts s act s' ⟨hbefore, ih⟩ hstep
    refine ⟨Machine.run_concat_eq_some.mpr ⟨s, hbefore, hstep⟩, ?_⟩
    intro hdates
    have hreaches := ih fun nDate hmem => hdates nDate (List.mem_append_left _ hmem)
    have hfull : WasFull prefixName path quota date acts →
        WasFull prefixName path quota date (acts ++ [act]) := by
      rintro ⟨before, after, t, hacts, ht, hslots⟩
      exact ⟨before, after ++ [act], t, by rw [hacts, List.append_assoc], ht, hslots⟩
    cases act with
    | log text =>
      cases hstep
      exact (hreaches.mono hfull).put (by simp [NoReopen]) s.stopped
    | destroy =>
      simp only [machine, step] at hstep
      split at hstep
      · cases hstep
      · cases hstep
        exact (hreaches.mono hfull).put (by simp [NoReopen]) true
    | work nDate =>
      obtain rfl : nDate = today := hdates nDate (by simp)
      exact hreaches.work hquota hfull (fun hslots => ⟨acts, [.work nDate], s, rfl, hbefore, hslots⟩)
        hstep

/-- What the files hold: the texts handled, up to those that were dropped, in the order of the slots
    and with no text in two of them. -/
structure Kept (limit : ℤ) (s : Logger) (dropped : List LogText) (slots : ℕ → List LogText)
    (active : List LogText) : Prop where
  history : s.handled =
    dropped ++ ((List.range maxQuataIndex).reverse.flatMap slots ++ active)
  slot : ∀ j < maxQuataIndex, s.contents (s.slotName (j + 1)) = logBytes (slots j)
  activeFile : s.contents s.loggerPath = logBytes active
  bounded : ∀ j < maxQuataIndex, WithinQuota limit (slots j)
  activeBounded : WithinQuota limit active

theorem Layout.kept (h : Layout limit full s archive gap active) :
    ∃ dropped slots file, Kept limit s dropped slots file ∧ (dropped ≠ [] → full) := by
  obtain ⟨dropped, hhandled, hdropped⟩ := h.history
  refine ⟨dropped, fun j => (gapped archive gap j).getD [], active.getD [],
    ⟨?_, ?_, h.contents_loggerPath, ?_, h.activeBounded⟩, hdropped⟩
  · rw [hhandled, flatMap_gapped archive gap maxQuataIndex h.room]
  · intro j hj
    rw [contents, h.slots j hj]
    cases gapped archive gap j with
    | none => rfl
    | some file => rfl
  · intro j hj
    cases hfile : gapped archive gap j with
    | none => exact .inl rfl
    | some file => exact h.bounded file (mem_of_gapped hfile)

/-- Before the first `open`, there are no files. -/
theorem kept_of_no_files (hfiles : s.files = fun _ => none) (hhandled : s.handled = []) :
    Kept limit s [] (fun _ => []) [] := by
  have hempty : ∀ name, s.contents name = [] := by
    intro name
    rw [contents, hfiles]
    rfl
  refine ⟨?_, fun j _ => hempty _, hempty _, fun j _ => .inl rfl, .inl rfl⟩
  rw [hhandled]
  simp

theorem Reaches.kept (h : Reaches prefixName path quota today full s) :
    ∃ dropped slots file, Kept (quota.val * 1048576) s dropped slots file ∧
      (dropped ≠ [] → full) := by
  cases h with
  | waits rest hqueue hrest htodo hpath hfiles hhandled =>
    exact ⟨_, _, _, kept_of_no_files hfiles hhandled, fun hne => absurd rfl hne⟩
  | works hqueue hstage =>
    cases hstage with
    | begins htodo hpath hfiles hquota hhandled =>
      exact ⟨_, _, _, kept_of_no_files hfiles hhandled, fun hne => absurd rfl hne⟩
    | reopens rest archive active htodo htail hempty layout => exact layout.kept
    | opens rest archive active htodo htail hempty layout => exact layout.kept
    | writes archive file htail hfile hsmall layout => exact layout.kept
    | rotates text archive file htodo hdate layout => exact layout.kept
    | cascades i hi text archive file htodo hdate layout => exact layout.kept

/-- The files `.7`, …, `.1` and the active file, one after the other. -/
def surviving (s : Logger) : List UInt8 :=
  ((List.range maxQuataIndex).reverse.flatMap fun j => s.contents (s.slotName (j + 1))) ++
    s.contents s.loggerPath

/-- The files hold whole texts, and all those that were not dropped. -/
theorem Kept.surviving_eq {dropped : List LogText} {slots : ℕ → List LogText} {file : List LogText}
    (h : Kept limit s dropped slots file) :
    logBytes s.handled = logBytes dropped ++ s.surviving := by
  have hslots : ∀ l : List ℕ, (∀ j ∈ l, j < maxQuataIndex) →
      logBytes (l.flatMap slots) = l.flatMap fun j => s.contents (s.slotName (j + 1)) := by
    intro l hl
    induction l with
    | nil => rfl
    | cons j l ih =>
      rw [List.flatMap_cons, List.flatMap_cons, logBytes_append, h.slot j (hl j List.mem_cons_self),
        ih fun k hk => hl k (List.mem_cons_of_mem j hk)]
  rw [h.history, logBytes_append, logBytes_append, hslots _ (by simp), surviving, h.activeFile]

/-- **Log rotation loses only the oldest texts.** In every state of every run on one date, the files
    hold the texts handled up to the dropped ones, whole and in order, and texts are dropped only
    behind a state with all slots taken. Without its last text, no file is over the quota. When the
    consumer has left, all texts from before `Stop` were handled; and it leaves. -/
theorem rotation_keeps_suffix (prefixName path : Path) (quota : CInt) (date today : ℕ)
    (hquota : 1 ≤ quota.val) (acts : List LoggerAct) (s : Logger)
    (hrun : (machine prefixName path quota date).run (created prefixName path quota date) acts =
      some s)
    (hdates : ∀ nDate, .work nDate ∈ acts → nDate = today) :
    (∃ dropped slots active, Kept (quota.val * 1048576) s dropped slots active ∧
        logBytes s.handled = logBytes dropped ++ s.surviving ∧
        (dropped ≠ [] → WasFull prefixName path quota date acts)) ∧
      (s.exited = true → loggedBefore acts <+: s.handled) ∧
      (.destroy ∈ acts → ∃ k s', (machine prefixName path quota date).run s
        (List.replicate k (.work today)) = some s' ∧ s'.exited = true) := by
  have hfifo := fifo_of_run hrun
  refine ⟨?_, ?_, ?_⟩
  · obtain ⟨dropped, slots, active, hkept, hdropped⟩ := (reaches_of_run hquota hrun hdates).kept
    exact ⟨dropped, slots, active, hkept, hkept.surviving_eq, hdropped⟩
  · intro hexited
    exact (hfifo.exited hexited).2.2
  · intro hdestroy
    exact leaves_of_stop prefixName path quota date today (hfifo.stop.mpr hdestroy)

/-! ## A run with a rotation -/

/-- A logger with quota 1 that has opened its file and waits for a message: what the file holds, and
    the texts that were handled. -/
def waiting (bytes : List UInt8) (handled : List LogText) : Logger :=
  { created ['a'] ['/'] ⟨1, by decide⟩ 20240501 with
    prefixName := ['a']
    rootPath := ['/']
    loggerPath := ['/', 'a', '.', '0', '5', '0', '1']
    quota := 1
    file := some ['/', 'a', '.', '0', '5', '0', '1']
    queue := []
    files := Function.update (fun _ => none) ['/', 'a', '.', '0', '5', '0', '1'] (some bytes)
    handled := handled }

/-- That logger, when a rotation has moved its file. -/
def moved (bytes : List UInt8) (handled : List LogText) (text : LogText) : Logger :=
  { waiting bytes handled with
    file := none
    files := Function.update (Function.update (Function.update (fun _ => none)
      ['/', 'a', '.', '0', '5', '0', '1'] (some bytes)) ['/', 'a', '.', '0', '5', '0', '1'] none)
        ['/', 'a', '.', '1'] (some bytes)
    todo := [.doOpen, .write text] }

theorem run_opens : (machine ['a'] ['/'] ⟨1, by decide⟩ 20240501).run
    (created ['a'] ['/'] ⟨1, by decide⟩ 20240501)
    [.work 20240501, .work 20240501, .work 20240501] = some (waiting [] []) := by
  rfl

theorem overQuota_waiting (bytes : List UInt8) (handled : List LogText) :
    (waiting bytes handled).overQuota = !decide ((bytes.length : ℤ) ≤ 1 * 1048576) := by
  simp [overQuota, waiting]

/-- A text that finds the file within the quota is appended. -/
theorem run_appends {bytes : List UInt8} (h : bytes.length ≤ 1048576) (handled : List LogText)
    (text : LogText) :
    (machine ['a'] ['/'] ⟨1, by decide⟩ 20240501).run (waiting bytes handled)
      [.log text, .work 20240501, .work 20240501] =
      some (waiting (bytes ++ text.bytes) (handled ++ [text])) := by
  have hquota : (waiting bytes handled).overQuota = false := by
    rw [overQuota_waiting]
    simp only [Bool.not_eq_false', decide_eq_true_eq]
    omega
  have hhandle : (waiting bytes handled).handleLog 20240501 text =
      { waiting bytes handled with todo := [.write text] } := by
    rw [handleLog, if_neg (by simp [hquota])]
    rfl
  calc (machine ['a'] ['/'] ⟨1, by decide⟩ 20240501).run (waiting bytes handled)
        [.log text, .work 20240501, .work 20240501]
      = (machine ['a'] ['/'] ⟨1, by decide⟩ 20240501).run
          ((waiting bytes handled).handleLog 20240501 text) [.work 20240501] := rfl
    _ = some (({ waiting bytes handled with todo := [.write text] } : Logger).perform []
          (.write text)) := by
        rw [hhandle]
        rfl
    _ = some (waiting (bytes ++ text.bytes) (handled ++ [text])) := by
        simp only [perform, take_bytes, waiting, created, Function.update_self, Option.getD_some,
          Function.update_idem]

/-- As long as the file is within the quota before each of them, any number of texts is appended. -/
theorem run_appends_many (text : LogText) (k : ℕ) (h : (k - 1) * text.bytes.length ≤ 1048576) :
    (machine ['a'] ['/'] ⟨1, by decide⟩ 20240501).run (waiting [] [])
      (List.replicate k [.log text, .work 20240501, .work 20240501]).flatten =
      some (waiting (logBytes (List.replicate k text)) (List.replicate k text)) := by
  induction k with
  | zero => rfl
  | succ k ih =>
    have hearlier := ih (Nat.le_trans (Nat.mul_le_mul_right _ (by omega)) h)
    have hlength : (logBytes (List.replicate k text)).length ≤ 1048576 := by
      simpa [logBytes, List.length_flatMap] using h
    rw [List.replicate_succ', List.flatten_append, List.flatten_singleton, Machine.run_append,
      hearlier, Option.bind_some, run_appends hlength, List.replicate_succ', logBytes_append,
      logBytes_singleton]

/-- A text that finds the file over the quota: the file is moved to `.1`, and the text is the first one
    of the new file. -/
theorem run_rotates {bytes : List UInt8} (h : 1048576 < bytes.length) (handled : List LogText)
    (text : LogText) :
    (machine ['a'] ['/'] ⟨1, by decide⟩ 20240501).run (waiting bytes handled)
      (.log text :: List.replicate 8 (.work 20240501)) = some (moved bytes handled text) := by
  have hquota : (waiting bytes handled).overQuota = true := by
    rw [overQuota_waiting]
    simp only [Bool.not_eq_true', decide_eq_false_iff_not]
    omega
  have hhandle : (waiting bytes handled).handleLog 20240501 text =
      { waiting bytes handled with file := none, todo := rotation ++ [.doOpen, .write text] } := by
    rw [handleLog, if_pos hquota]
  calc (machine ['a'] ['/'] ⟨1, by decide⟩ 20240501).run (waiting bytes handled)
        (.log text :: List.replicate 8 (.work 20240501))
      = (machine ['a'] ['/'] ⟨1, by decide⟩ 20240501).run
          ((waiting bytes handled).handleLog 20240501 text) (List.replicate 7 (.work 20240501)) := rfl
    _ = some (moved bytes handled text) := by
        rw [hhandle]
        rfl

/-- Behind the rotation the text is written to a new file, and the logger can be destroyed. -/
theorem run_ends (bytes : List UInt8) (handled : List LogText) (text : LogText) :
    ∃ s, (machine ['a'] ['/'] ⟨1, by decide⟩ 20240501).run (moved bytes handled text)
        [.work 20240501, .work 20240501, .work 20240501, .destroy, .work 20240501,
          .work 20240501] = some s ∧
      s.exited = true ∧ s.contents (s.slotName 1) = bytes := by
  have hne := slotName_ne_datedName (moved bytes handled text) 1 (moved bytes handled text).date
  have hopen : (machine ['a'] ['/'] ⟨1, by decide⟩ 20240501).step (moved bytes handled text)
      (.work 20240501) = some ((moved bytes handled text).perform [.write text] .doOpen) := rfl
  rw [Machine.run_cons, hopen, perform_doOpen _ _ rfl, Option.bind_some]
  generalize (moved bytes handled text).datedName (moved bytes handled text).date = dated at hne
  refine ⟨_, rfl, rfl, ?_⟩
  -- the new file is not the one in the first slot
  show (Function.update (Function.update (moved bytes handled text).files dated _) dated _
    ((moved bytes handled text).slotName 1)).getD [] = bytes
  rw [Function.update_of_ne hne, Function.update_of_ne hne]
  rfl
/-- A text of the longest kind. -/
def longText : LogText := ⟨List.replicate 20607 97, by rw [List.length_replicate]; decide⟩

/-- The calls of a run with a rotation: 51 long texts fill the file over the quota. -/
def rotatingActs : List LoggerAct :=
  List.replicate 3 (.work 20240501) ++
    (List.replicate 51 [.log longText, .work 20240501, .work 20240501]).flatten ++
    (.log longText :: List.replicate 8 (.work 20240501)) ++
    [.work 20240501, .work 20240501, .work 20240501, .destroy, .work 20240501, .work 20240501]

theorem work_of_mem_rotatingActs {nDate : ℕ} (h : .work nDate ∈ rotatingActs) : nDate = 20240501 := by
  have heq : ∀ {n : ℕ}, LoggerAct.work nDate ∈ List.replicate n (.work 20240501) → nDate = 20240501 := by
    intro n hmem
    exact LoggerAct.work.inj (List.eq_of_mem_replicate hmem)
  simp only [rotatingActs, List.mem_append, List.mem_cons, List.mem_flatten] at h
  rcases h with ((hopen | ⟨acts, hacts, hmem⟩) | hlast | hrotate) | hend
  · exact heq hopen
  · rw [List.eq_of_mem_replicate hacts] at hmem
    simpa using hmem
  · cases hlast
  · exact heq hrotate
  · simpa using hend

/-- A logger that handles 52 texts. The first 51 of them are in `.1` when it is destroyed. -/
theorem rotation_keeps_suffix_rotated :
    ∃ s, (machine ['a'] ['/'] ⟨1, by decide⟩ 20240501).run
        (created ['a'] ['/'] ⟨1, by decide⟩ 20240501) rotatingActs = some s ∧
      s.exited = true ∧ s.contents (s.slotName 1) = logBytes (List.replicate 51 longText) ∧
      (∃ dropped slots active, Kept (1 * 1048576) s dropped slots active ∧
        logBytes s.handled = logBytes dropped ++ s.surviving ∧
        (dropped ≠ [] → WasFull ['a'] ['/'] ⟨1, by decide⟩ 20240501 rotatingActs)) ∧
      loggedBefore rotatingActs <+: s.handled := by
  have hbytes : longText.bytes.length = 20607 := List.length_replicate
  have hfull : 1048576 < (logBytes (List.replicate 51 longText)).length := by
    simp [logBytes, hbytes]
  obtain ⟨s, hends, hexited, hslot⟩ :=
    run_ends (logBytes (List.replicate 51 longText)) (List.replicate 51 longText) longText
  have hrun : (machine ['a'] ['/'] ⟨1, by decide⟩ 20240501).run
      (created ['a'] ['/'] ⟨1, by decide⟩ 20240501) rotatingActs = some s := by
    rw [rotatingActs, Machine.run_append, Machine.run_append, Machine.run_append]
    have hopens : (machine ['a'] ['/'] ⟨1, by decide⟩ 20240501).run
        (created ['a'] ['/'] ⟨1, by decide⟩ 20240501) (List.replicate 3 (.work 20240501)) =
        some (waiting [] []) := run_opens
    rw [hopens, Option.bind_some, run_appends_many longText 51 (by rw [hbytes]; decide), Option.bind_some,
      run_rotates hfull, Option.bind_some, hends]
  obtain ⟨hkept, hhandled, -⟩ := rotation_keeps_suffix ['a'] ['/'] ⟨1, by decide⟩ 20240501 20240501
    (by decide) rotatingActs s hrun fun nDate => work_of_mem_rotatingActs
  exact ⟨s, hrun, hexited, hslot, hkept, hhandled hexited⟩

end Logger

end Pdk.Io
