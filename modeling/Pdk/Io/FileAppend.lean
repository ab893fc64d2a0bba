import Mathlib.Algebra.GroupWithZero.Nat
import Mathlib.Data.Nat.Bitwise
import Pdk.Io.OpenFiles

/-!
# What opening a file may cost

Files that are opened with some flags, in any number and at the same time, and also under one name;
names that change while files are open. Whatever was written stays in its file, behind what was there
before and in the order of the calls of `write`, exactly if the flags are those of a reader
(`modeWrite` and `modeReadWrite` are not set) or those of an appender (`modeWrite` and
`modeNoTruncate` are set). `modeReadWrite` and `modeNoTruncate` are not enough: the file is not
truncated then, but it is not opened to append either.
-/

namespace Pdk.Io

open Foundation

/-! ## Flags -/

/-- The flags of a reader or of an appender. -/
def KeepsContents (nOpenFlags : UInt32) : Prop :=
  (nOpenFlags &&& modeWrite = 0 ∧ nOpenFlags &&& modeReadWrite = 0) ∨
    (nOpenFlags &&& modeWrite ≠ 0 ∧ nOpenFlags &&& modeNoTruncate ≠ 0)

instance (nOpenFlags : UInt32) : Decidable (KeepsContents nOpenFlags) :=
  inferInstanceAs (Decidable (_ ∨ _))

/-- `modeReadWrite` is one bit. -/
theorem and_modeReadWrite_eq_iff (nOpenFlags : UInt32) :
    nOpenFlags &&& modeReadWrite = modeReadWrite ↔ nOpenFlags &&& modeReadWrite ≠ 0 := by
  have hbit : (nOpenFlags &&& modeReadWrite).toNat = 2 * (nOpenFlags.toNat.testBit 1).toNat := by
    rw [UInt32.toNat_and, Nat.mul_comm]
    exact Nat.and_two_pow nOpenFlags.toNat 1
  rw [Ne, ← UInt32.toNat_inj, ← UInt32.toNat_inj, hbit]
  cases nOpenFlags.toNat.testBit 1
  · exact ⟨fun h => absurd h (by decide), fun h => absurd rfl h⟩
  · exact ⟨fun _ => by decide, fun _ => rfl⟩

theorem openMode_keeps {nOpenFlags : UInt32} (h : KeepsContents nOpenFlags) :
    (openMode nOpenFlags).Keeps := by
  simp only [OpenMode.Keeps, openMode, and_modeReadWrite_eq_iff]
  rcases h with ⟨hwrite, hboth⟩ | ⟨hwrite, hkeep⟩
  · simp [hwrite, hboth]
  · simp [hwrite, hkeep]

/-- Other flags open a file to write at its start. -/
theorem openMode_of_not_keeps {nOpenFlags : UInt32} (h : ¬KeepsContents nOpenFlags) :
    (openMode nOpenFlags).access ≠ .readOnly ∧ (openMode nOpenFlags).append = false := by
  simp only [openMode, and_modeReadWrite_eq_iff]
  simp only [KeepsContents, not_or, not_and, not_not] at h
  obtain ⟨hreader, happender⟩ := h
  by_cases hwrite : nOpenFlags &&& modeWrite = 0
  · simp [hwrite, hreader hwrite]
  · by_cases hboth : nOpenFlags &&& modeReadWrite = 0
    · simp [hwrite, hboth, happender hwrite]
    · simp [hwrite, hboth, happender hwrite]

/-! ## Runs -/

variable {ν ι κ : Type*}

/-- The flags of `open` are among `F`. Nothing can be lost through the descriptors that the process
    opens itself. -/
def FileAct.Uses (F : UInt32 → Prop) : FileAct ν ι κ → Prop
  | .openFile _ _ nOpenFlags _ => F nOpenFlags
  | .outsideOpen _ _ mode _ => mode.Keeps
  | _ => True

namespace FileProcess

/-- What was written to a file of the disk. -/
def added (s : FileProcess ν ι κ) (n : ℕ) : List UInt8 :=
  (s.written.filter (·.1 = n)).flatMap (·.2)

/-- The files of the disk have the contents they had at the start, and behind them what was written. -/
def Retains (disk : Disk ν) (s : FileProcess ν ι κ) : Prop :=
  ∀ n, s.disk.content n = disk.content n ++ s.added n

/-- An open file that is there, and that nothing can be lost through. -/
def Kept (disk : Disk ν) (o : OpenFile) : Prop :=
  o.file < disk.files.length ∧ o.Keeps

structure Keeping (disk : Disk ν) (s : FileProcess ν ι κ) : Prop where
  retains : s.Retains disk
  kept : ∀ fd o, s.fds.lookup fd = some o → Kept s.disk o

variable {disk : Disk ν} {s s' : FileProcess ν ι κ}

theorem lookup_closeFd {fds : Descriptors OpenFile} {own : Option ℕ} {fd : ℕ} {o : OpenFile}
    (h : (closeFd fds own).lookup fd = some o) : fds.lookup fd = some o := by
  cases own with
  | none => exact h
  | some old =>
    rw [closeFd, Descriptors.lookup_release] at h
    split at h
    · cases h
    · exact h

theorem lookup_modify_const {fds : Descriptors OpenFile} {fd fd' : ℕ} {o o' : OpenFile}
    (h : (fds.modify fd fun _ => o').lookup fd' = some o) : o = o' ∨ fds.lookup fd' = some o := by
  rw [Descriptors.lookup_modify] at h
  split at h
  · obtain ⟨-, -, rfl⟩ := Option.map_eq_some_iff.mp h
    exact .inl rfl
  · exact .inr h

theorem fd_of_description {i : ι} {fd : ℕ} {o : OpenFile} (h : s.description i = some (fd, o)) :
    (s.file i).fd = some fd ∧ s.fds.lookup fd = some o := by
  unfold description at h
  split at h
  · cases h
  · rename_i own hown
    obtain ⟨o', ho, heq⟩ := Option.map_eq_some_iff.mp h
    cases heq
    exact ⟨hown, ho⟩

theorem openFile_of_sysOpen [DecidableEq ν] {name : ν} {mode : OpenMode} {ok : Bool}
    {opened : Disk ν × OpenFile} (h : s.sysOpen name mode ok = some opened) :
    s.disk.openFile name mode = some opened := by
  unfold sysOpen at h
  split at h
  · exact h
  · cases h

namespace Keeping

theorem closeFd (h : s.Keeping disk) (own : Option ℕ) (file : ι → FileState)
    (outside : κ → Option ℕ) :
    Keeping disk { s with fds := closeFd s.fds own, file := file, outside := outside } :=
  ⟨h.retains, fun fd o ho => h.kept fd o (lookup_closeFd ho)⟩

/-- `::open` in a mode with which nothing is lost. -/
theorem alloc [DecidableEq ν] (h : s.Keeping disk) {name : ν} {mode : OpenMode} {ok : Bool}
    {d : Disk ν} {o : OpenFile} (hopen : s.sysOpen name mode ok = some (d, o)) (hkeeps : mode.Keeps)
    (file : ι → FileState) (outside : κ → Option ℕ) :
    Keeping disk { s with disk := d, fds := s.fds.alloc o, file := file, outside := outside } := by
  obtain ⟨hcontent, hgrows, hfile, hkept⟩ := Disk.openFile_keeps (openFile_of_sysOpen hopen) hkeeps
  refine ⟨fun n => ?_, fun fd o' ho' => ?_⟩
  · rw [hcontent]
    exact h.retains n
  · simp only [Descriptors.lookup_alloc] at ho'
    split at ho'
    · cases ho'
      exact ⟨hfile, hkept⟩
    · obtain ⟨hfile', hkept'⟩ := h.kept fd o' ho'
      exact ⟨Nat.lt_of_lt_of_le hfile' hgrows, hkept'⟩

/-- An access that moves the position. -/
theorem move (h : s.Keeping disk) {fd : ℕ} {o : OpenFile} (ho : s.fds.lookup fd = some o) (pos : ℕ) :
    Keeping disk { s with fds := s.fds.modify fd fun _ => { o with pos := pos } } := by
  refine ⟨h.retains, fun fd' o' ho' => ?_⟩
  rcases lookup_modify_const ho' with rfl | hold
  · exact h.kept fd o ho
  · exact h.kept fd' o' hold

theorem read (h : s.Keeping disk) (i : ι) (nCount : ℕ) : (s.read i nCount).Keeping disk := by
  unfold FileProcess.read
  split
  · exact h
  · rename_i fd o ho
    unfold Disk.read
    split
    · exact h.move (fd_of_description ho).2 o.pos
    · exact h.move (fd_of_description ho).2 _

theorem seek (h : s.Keeping disk) (i : ι) (lOff : ℤ) (nFrom : Whence) :
    (s.seek i lOff nFrom).Keeping disk := by
  unfold FileProcess.seek
  split
  · exact h
  · rename_i fd o ho
    unfold Disk.seek
    split
    · exact h.move (fd_of_description ho).2 o.pos
    · exact h.move (fd_of_description ho).2 _

theorem write (h : s.Keeping disk) (i : ι) (bytes : List UInt8) : (s.write i bytes).Keeping disk := by
  unfold FileProcess.write
  split
  · exact h
  · rename_i fd o hdescription
    have ho := (fd_of_description hdescription).2
    obtain ⟨hfile, hkept⟩ := h.kept fd o ho
    have hlength : (s.disk.write o bytes).1.files.length = s.disk.files.length := by
      unfold Disk.write
      split
      · rfl
      · exact List.length_modify ..
    have hsame : (s.disk.write o bytes).2.file = o.file ∧ (s.disk.write o bytes).2.Keeps := by
      unfold Disk.write
      split
      · exact ⟨rfl, hkept⟩
      · exact ⟨rfl, hkept⟩
    refine ⟨fun n => ?_, fun fd' o' ho' => ?_⟩
    · rw [s.disk.write_keeps hfile hkept, h.retains n, added, added, List.filter_append,
        List.flatMap_append, List.append_assoc]
      by_cases hn : n = o.file
      · simp [hn]
      · simp [hn, Ne.symm hn]
    · rw [Kept, hlength]
      rcases lookup_modify_const ho' with rfl | hold
      · rw [hsame.1]
        exact ⟨hfile, hsame.2⟩
      · exact h.kept fd' o' hold

end Keeping

variable [DecidableEq ν] [DecidableEq ι] [DecidableEq κ]

/-- **Step lemma**: a step with flags that keep the contents loses nothing. -/
theorem Keeping.step (h : s.Keeping disk) {a : FileAct ν ι κ} (huses : a.Uses KeepsContents)
    (hstep : step s a = some s') : s'.Keeping disk := by
  cases a with
  | openFile i name nOpenFlags ok =>
    cases hstep
    unfold openFile
    split
    · exact h
    · rename_i d o hopen
      exact (h.alloc hopen (openMode_keeps huses) s.file s.outside).closeFd _ _ _
  | adopt i hFile =>
    simp only [FileProcess.step] at hstep
    split at hstep
    · cases hstep
    · cases hstep
      exact h.closeFd none _ s.outside
  | close i =>
    cases hstep
    unfold close
    split
    · exact h
    · rename_i fd _
      exact h.closeFd (some fd) _ s.outside
  | destroy i =>
    cases hstep
    exact h.closeFd _ _ s.outside
  | read i nCount =>
    cases hstep
    exact h.read i nCount
  | write i bytes taken =>
    cases hstep
    exact h.write i (bytes.take taken)
  | seek i lOff nFrom =>
    cases hstep
    exact h.seek i lOff nFrom
  | rename old new =>
    cases hstep
    have hfiles := s.disk.files_rename old new
    refine ⟨fun n => ?_, fun fd o ho => ?_⟩
    · show (s.disk.rename old new).content n = _
      rw [Disk.content, hfiles]
      exact h.retains n
    · rw [Kept, hfiles]
      exact h.kept fd o ho
  | remove name =>
    cases hstep
    exact ⟨h.retains, h.kept⟩
  | outsideOpen k name mode ok =>
    simp only [FileProcess.step] at hstep
    split at hstep
    · cases hstep
    · split at hstep
      · cases hstep
        exact h
      · rename_i d o hopen
        cases hstep
        exact h.alloc hopen huses s.file _
  | outsideClose k =>
    cases hstep
    exact h.closeFd _ s.file _

theorem keeping_init (disk : Disk ν) : (machine ι κ disk).init.Keeping disk := by
  refine ⟨fun n => ?_, fun fd o ho => ?_⟩
  · exact (List.append_nil _).symm
  · cases ho

/-- **Run lemma**. -/
theorem keeping_of_run {acts : List (FileAct ν ι κ)} (huses : ∀ a ∈ acts, a.Uses KeepsContents)
    (hrun : (machine ι κ disk).run (machine ι κ disk).init acts = some s) : s.Keeping disk := by
  exact Machine.run_preserves_along (P := Keeping disk)
    (fun t a t' ht hok hstep => Keeping.step ht hok hstep) (keeping_init disk)
    (Machine.along_of_forall huses _) hrun

/-- A disk on which every name is that of a file with one byte. -/
def oneByte (ν : Type*) (b : UInt8) : Disk ν where
  names := fun _ => some 0
  files := [[b]]
  named := by
    intro p n hp
    cases hp
    exact Nat.zero_lt_one

/-- Other flags lose the byte of a file that has one. -/
theorem exists_lost [Inhabited ν] [Inhabited ι] {nOpenFlags : UInt32}
    (hlost : ¬KeepsContents nOpenFlags) :
    ∃ s : FileProcess ν ι κ, (machine ι κ (oneByte ν 1)).run (machine ι κ (oneByte ν 1)).init
      [.openFile default default nOpenFlags true, .write default [0] 1] = some s ∧
      ¬s.Retains (oneByte ν 1) := by
  obtain ⟨haccess, happend⟩ := openMode_of_not_keeps hlost
  refine ⟨_, rfl, fun hretains => ?_⟩
  -- the byte that is written takes the place of the one that was there
  have hbyte := hretains 0
  revert haccess happend hbyte
  simp only [machine, openFile, sysOpen, Disk.openFile, oneByte, write, description,
    FileState.owned, FileState.new, closeFd]
  generalize openMode nOpenFlags = mode
  obtain ⟨access, create, append, truncate⟩ := mode
  rintro haccess rfl
  cases truncate <;>
    simp [Disk.write, haccess, Disk.accepts, Disk.place, Disk.content, Disk.modify, added, writeAt,
      Bytes.overwrite, Bytes.resize, Descriptors.alloc, Descriptors.lookup, Descriptors.lowestFree]

/-- A program that opens files with the flags `F` keeps in every run, on every disk, the contents that
    the files had, and behind them what was written, in this order, if and only if all these flags are
    those of a reader or of an appender. -/
theorem retains_iff [Inhabited ν] [Inhabited ι] (F : UInt32 → Prop) :
    (∀ (disk : Disk ν) (acts : List (FileAct ν ι κ)) (s : FileProcess ν ι κ),
      (∀ a ∈ acts, a.Uses F) →
      (machine ι κ disk).run (machine ι κ disk).init acts = some s → s.Retains disk) ↔
    ∀ nOpenFlags, F nOpenFlags → KeepsContents nOpenFlags := by
  constructor
  · intro h nOpenFlags hF
    by_contra hlost
    obtain ⟨s, hrun, hnot⟩ := exists_lost (ν := ν) (ι := ι) (κ := κ) hlost
    refine hnot (h _ _ s ?_ hrun)
    intro a ha
    rcases List.mem_cons.mp ha with rfl | ha
    · exact hF
    · rw [List.mem_singleton.mp ha]
      trivial
  · intro h disk acts s huses hrun
    refine (keeping_of_run (fun a ha => ?_) hrun).retains
    have hF := huses a ha
    cases a with
    | openFile i name nOpenFlags ok => exact h nOpenFlags hF
    | outsideOpen k name mode ok => exact hF
    | _ => trivial

-- the flags of the log files, and flags that only seem to be like them
example : KeepsContents (modeWrite ||| modeNoTruncate ||| modeCreate) ∧
    ¬KeepsContents (modeReadWrite ||| modeNoTruncate ||| modeCreate) := by decide

end FileProcess

end Pdk.Io
