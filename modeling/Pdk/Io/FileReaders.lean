import Pdk.Io.FileAppend

/-!
# Reading a file that others append to

A file that was opened to read, while other files of the process append to the same one, and while
names are changed and taken away. What `read` has returned since `open` is always the first part of
what is in the file at that moment: nothing is left out, nothing comes twice, and the order is that of
the calls of `write` (`reads_first_part`).

This is about files that are read from start to end: there is no `seek`, and no `File(int)`, which
shares the position of another one.
-/

namespace Pdk.Io

open Foundation

variable {ν ι κ : Type*}

/-- The flags of `open` are those of a reader or of an appender, and no position is moved from
    outside. -/
def FileAct.Straight : FileAct ν ι κ → Prop
  | .adopt .. | .seek .. => False
  | a => a.Uses KeepsContents

/-- The files of a process, and what each of them has read since it was opened. -/
structure ReadingProcess (ν ι κ : Type*) where
  base : FileProcess ν ι κ
  got : ι → List UInt8

/-- What `read(lpBuf, nCount)` puts into the buffer. -/
def FileProcess.readBytes (s : FileProcess ν ι κ) (i : ι) (nCount : ℕ) : List UInt8 :=
  match s.description i with
  | none => []
  | some (_, o) => (s.disk.read o nCount).1

namespace ReadingProcess

variable [DecidableEq ν] [DecidableEq ι]

def gotAfter (s : ReadingProcess ν ι κ) : FileAct ν ι κ → ι → List UInt8
  | .openFile i lpszFileName nOpenFlags ok =>
    if (s.base.sysOpen lpszFileName (openMode nOpenFlags) ok).isSome then
      Function.update s.got i []
    else s.got
  | .read i nCount => Function.update s.got i (s.got i ++ s.base.readBytes i nCount)
  | _ => s.got

def step [DecidableEq κ] (s : ReadingProcess ν ι κ) (a : FileAct ν ι κ) : Option (ReadingProcess ν ι κ) :=
  (s.base.step a).map fun base => ⟨base, s.gotAfter a⟩

def machine (ι κ : Type*) [DecidableEq ι] [DecidableEq κ] (disk : Disk ν) :
    Machine (ReadingProcess ν ι κ) (FileAct ν ι κ) :=
  ⟨⟨(FileProcess.machine ι κ disk).init, fun _ => []⟩, step⟩

/-! ## Readers -/

/-- What was read through an open file is what is before its position. -/
def ReadTo (disk : Disk ν) (o : OpenFile) (got : List UInt8) : Prop :=
  o.access = .readOnly → o.pos ≤ (disk.content o.file).length ∧
    got = (disk.content o.file).take o.pos

structure Reads (disk : Disk ν) (s : ReadingProcess ν ι κ) : Prop where
  custody : s.base.InCustody
  keeping : s.base.Keeping disk
  -- nobody shares a descriptor
  own : ∀ i, (s.base.file i).closeOnDelete = true
  read : ∀ i fd o, (s.base.file i).fd = some fd → s.base.fds.lookup fd = some o →
    ReadTo s.base.disk o (s.got i)

omit [DecidableEq ν] in
/-- A file that grows at its end. -/
theorem ReadTo.grow {disk disk' : Disk ν} {o : OpenFile} {got more : List UInt8}
    (h : ReadTo disk o got) (hgrow : disk'.content o.file = disk.content o.file ++ more) :
    ReadTo disk' o got := by
  intro haccess
  obtain ⟨hpos, hgot⟩ := h haccess
  rw [hgrow, List.length_append, List.take_append_of_le_length hpos]
  exact ⟨Nat.le_add_right_of_le hpos, hgot⟩

omit [DecidableEq ν] in
theorem ReadTo.congr {disk disk' : Disk ν} {o : OpenFile} {got : List UInt8} (h : ReadTo disk o got)
    (hsame : disk'.content o.file = disk.content o.file) : ReadTo disk' o got := by
  intro haccess
  rw [hsame]
  exact h haccess

omit [DecidableEq ν] in
/-- A `read` goes on where the last one ended. -/
theorem ReadTo.read {disk : Disk ν} {o : OpenFile} {got : List UInt8} (h : ReadTo disk o got)
    (nCount : ℕ) : ReadTo disk (disk.read o nCount).2 (got ++ (disk.read o nCount).1) := by
  intro haccess
  have hreads : o.access ≠ .writeOnly := by
    intro hwrite
    rw [Disk.read, if_pos hwrite] at haccess
    rw [hwrite] at haccess
    cases haccess
  rw [Disk.read, if_neg hreads] at haccess ⊢
  obtain ⟨hpos, hgot⟩ := h haccess
  refine ⟨?_, ?_⟩
  · simp only [List.length_take, List.length_drop]
    omega
  · rw [hgot, List.take_add]
    exact congrArg _ (List.take_eq_take_iff.mpr (by simp))

variable {disk : Disk ν} {s s' : ReadingProcess ν ι κ} {i j : ι} {fd : ℕ} {o : OpenFile}

namespace Reads

omit [DecidableEq ν] [DecidableEq ι] in
theorem hold_of_fd (h : s.Reads disk) (hfd : (s.base.file i).fd = some fd) :
    s.base.hold (.inl i) = some fd := by
  rw [FileProcess.hold, FileState.owned, if_pos (h.own i), hfd]

omit [DecidableEq ν] [DecidableEq ι] in
theorem fd_ne (h : s.Reads disk) (hji : j ≠ i) {fd' : ℕ} (hj : (s.base.file j).fd = some fd)
    (hi : (s.base.file i).fd = some fd') : fd ≠ fd' := by
  rintro rfl
  exact hji (Sum.inl.inj (h.custody.single _ _ fd (h.hold_of_fd hj) (h.hold_of_fd hi)))

omit [DecidableEq ν] [DecidableEq ι] in
/-- A new descriptor is not one that a file has. -/
theorem lookup_of_alloc (h : s.Reads disk) (hfd : (s.base.file j).fd = some fd) {new : OpenFile}
    (ho : (s.base.fds.alloc new).lookup fd = some o) : s.base.fds.lookup fd = some o := by
  have hopen : (s.base.fds.lookup fd).isSome := (h.custody.held fd).mpr ⟨_, h.hold_of_fd hfd⟩
  rw [Descriptors.lookup_alloc] at ho
  split at ho
  · rename_i hfree
    rw [hfree, Descriptors.lookup_lowestFree] at hopen
    cases hopen
  · exact ho

/-- `open` begins at the start, and leaves the other files as they are. -/
theorem openFile (h : s.Reads disk) {name : ν} {nOpenFlags : UInt32} {ok : Bool}
    (hkeeps : KeepsContents nOpenFlags)
    (hfd : ((s.base.openFile i name nOpenFlags ok).file j).fd = some fd)
    (ho : (s.base.openFile i name nOpenFlags ok).fds.lookup fd = some o) :
    ReadTo (s.base.openFile i name nOpenFlags ok).disk o
      (s.gotAfter (.openFile i name nOpenFlags ok) j) := by
  cases hopen : s.base.sysOpen name (openMode nOpenFlags) ok with
  | none =>
    simp only [FileProcess.openFile, hopen] at hfd ho ⊢
    simp only [gotAfter, hopen, Option.isSome_none, Bool.false_eq_true, if_false]
    exact h.read j fd o hfd ho
  | some opened =>
    obtain ⟨d, new⟩ := opened
    have hfile := FileProcess.openFile_of_sysOpen hopen
    obtain ⟨hcontent, -⟩ := Disk.openFile_keeps hfile (openMode_keeps hkeeps)
    simp only [FileProcess.openFile, hopen] at hfd ho ⊢
    simp only [gotAfter, hopen, Option.isSome_some, if_true]
    by_cases hji : j = i
    · subst hji
      rw [Function.update_self] at hfd ⊢
      cases hfd
      have hnew := FileProcess.lookup_closeFd ho
      rw [Descriptors.lookup_alloc, if_pos rfl] at hnew
      cases hnew
      intro _
      rw [Disk.openFile_pos hfile]
      exact ⟨Nat.zero_le _, List.take_zero.symm⟩
    · rw [Function.update_of_ne hji] at hfd ⊢
      have hold := h.lookup_of_alloc hfd (FileProcess.lookup_closeFd ho)
      exact (h.read j fd o hfd hold).congr (congrFun hcontent o.file)

omit [DecidableEq ν] in
/-- `read` goes on with its own file, and leaves the other ones where they are. -/
theorem readFile (h : s.Reads disk) {nCount : ℕ}
    (hfd : ((s.base.read i nCount).file j).fd = some fd)
    (ho : (s.base.read i nCount).fds.lookup fd = some o) :
    ReadTo (s.base.read i nCount).disk o
      (Function.update s.got i (s.got i ++ s.base.readBytes i nCount) j) := by
  cases hdescription : s.base.description i with
  | none =>
    simp only [FileProcess.read, FileProcess.readBytes, hdescription, List.append_nil,
      Function.update_eq_self] at hfd ho ⊢
    exact h.read j fd o hfd ho
  | some description =>
    obtain ⟨fd', o'⟩ := description
    obtain ⟨hi, ho'⟩ := FileProcess.fd_of_description hdescription
    simp only [FileProcess.read, FileProcess.readBytes, hdescription] at hfd ho ⊢
    rw [Descriptors.lookup_modify] at ho
    by_cases hji : j = i
    · subst hji
      obtain rfl : fd' = fd := Option.some.inj (hi.symm.trans hfd)
      rw [if_pos rfl, ho'] at ho
      cases ho
      rw [Function.update_self]
      exact (h.read j fd' o' hfd ho').read nCount
    · rw [if_neg (h.fd_ne hji hfd hi)] at ho
      rw [Function.update_of_ne hji]
      exact h.read j fd o hfd ho

omit [DecidableEq ν] [DecidableEq ι] in
/-- A file grows behind those who read it. -/
theorem writeFile (h : s.Reads disk) {bytes : List UInt8}
    (hfd : ((s.base.write i bytes).file j).fd = some fd)
    (ho : (s.base.write i bytes).fds.lookup fd = some o) :
    ReadTo (s.base.write i bytes).disk o (s.got j) := by
  cases hdescription : s.base.description i with
  | none =>
    simp only [FileProcess.write, hdescription] at hfd ho ⊢
    exact h.read j fd o hfd ho
  | some description =>
    obtain ⟨fd', o'⟩ := description
    obtain ⟨hi, ho'⟩ := FileProcess.fd_of_description hdescription
    obtain ⟨hfile, hkeeps⟩ := h.keeping.kept fd' o' ho'
    simp only [FileProcess.write, hdescription] at hfd ho ⊢
    rw [Descriptors.lookup_modify] at ho
    by_cases hsame : fd = fd'
    · subst hsame
      rw [if_pos rfl, ho'] at ho
      cases ho
      by_cases hnone : Disk.accepts o' bytes = []
      · rw [Disk.write, if_pos hnone]
        exact h.read j fd o' hfd ho'
      · -- whoever writes is no reader
        intro haccess
        rw [Disk.write, if_neg hnone] at haccess
        exact absurd (if_pos haccess) hnone
    · rw [if_neg hsame] at ho
      exact (h.read j fd o hfd ho).grow (s.base.disk.write_keeps hfile hkeeps bytes o.file)

omit [DecidableEq ν] in
theorem own_update (h : s.Reads disk) {f : FileState} (hf : f.closeOnDelete = true) (j : ι) :
    (Function.update s.base.file i f j).closeOnDelete = true := by
  by_cases hji : j = i
  · rw [hji, Function.update_self]
    exact hf
  · rw [Function.update_of_ne hji]
    exact h.own j

omit [DecidableEq ν] [DecidableEq ι] in
/-- Behind a step that opens no file and leaves the files of the disk as they are. -/
theorem closed (h : s.Reads disk) {base : FileProcess ν ι κ} (hcustody : base.InCustody)
    (hkeeping : base.Keeping disk) (hown : ∀ j, (base.file j).closeOnDelete = true)
    (hback : ∀ j fd o, (base.file j).fd = some fd → base.fds.lookup fd = some o →
      (s.base.file j).fd = some fd ∧ s.base.fds.lookup fd = some o)
    (hcontent : base.disk.content = s.base.disk.content) : Reads disk ⟨base, s.got⟩ := by
  refine ⟨hcustody, hkeeping, hown, fun j fd o hfd ho => ?_⟩
  obtain ⟨hfd', ho'⟩ := hback j fd o hfd ho
  exact (h.read j fd o hfd' ho').congr (congrFun hcontent o.file)

end Reads

/-- A file that has no descriptor any more is not the one that has this one. -/
theorem fd_of_update {file : ι → FileState} {f : FileState} (hnone : f.fd = none)
    (hfd : (Function.update file i f j).fd = some fd) : (file j).fd = some fd := by
  by_cases hji : j = i
  · rw [hji, Function.update_self, hnone] at hfd
    cases hfd
  · rw [Function.update_of_ne hji] at hfd
    exact hfd

omit [DecidableEq ν] [DecidableEq ι] in
theorem uses_of_straight {a : FileAct ν ι κ} (h : a.Straight) : a.Uses KeepsContents := by
  cases a with
  | adopt i hFile => exact trivial
  | seek i lOff nFrom => exact trivial
  | _ => exact h

variable [DecidableEq κ]

/-- **Step lemma**. -/
theorem Reads.step (h : s.Reads disk) {a : FileAct ν ι κ} (hstraight : a.Straight)
    (hstep : step s a = some s') : s'.Reads disk := by
  obtain ⟨base, hbase, rfl⟩ := Option.map_eq_some_iff.mp hstep
  have hcustody := h.custody.step hbase
  have hkeeping := h.keeping.step (uses_of_straight hstraight) hbase
  cases a with
  | openFile i name nOpenFlags ok =>
    cases hbase
    refine ⟨hcustody, hkeeping, fun j => ?_, fun j fd o hfd ho => h.openFile hstraight hfd ho⟩
    unfold FileProcess.openFile
    split
    · exact h.own j
    · exact h.own_update rfl j
  | adopt i hFile => exact hstraight.elim
  | close i =>
    cases hbase
    cases hown : (s.base.file i).owned with
    | none =>
      have hsame : s.base.close i = s.base := by rw [FileProcess.close, hown]
      simp only [hsame] at hcustody hkeeping ⊢
      exact h.closed hcustody hkeeping h.own (fun j fd o hfd ho => ⟨hfd, ho⟩) rfl
    | some own =>
      have hclose : s.base.close i = { s.base with
          fds := s.base.fds.release own
          file := Function.update s.base.file i { s.base.file i with fd := none } } := by
        rw [FileProcess.close, hown]
      simp only [hclose] at hcustody hkeeping ⊢
      refine h.closed hcustody hkeeping (h.own_update (h.own i)) (fun j fd o hfd ho => ?_) rfl
      have hclosed : (FileProcess.closeFd s.base.fds (some own)).lookup fd = some o := ho
      exact ⟨fd_of_update rfl hfd, FileProcess.lookup_closeFd hclosed⟩
  | destroy i =>
    cases hbase
    refine h.closed hcustody hkeeping (h.own_update rfl) (fun j fd o hfd ho => ?_) rfl
    exact ⟨fd_of_update rfl hfd, FileProcess.lookup_closeFd ho⟩
  | read i nCount =>
    cases hbase
    refine ⟨hcustody, hkeeping, fun j => ?_, fun j fd o hfd ho => h.readFile hfd ho⟩
    unfold FileProcess.read
    split <;> exact h.own j
  | write i bytes taken =>
    cases hbase
    refine ⟨hcustody, hkeeping, fun j => ?_, fun j fd o hfd ho => h.writeFile hfd ho⟩
    unfold FileProcess.write
    split <;> exact h.own j
  | seek i lOff nFrom => exact hstraight.elim
  | rename old new =>
    cases hbase
    refine h.closed hcustody hkeeping h.own (fun j fd o hfd ho => ⟨hfd, ho⟩) ?_
    funext n
    show (s.base.disk.rename old new).content n = _
    rw [Disk.content, s.base.disk.files_rename old new]
    rfl
  | remove name =>
    cases hbase
    exact h.closed hcustody hkeeping h.own (fun j fd o hfd ho => ⟨hfd, ho⟩) rfl
  | outsideOpen k name mode ok =>
    simp only [FileProcess.step] at hbase
    split at hbase
    · cases hbase
    · split at hbase
      · cases hbase
        exact h
      · rename_i d new hopen
        cases hbase
        obtain ⟨hcontent, -⟩ :=
          Disk.openFile_keeps (FileProcess.openFile_of_sysOpen hopen) hstraight
        exact h.closed hcustody hkeeping h.own
          (fun j fd o hfd ho => ⟨hfd, h.lookup_of_alloc hfd ho⟩) hcontent
  | outsideClose k =>
    cases hbase
    exact h.closed hcustody hkeeping h.own
      (fun j fd o hfd ho => ⟨hfd, FileProcess.lookup_closeFd ho⟩) rfl

/-- In every run of readers and appenders, on every disk, a file that was opened to read has read, from
    the start on and up to its position, what the file had at the beginning of the run and behind it
    what was written to it since, in the order of the calls. -/
theorem reads_first_part {acts : List (FileAct ν ι κ)} (hstraight : ∀ a ∈ acts, a.Straight)
    (hrun : (machine ι κ disk).run (machine ι κ disk).init acts = some s) (i : ι)
    (hopen : s.base.description i = some (fd, o)) (hreader : o.access = .readOnly) :
    s.got i = (disk.content o.file ++ s.base.added o.file).take o.pos ∧
      o.pos ≤ (disk.content o.file ++ s.base.added o.file).length := by
  have hinit : (machine ι κ disk).init.Reads disk := by
    refine ⟨FileProcess.inCustody_init disk, FileProcess.keeping_init disk, fun _ => rfl, ?_⟩
    intro i fd o hfd
    cases hfd
  have hreads : s.Reads disk :=
    Machine.run_preserves_along (P := Reads disk) (fun t a t' ht hok hstep => Reads.step ht hok hstep)
      hinit (Machine.along_of_forall hstraight _) hrun
  obtain ⟨hfd, ho⟩ := FileProcess.fd_of_description hopen
  obtain ⟨hpos, hgot⟩ := hreads.read i fd o hfd ho hreader
  rw [← hreads.keeping.retains o.file]
  exact ⟨hgot, hpos⟩

/-- A file is read while another one appends to it, and after its name was taken away. -/
theorem reads_first_part_growing :
    let acts : List (FileAct Bool Bool Unit) :=
      [.openFile true true (modeWrite ||| modeNoTruncate ||| modeCreate) true, .write true [1, 2] 2,
        .openFile false true 0 true, .read false 1, .write true [3, 4] 1, .remove true,
        .read false 8]
    ∃ s o, (machine Bool Unit .empty).run (machine Bool Unit .empty).init acts = some s ∧
      s.base.description false = some (1, o) ∧ o.pos = 3 ∧
      s.got false = (s.base.added 0).take 3 ∧ s.base.added 0 = [1, 2, 3] := by
  intro acts
  obtain ⟨s, hrun, hend⟩ := Machine.exists_of_run_any (machine Bool Unit .empty)
    (machine Bool Unit .empty).init acts
    (fun s => s.base.description false = some (1, ⟨0, 3, .readOnly, false⟩) ∧
      s.base.added 0 = [1, 2, 3]) (by decide)
  obtain ⟨hopen, hadded⟩ : s.base.description false = some (1, ⟨0, 3, .readOnly, false⟩) ∧
      s.base.added 0 = [1, 2, 3] := by simpa using hend
  have hstraight : ∀ a ∈ acts, a.Straight := by
    intro a ha
    simp only [acts, List.mem_cons, List.not_mem_nil, or_false] at ha
    rcases ha with rfl | rfl | rfl | rfl | rfl | rfl | rfl
    · exact (by decide : KeepsContents (modeWrite ||| modeNoTruncate ||| modeCreate))
    · exact trivial
    · exact (by decide : KeepsContents 0)
    all_goals exact trivial
  exact ⟨s, _, hrun, hopen, rfl, (reads_first_part hstraight hrun false hopen rfl).1, hadded⟩

end ReadingProcess

end Pdk.Io
