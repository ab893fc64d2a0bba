import Pdk.Foundation.Custody
import Pdk.Foundation.Disk
import Pdk.Foundation.Transition

/-!
# `File`

Model of the files of `include/base.hpp` and `src/file.cpp`: any number of them in one process, over
one table of descriptors and one disk. Besides them there are descriptors that the process has opened
itself; a `File(int hFile)` is made for such a one, and does not close it.

`::open` may fail for any reason, and `::write` may transfer fewer bytes than it is given. An `fd_` of
`hFileNull` is `none`.

In every run, the open descriptors are those that files have opened, each of one file, and those of
the process itself (`descriptors_accounted`).
-/

namespace Pdk.Io

open Foundation

/-! ## Flags -/

/-- `OpenFlags`, without `typeText` and `typeBinary`, which `open` does not read. -/
def modeWrite : UInt32 := 0x0001

def modeReadWrite : UInt32 := 0x0002

def modeCreate : UInt32 := 0x1000

def modeNoTruncate : UInt32 := 0x2000

/-- The flags of `::open` for `nOpenFlags`. -/
def openMode (nOpenFlags : UInt32) : OpenMode where
  access :=
    if nOpenFlags &&& modeReadWrite = modeReadWrite then .readWrite
    else if nOpenFlags &&& modeWrite ≠ 0 then .writeOnly
    else .readOnly
  create := nOpenFlags &&& modeCreate ≠ 0
  append := nOpenFlags &&& modeWrite ≠ 0 ∧ nOpenFlags &&& modeNoTruncate ≠ 0
  truncate :=
    nOpenFlags &&& modeWrite ≠ 0 ∧ ¬nOpenFlags &&& modeNoTruncate ≠ 0 ∧ nOpenFlags &&& modeCreate ≠ 0

/-! ## Files of a process -/

/-- `fd_` and `close_on_delete_`. -/
structure FileState where
  fd : Option ℕ
  closeOnDelete : Bool
  deriving DecidableEq, Repr

namespace FileState

/-- `File()`. -/
def new : FileState := ⟨none, true⟩

/-- The descriptor that the file has to close. -/
def owned (f : FileState) : Option ℕ := if f.closeOnDelete then f.fd else none

theorem owned_eq_some {f : FileState} {fd : ℕ} : f.owned = some fd ↔ f = ⟨some fd, true⟩ := by
  obtain ⟨own, closeOnDelete⟩ := f
  cases closeOnDelete <;> simp [owned]

end FileState

/-- The files `ι` of a process, and the descriptors `κ` that it has opened itself. -/
structure FileProcess (ν ι κ : Type*) where
  disk : Disk ν
  fds : Descriptors OpenFile
  file : ι → FileState
  outside : κ → Option ℕ
  -- what was written to the files of the disk, by their number, in this order
  written : List (ℕ × List UInt8)

inductive FileAct (ν ι κ : Type*) where
  -- `open(lpszFileName, nOpenFlags)`, also by the constructor
  | openFile (i : ι) (lpszFileName : ν) (nOpenFlags : UInt32) (ok : Bool)
  -- `File(int hFile)`
  | adopt (i : ι) (hFile : ℕ)
  | close (i : ι)
  -- `~File()`
  | destroy (i : ι)
  | read (i : ι) (nCount : ℕ)
  -- of the bytes, `::write` takes as many as it can
  | write (i : ι) (bytes : List UInt8) (taken : ℕ)
  | seek (i : ι) (lOff : ℤ) (nFrom : Whence)
  | rename (lpszOldName lpszNewName : ν)
  | remove (lpszFileName : ν)
  | outsideOpen (k : κ) (name : ν) (mode : OpenMode) (ok : Bool)
  | outsideClose (k : κ)

namespace FileProcess

variable {ν ι κ : Type*} [DecidableEq ν] [DecidableEq ι] [DecidableEq κ]

/-- `::close`, if there is a descriptor to close. -/
def closeFd (fds : Descriptors OpenFile) : Option ℕ → Descriptors OpenFile
  | none => fds
  | some fd => fds.release fd

/-- `::open`. -/
def sysOpen (s : FileProcess ν ι κ) (name : ν) (mode : OpenMode) (ok : Bool) :
    Option (Disk ν × OpenFile) :=
  if ok then s.disk.openFile name mode else none

/-- What the descriptor of a file is open for, if it is open. -/
def description (s : FileProcess ν ι κ) (i : ι) : Option (ℕ × OpenFile) :=
  match (s.file i).fd with
  | none => none
  | some fd => (s.fds.lookup fd).map fun o => (fd, o)

def openFile (s : FileProcess ν ι κ) (i : ι) (lpszFileName : ν) (nOpenFlags : UInt32) (ok : Bool) :
    FileProcess ν ι κ :=
  match s.sysOpen lpszFileName (openMode nOpenFlags) ok with
  | none => s
  | some (disk, o) =>
    { s with
      disk := disk
      -- the old descriptor is closed behind the new one
      fds := closeFd (s.fds.alloc o) (s.file i).owned
      file := Function.update s.file i ⟨some s.fds.lowestFree, true⟩ }

def close (s : FileProcess ν ι κ) (i : ι) : FileProcess ν ι κ :=
  match (s.file i).owned with
  | none => s
  | some fd =>
    { s with
      fds := s.fds.release fd
      file := Function.update s.file i { s.file i with fd := none } }

def read (s : FileProcess ν ι κ) (i : ι) (nCount : ℕ) : FileProcess ν ι κ :=
  match s.description i with
  | none => s
  | some (fd, o) => { s with fds := s.fds.modify fd fun _ => (s.disk.read o nCount).2 }

def write (s : FileProcess ν ι κ) (i : ι) (bytes : List UInt8) : FileProcess ν ι κ :=
  match s.description i with
  | none => s
  | some (fd, o) =>
    { s with
      disk := (s.disk.write o bytes).1
      fds := s.fds.modify fd fun _ => (s.disk.write o bytes).2
      written := s.written ++ [(o.file, Disk.accepts o bytes)] }

def seek (s : FileProcess ν ι κ) (i : ι) (lOff : ℤ) (nFrom : Whence) : FileProcess ν ι κ :=
  match s.description i with
  | none => s
  | some (fd, o) => { s with fds := s.fds.modify fd fun _ => (s.disk.seek o lOff nFrom).getD o }

def step (s : FileProcess ν ι κ) : FileAct ν ι κ → Option (FileProcess ν ι κ)
  | .openFile i lpszFileName nOpenFlags ok => some (s.openFile i lpszFileName nOpenFlags ok)
  | .adopt i hFile =>
    if s.file i ≠ .new then none
    else some { s with file := Function.update s.file i ⟨some hFile, false⟩ }
  | .close i => some (s.close i)
  | .destroy i =>
    some { s with
      fds := closeFd s.fds (s.file i).owned
      file := Function.update s.file i .new }
  | .read i nCount => some (s.read i nCount)
  | .write i bytes taken => some (s.write i (bytes.take taken))
  | .seek i lOff nFrom => some (s.seek i lOff nFrom)
  | .rename lpszOldName lpszNewName =>
    some { s with disk := s.disk.rename lpszOldName lpszNewName }
  | .remove lpszFileName => some { s with disk := s.disk.unlink lpszFileName }
  | .outsideOpen k name mode ok =>
    if s.outside k ≠ none then none
    else
      match s.sysOpen name mode ok with
      | none => some s
      | some (disk, o) =>
        some { s with
          disk := disk
          fds := s.fds.alloc o
          outside := Function.update s.outside k (some s.fds.lowestFree) }
  | .outsideClose k =>
    some { s with
      fds := closeFd s.fds (s.outside k)
      outside := Function.update s.outside k none }

/-- A process that has opened nothing yet, on any disk. -/
def machine (ι κ : Type*) [DecidableEq ι] [DecidableEq κ] (disk : Disk ν) :
    Machine (FileProcess ν ι κ) (FileAct ν ι κ) :=
  ⟨⟨disk, [], fun _ => .new, fun _ => none, []⟩, step⟩

/-! ## Descriptors -/

/-- Who has to close which descriptor. -/
def hold (s : FileProcess ν ι κ) : ι ⊕ κ → Option ℕ
  | .inl i => (s.file i).owned
  | .inr k => s.outside k

/-- The open descriptors are those that files have opened and those of the process itself, each of
    one of them. -/
def InCustody (s : FileProcess ν ι κ) : Prop := Custody s.fds s.hold

omit [DecidableEq ν] in
theorem hold_file (s : FileProcess ν ι κ) (disk : Disk ν) (fds : Descriptors OpenFile) (i : ι)
    (f : FileState) (written : List (ℕ × List UInt8)) :
    hold ⟨disk, fds, Function.update s.file i f, s.outside, written⟩ =
      Function.update s.hold (.inl i) f.owned := by
  funext h
  cases h with
  | inl j =>
    by_cases hji : j = i
    · subst hji
      simp [hold]
    · simp [hold, hji]
  | inr k => rfl

omit [DecidableEq ν] in
theorem hold_outside (s : FileProcess ν ι κ) (disk : Disk ν) (fds : Descriptors OpenFile) (k : κ)
    (fd : Option ℕ) (written : List (ℕ × List UInt8)) :
    hold ⟨disk, fds, s.file, Function.update s.outside k fd, written⟩ =
      Function.update s.hold (.inr k) fd := by
  funext h
  cases h with
  | inl i => rfl
  | inr j =>
    by_cases hjk : j = k
    · subst hjk
      simp [hold]
    · simp [hold, hjk]

/-- Custody behind `::close` of what somebody has to close. -/
theorem custody_closeFd {fds : Descriptors OpenFile} {own : ι ⊕ κ → Option ℕ} (h : Custody fds own)
    (i : ι ⊕ κ) : Custody (closeFd fds (own i)) (Function.update own i none) := by
  cases hi : own i with
  | none =>
    rw [closeFd, ← hi, Function.update_eq_self]
    exact h
  | some fd =>
    refine h.drop hi fun f => ?_
    rw [closeFd, Descriptors.lookup_release]
    by_cases hf : f = fd
    · simp [hf]
    · simp [hf]

/-- Custody behind `::open` for somebody who then closes what he had before. -/
theorem custody_alloc {fds : Descriptors OpenFile} {own : ι ⊕ κ → Option ℕ} (h : Custody fds own)
    (i : ι ⊕ κ) (o : OpenFile) :
    Custody (closeFd (fds.alloc o) (own i)) (Function.update own i (some fds.lowestFree)) := by
  have hclosed := custody_closeFd h i
  have hfree := Descriptors.lookup_lowestFree fds
  -- it does not matter that the old one is closed last
  have hgain : (closeFd fds (own i)).lookup fds.lowestFree = none →
      (∀ f, ((closeFd (fds.alloc o) (own i)).lookup f).isSome ↔
        f = fds.lowestFree ∨ ((closeFd fds (own i)).lookup f).isSome) →
      Custody (closeFd (fds.alloc o) (own i)) (Function.update own i (some fds.lowestFree)) := by
    intro hnone hopen
    have hnew := hclosed.gain (Function.update_self ..) hnone hopen
    rw [Function.update_idem] at hnew
    exact hnew
  cases hi : own i with
  | none =>
    rw [hi] at hgain
    refine hgain hfree fun f => ?_
    rw [closeFd, closeFd, Descriptors.lookup_alloc]
    by_cases hf : f = fds.lowestFree
    · simp [hf]
    · simp [hf]
  | some fd =>
    rw [hi] at hgain
    have hopen : (fds.lookup fd).isSome := (h.held fd).mpr ⟨i, hi⟩
    have hne : fds.lowestFree ≠ fd := by
      intro heq
      rw [← heq, hfree] at hopen
      cases hopen
    refine hgain ?_ fun f => ?_
    · rw [closeFd, Descriptors.lookup_release, if_neg hne, hfree]
    · rw [closeFd, closeFd, Descriptors.lookup_release, Descriptors.lookup_release,
        Descriptors.lookup_alloc]
      by_cases hf : f = fds.lowestFree
      · simp [hf, hne]
      · simp [hf]

variable {s s' : FileProcess ν ι κ}

omit [DecidableEq ν] [DecidableEq ι] [DecidableEq κ] in
/-- Custody behind an access through a descriptor. -/
theorem InCustody.modify (h : s.InCustody) (disk : Disk ν) (fd : ℕ) (f : OpenFile → OpenFile)
    (written : List (ℕ × List UInt8)) :
    InCustody { s with disk := disk, fds := s.fds.modify fd f, written := written } := by
  refine Custody.congr h fun fd' => ?_
  rw [Descriptors.lookup_modify]
  by_cases hfd : fd' = fd
  · simp [hfd]
  · simp [hfd]

/-- **Step lemma**: every step keeps custody. -/
theorem InCustody.step (h : s.InCustody) {a : FileAct ν ι κ} (hstep : step s a = some s') :
    s'.InCustody := by
  cases a with
  | openFile i name flags ok =>
    cases hstep
    unfold openFile
    split
    · exact h
    · rename_i disk o hopen
      rw [InCustody, hold_file]
      exact custody_alloc h (.inl i) o
  | adopt i hFile =>
    simp only [FileProcess.step] at hstep
    split at hstep
    · cases hstep
    · rename_i hnew
      cases hstep
      -- a file that was made for a descriptor has nothing to close
      have hnone : (⟨some hFile, false⟩ : FileState).owned = s.hold (.inl i) := by
        rw [hold, not_not.mp hnew]
        rfl
      rw [InCustody, hold_file, hnone, Function.update_eq_self]
      exact h
  | close i =>
    cases hstep
    have hclosed := custody_closeFd h (.inl i)
    unfold close
    split
    · exact h
    · rename_i fd hfd
      have howned : ({ s.file i with fd := none } : FileState).owned = none := by
        simp [FileState.owned]
      rw [InCustody, hold_file, howned]
      rw [hold, hfd] at hclosed
      exact hclosed
  | destroy i =>
    cases hstep
    rw [InCustody, hold_file]
    exact custody_closeFd h (.inl i)
  | read i nCount =>
    cases hstep
    unfold read
    split
    · exact h
    · exact h.modify s.disk _ _ s.written
  | write i bytes taken =>
    cases hstep
    unfold write
    split
    · exact h
    · exact h.modify _ _ _ _
  | seek i lOff nFrom =>
    cases hstep
    unfold seek
    split
    · exact h
    · exact h.modify s.disk _ _ s.written
  | rename old new =>
    cases hstep
    exact h
  | remove name =>
    cases hstep
    exact h
  | outsideOpen k name mode ok =>
    simp only [FileProcess.step] at hstep
    split at hstep
    · cases hstep
    · rename_i hnone
      split at hstep
      · cases hstep
        exact h
      · rename_i disk o hopen
        cases hstep
        have halloc := custody_alloc h (.inr k) o
        rw [hold, not_not.mp hnone] at halloc
        rw [InCustody, hold_outside]
        exact halloc
  | outsideClose k =>
    cases hstep
    rw [InCustody, hold_outside]
    exact custody_closeFd h (.inr k)

theorem inCustody_init (disk : Disk ν) : (machine ι κ disk).init.InCustody := by
  have hnone : (machine ι κ disk).init.hold = fun _ => none := by
    funext h
    cases h <;> rfl
  rw [InCustody, hnone]
  exact Custody.nil

/-- In every run, on every disk, the open descriptors are those that files have opened and not closed,
    and those of the process itself; each is of one of them. -/
theorem descriptors_accounted {disk : Disk ν} {acts : List (FileAct ν ι κ)}
    (hrun : (machine ι κ disk).run (machine ι κ disk).init acts = some s) :
    (∀ fd, (s.fds.lookup fd).isSome ↔
      (∃ i, s.file i = ⟨some fd, true⟩) ∨ ∃ k, s.outside k = some fd) ∧
    (∀ i j fd, s.file i = ⟨some fd, true⟩ → s.file j = ⟨some fd, true⟩ → i = j) ∧
    ∀ i k fd, s.file i = ⟨some fd, true⟩ → s.outside k ≠ some fd := by
  have h : s.InCustody :=
    Machine.run_invariant (inCustody_init disk) (fun t a t' ht hstep => ht.step hstep) hrun
  refine ⟨fun fd => ?_, fun i j fd hi hj => ?_, fun i k fd hi hk => ?_⟩
  · rw [h.held fd, Sum.exists]
    refine or_congr (exists_congr fun i => ?_) Iff.rfl
    exact FileState.owned_eq_some
  · have hsame := h.single (.inl i) (.inl j) fd (FileState.owned_eq_some.mpr hi)
      (FileState.owned_eq_some.mpr hj)
    exact Sum.inl.inj hsame
  · have hsame := h.single (.inl i) (.inr k) fd (FileState.owned_eq_some.mpr hi) hk
    cases hsame

/-- A file that was made for a descriptor opens two files one after the other, and closes the first of
    them only. -/
theorem descriptors_accounted_adopted :
    let acts : List (FileAct Bool Unit Unit) :=
      [.outsideOpen () true ⟨.readOnly, true, false, false⟩ true, .adopt () 0, .close (),
        .openFile () true modeWrite true, .openFile () false (modeWrite ||| modeCreate) true]
    let disk : Disk Bool := .empty
    ∃ s, (machine Unit Unit disk).run (machine Unit Unit disk).init acts = some s ∧
      s.file () = ⟨some 2, true⟩ ∧ s.outside () = some 0 ∧
      ∀ fd, (s.fds.lookup fd).isSome ↔ fd = 2 ∨ fd = 0 := by
  intro acts disk
  obtain ⟨s, hrun, hend⟩ := Machine.exists_of_run_any (machine Unit Unit disk)
    (machine Unit Unit disk).init acts
    (fun s => s.file () = ⟨some 2, true⟩ ∧ s.outside () = some 0) (by decide)
  obtain ⟨hfile, houtside⟩ : s.file () = ⟨some 2, true⟩ ∧ s.outside () = some 0 := by
    simpa using hend
  refine ⟨s, hrun, hfile, houtside, fun fd => ?_⟩
  rw [(descriptors_accounted hrun).1 fd]
  refine or_congr ⟨?_, ?_⟩ ⟨?_, ?_⟩
  · rintro ⟨i, hi⟩
    rw [hfile] at hi
    cases hi
    rfl
  · rintro rfl
    exact ⟨(), hfile⟩
  · rintro ⟨k, hk⟩
    rw [houtside] at hk
    cases hk
    rfl
  · rintro rfl
    exact ⟨(), houtside⟩

end FileProcess

end Pdk.Io
