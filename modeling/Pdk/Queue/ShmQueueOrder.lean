import Mathlib.Data.List.Nodup
import Mathlib.Data.List.Range
import Pdk.Foundation.Ring
import Pdk.Foundation.Tally
import Pdk.Queue.ShmQueue

/-!
# Which slots of a `ShmQueue` are written when they are taken

Reservations and takes are numbered by the lock, and the `k`-th take gets the slot of the `k`-th
reservation. The semaphore only counts the copies that were finished. If no call posts `sem_get_`
while an earlier reservation is still being copied (`PostsInOrder`), then the number of posts bounds
the reservations that are copied (`Numbered.mem_copies`), and every slot that is taken was written,
provided that no put copies into the slots of others (`CopyFits`). Otherwise a consumer may take the
slot of the slower producer.
-/

namespace Pdk.Queue

open Foundation

namespace ShmPc

def isReserving : ShmPc → Bool
  | .reserving _ _ => true
  | _ => false

def isTaking : ShmPc → Bool
  | .taking _ => true
  | _ => false

def isReleasing : ShmPc → Bool
  | .releasing _ _ => true
  | _ => false

/-- The number of the reservation that the call has made and not posted. -/
def number : ShmPc → Option ℕ
  | .copying k _ _ _ => some k
  | .posting k => some k
  | _ => none

end ShmPc

/-! ## Indices -/

/-- The index of the next reservation. -/
theorem ShmQueue.advance_mod {q : ShmQueue} (hmax : 0 < q.max) (m : ℕ) :
    q.advance (m % q.max) = (m + 1) % q.max := by
  have hlt := Nat.mod_lt m hmax
  have hsucc : (m % q.max + 1) % q.max = (m + 1) % q.max := Nat.mod_add_mod m q.max 1
  rw [← hsucc, advance]
  split
  · rename_i hwrap
    rw [hwrap, Nat.mod_self]
  · rw [Nat.mod_eq_of_lt (by omega : m % q.max + 1 < q.max)]

/-- Two numbers of one window have different slots. -/
theorem eq_of_mod_eq {n first k k' : ℕ} (h : k % n = k' % n) (hk : first ≤ k) (hk' : first ≤ k')
    (hlt : k < first + n) (hlt' : k' < first + n) : k = k' := by
  obtain ⟨i, rfl⟩ := Nat.exists_eq_add_of_le hk
  obtain ⟨j, rfl⟩ := Nat.exists_eq_add_of_le hk'
  rw [Ring.offset_injective (by omega) (by omega) h]

/-- A list with one more element. -/
theorem getElem?_concat_cases {α : Type*} {l : List α} {a b : α} {k : ℕ}
    (h : (l ++ [a])[k]? = some b) : l[k]? = some b ∨ k = l.length ∧ b = a := by
  rcases Nat.lt_trichotomy k l.length with hlt | heq | hgt
  · left
    rw [List.getElem?_append_left hlt] at h
    exact h
  · right
    rw [heq, List.getElem?_concat_length] at h
    exact ⟨heq, (Option.some.inj h).symm⟩
  · rw [List.getElem?_eq_none (by simp; omega)] at h
    cases h

theorem getElem?_concat_of_some {α : Type*} {l : List α} {a b : α} {k : ℕ} (h : l[k]? = some b) :
    (l ++ [a])[k]? = some b := by
  rw [List.getElem?_append_left (List.getElem?_eq_some_iff.mp h).1]
  exact h

namespace ShmSystem

variable {ι : Type*} [DecidableEq ι] {n : ℕ} {s s' : ShmSystem ι} {i : ι} {pc : ShmPc}

/-! ## The invariant -/

/-- What the point of a call says about the history. -/
def PcOk (s : ShmSystem ι) : ShmPc → Prop
  | .copying k slot object nLen =>
    s.puts[k]? = some ⟨slot, object.take (s.q.copyLength nLen)⟩ ∧ k ∉ s.copies ∧ k ∉ s.posts
  | .posting k => k ∈ s.copies ∧ k ∉ s.posts
  | _ => True

/-- The history of the reservations. -/
structure Numbered (n : ℕ) (s : ShmSystem ι) : Prop where
  slot : ∀ (k : ℕ) (r : ShmPut), s.puts[k]? = some r → r.slot = k % n
  threads : ∀ i, s.PcOk (s.pc i)
  unique : ∀ i j k, (s.pc i).number = some k → (s.pc j).number = some k → i = j
  sized : s.q.Sized
  copies_lt : ∀ k ∈ s.copies, k < s.puts.length
  nodup : s.posts.Nodup
  -- what was posted was copied, with everything before it
  order : ∀ k ∈ s.posts, ∀ j ≤ k, j ∈ s.copies
  -- what was copied and not taken is in its slot
  content : ∀ (k : ℕ) (r : ShmPut), s.gets.length ≤ k → s.puts[k]? = some r → k ∈ s.copies →
    ∃ c, s.q.queueObjects[k % n]? = some c ∧ r.payload <+: c
  -- what was taken was written
  taken : ∀ (k : ℕ) (g : ShmGet), s.gets[k]? = some g →
    ∃ r, s.puts[k]? = some r ∧ g.slot = r.slot ∧ g.written = true ∧ r.payload <+: g.content

namespace Numbered

omit [DecidableEq ι] in
theorem number_lt (h : s.Numbered n) {k : ℕ} (hk : (s.pc i).number = some k) :
    k < s.puts.length := by
  have hok := h.threads i
  cases hpc : s.pc i with
  | copying k' slot object nLen =>
    rw [hpc] at hk hok
    cases hk
    exact (List.getElem?_eq_some_iff.mp hok.1).1
  | posting k' =>
    rw [hpc] at hk hok
    cases hk
    exact h.copies_lt k hok.1
  | _ =>
    rw [hpc] at hk
    cases hk

omit [DecidableEq ι] in
/-- **The number of posts bounds what is copied**: among that many posts one is late enough. -/
theorem mem_copies (h : s.Numbered n) {j : ℕ} (hj : j < s.posts.length) : j ∈ s.copies := by
  by_contra hnot
  have hsub : s.posts ⊆ List.range j := by
    intro k hk
    rw [List.mem_range]
    by_contra hle
    exact hnot (h.order k hk j (Nat.le_of_not_lt hle))
  have hlen := h.nodup.length_le_of_subset hsub
  rw [List.length_range] at hlen
  omega

omit [DecidableEq ι] in
theorem posts_le_puts (h : s.Numbered n) : s.posts.length ≤ s.puts.length := by
  have hsub : s.posts ⊆ List.range s.puts.length := by
    intro k hk
    rw [List.mem_range]
    exact h.copies_lt k (h.order k hk k (Nat.le_refl k))
  have hlen := h.nodup.length_le_of_subset hsub
  rw [List.length_range] at hlen
  exact hlen

/-- A call moves to a point without a reservation, and the history stays. -/
theorem move (h : s.Numbered n) (hnumber : pc.number = none) (hpc : s'.pc = Function.update s.pc i pc)
    (hputs : s'.puts = s.puts) (hcopies : s'.copies = s.copies) (hposts : s'.posts = s.posts)
    (hgets : s'.gets = s.gets) (hobjects : s'.q.queueObjects = s.q.queueObjects)
    (hsize : s'.q.objectSize = s.q.objectSize) : s'.Numbered n := by
  have hok : ∀ point, s.PcOk point → s'.PcOk point := by
    intro point hpoint
    cases point with
    | copying k slot object nLen =>
      rw [PcOk, hputs, hcopies, hposts, ShmQueue.copyLength, hsize]
      exact hpoint
    | posting k =>
      rw [PcOk, hcopies, hposts]
      exact hpoint
    | _ => trivial
  refine ⟨?_, ?_, ?_, ?_, ?_, ?_, ?_, ?_, ?_⟩
  · rw [hputs]
    exact h.slot
  · rw [hpc, Function.forall_update_iff _ fun _ point => s'.PcOk point]
    refine ⟨?_, fun j _ => hok _ (h.threads j)⟩
    cases pc with
    | copying k slot object nLen => cases hnumber
    | posting k => cases hnumber
    | _ => trivial
  · intro j j' k hj hj'
    rw [hpc] at hj hj'
    by_cases hji : j = i
    · rw [hji, Function.update_self, hnumber] at hj
      cases hj
    · by_cases hji' : j' = i
      · rw [hji', Function.update_self, hnumber] at hj'
        cases hj'
      · rw [Function.update_of_ne hji] at hj
        rw [Function.update_of_ne hji'] at hj'
        exact h.unique j j' k hj hj'
  · rw [ShmQueue.Sized, hobjects, hsize]
    exact h.sized
  · rw [hputs, hcopies]
    exact h.copies_lt
  · rw [hposts]
    exact h.nodup
  · rw [hposts, hcopies]
    exact h.order
  · rw [hgets, hputs, hcopies, hobjects]
    exact h.content
  · rw [hgets, hputs]
    exact h.taken

/-- A slot is reserved. -/
theorem reserve (h : s.Numbered n) (hslot : s.q.putSlot = s.puts.length % n) (object : List UInt8)
    (nLen : ℕ) : (s.reserve i object nLen).Numbered n := by
  have hfresh : s.puts.length ∉ s.copies := fun hmem => Nat.lt_irrefl _ (h.copies_lt _ hmem)
  have hunposted : s.puts.length ∉ s.posts := fun hmem =>
    hfresh (h.order _ hmem _ (Nat.le_refl _))
  have hnumber : ∀ j k, ((s.reserve i object nLen).pc j).number = some k →
      (j = i ∧ k = s.puts.length) ∨ (s.pc j).number = some k := by
    intro j k hk
    by_cases hji : j = i
    · left
      subst hji
      rw [reserve_pc, Function.update_self] at hk
      exact ⟨rfl, (Option.some.inj hk).symm⟩
    · right
      rw [reserve_pc, Function.update_of_ne hji] at hk
      exact hk
  refine ⟨?_, ?_, ?_, h.sized, ?_, h.nodup, h.order, ?_, ?_⟩
  · intro k r hr
    rcases getElem?_concat_cases hr with hold | ⟨rfl, rfl⟩
    · exact h.slot k r hold
    · exact hslot
  · apply (Function.forall_update_iff _ fun _ point =>
      (s.reserve i object nLen).PcOk point).mpr
    refine ⟨⟨List.getElem?_concat_length, hfresh, hunposted⟩, ?_⟩
    intro j _
    have hok := h.threads j
    cases hpc : s.pc j with
    | copying k slot object' nLen' =>
      rw [hpc] at hok
      exact ⟨getElem?_concat_of_some hok.1, hok.2⟩
    | posting k =>
      rw [hpc] at hok
      exact hok
    | _ => trivial
  · intro j j' k hj hj'
    rcases hnumber j k hj with ⟨rfl, rfl⟩ | hold
    · rcases hnumber j' _ hj' with ⟨rfl, -⟩ | hold'
      · rfl
      · exact absurd (h.number_lt hold') (Nat.lt_irrefl _)
    · rcases hnumber j' k hj' with ⟨rfl, rfl⟩ | hold'
      · exact absurd (h.number_lt hold) (Nat.lt_irrefl _)
      · exact h.unique j j' k hold hold'
  · intro k hk
    have hlt := h.copies_lt k hk
    show k < (s.puts ++ [_]).length
    rw [List.length_append]
    exact Nat.lt_add_right _ hlt
  · intro k r hk hr hcopied
    rcases getElem?_concat_cases hr with hold | ⟨rfl, -⟩
    · exact h.content k r hk hold hcopied
    · exact absurd hcopied hfresh
  · intro k g hg
    obtain ⟨r, hr, hrest⟩ := h.taken k g hg
    exact ⟨r, getElem?_concat_of_some hr, hrest⟩

omit [DecidableEq ι] in
/-- What is not copied was not taken. -/
theorem gets_le (h : s.Numbered n) (hgets : s.gets.length ≤ s.posts.length) {k : ℕ}
    (hcopies : k ∉ s.copies) : s.gets.length ≤ k := by
  by_contra hnot
  exact hcopies (h.mem_copies (by omega))

omit [DecidableEq ι] in
/-- The slots after a copy that fits: what was copied before stands in other slots. -/
theorem content_copy (h : s.Numbered n) {k slot nLen : ℕ} {object : List UInt8}
    (hput : s.puts[k]? = some ⟨slot, object.take (s.q.copyLength nLen)⟩) (hcopies : k ∉ s.copies)
    (hfits : s.q.copyLength nLen ≤ s.q.objectSize)
    (hwindow : s.puts.length ≤ s.gets.length + n) (hgets : s.gets.length ≤ s.posts.length)
    (hobjects : s.q.queueObjects.length = n) (k' : ℕ) (r : ShmPut) (hk' : s.gets.length ≤ k')
    (hr : s.puts[k']? = some r) (hcopied : k' ∈ s.copies ∨ k' ∈ [k]) :
    ∃ c, (s.q.copy slot object nLen).queueObjects[k' % n]? = some c ∧ r.payload <+: c := by
  have hslot : slot = k % n := h.slot k _ hput
  have hlt : k < s.puts.length := (List.getElem?_eq_some_iff.mp hput).1
  have hlt' : k' < s.puts.length := (List.getElem?_eq_some_iff.mp hr).1
  have hge := h.gets_le hgets hcopies
  rcases hcopied with hold | hnew
  · obtain ⟨c, hc, hprefix⟩ := h.content k' r hk' hr hold
    have hne : k' ≠ k := fun heq => hcopies (heq ▸ hold)
    have hslots : k' % n ≠ slot := by
      intro heq
      rw [hslot] at heq
      exact hne (eq_of_mod_eq heq hk' hge (by omega) (by omega))
    refine ⟨c, ?_, hprefix⟩
    rw [ShmQueue.getElem?_copy_of_ne hfits hslots]
    exact hc
  · obtain rfl := List.mem_singleton.mp hnew
    rw [hput] at hr
    obtain rfl := Option.some.inj hr
    rw [hslot]
    refine ShmQueue.prefix_copy h.sized hfits ?_
    rw [hobjects]
    exact Nat.mod_lt _ (by omega)

/-- An object is copied. -/
theorem copy (h : s.Numbered n) {k slot nLen : ℕ} {object : List UInt8}
    (hpc : s.pc i = .copying k slot object nLen)
    (hfits : s.q.copyLength nLen ≤ s.q.objectSize) (hwindow : s.puts.length ≤ s.gets.length + n)
    (hgets : s.gets.length ≤ s.posts.length) (hobjects : s.q.queueObjects.length = n) :
    (s.copy i k slot object nLen).Numbered n := by
  have hok := h.threads i
  rw [hpc] at hok
  obtain ⟨hput, hcopies, hposts⟩ := hok
  have hlt : k < s.puts.length := (List.getElem?_eq_some_iff.mp hput).1
  have hnumber : ∀ j k', ((s.copy i k slot object nLen).pc j).number = some k' →
      (s.pc j).number = some k' := by
    intro j k' hk'
    by_cases hji : j = i
    · subst hji
      rw [copy_pc, Function.update_self] at hk'
      rw [hpc]
      exact hk'
    · rw [copy_pc, Function.update_of_ne hji] at hk'
      exact hk'
  refine ⟨h.slot, ?_, ?_, h.sized.copy, ?_, h.nodup, ?_, ?_, h.taken⟩
  · apply (Function.forall_update_iff _ fun _ point =>
      (s.copy i k slot object nLen).PcOk point).mpr
    refine ⟨⟨List.mem_append_right _ (List.mem_singleton_self k), hposts⟩, ?_⟩
    intro j hji
    have hokj := h.threads j
    cases hpcj : s.pc j with
    | copying k' slot' object' nLen' =>
      rw [hpcj] at hokj
      refine ⟨hokj.1, ?_, hokj.2.2⟩
      intro hmem
      rcases List.mem_append.mp hmem with hold | hnew
      · exact hokj.2.1 hold
      · have hsame := List.mem_singleton.mp hnew
        exact hji (h.unique j i k (by rw [hpcj, hsame]; rfl) (by rw [hpc]; rfl))
    | posting k' =>
      rw [hpcj] at hokj
      exact ⟨List.mem_append_left _ hokj.1, hokj.2⟩
    | _ => trivial
  · intro j j' k' hj hj'
    exact h.unique j j' k' (hnumber j k' hj) (hnumber j' k' hj')
  · intro k' hk'
    rcases List.mem_append.mp hk' with hold | hnew
    · exact h.copies_lt k' hold
    · rw [List.mem_singleton.mp hnew]
      exact hlt
  · intro k' hk' j hj
    exact List.mem_append_left _ (h.order k' hk' j hj)
  · intro k' r hk' hr hcopied
    exact h.content_copy hput hcopies hfits hwindow hgets hobjects k' r hk' hr
      (List.mem_append.mp hcopied)

/-- `sem_get_` is posted for a reservation, when everything before it was copied. -/
theorem post (h : s.Numbered n) {k : ℕ} (hpc : s.pc i = .posting k)
    (hearlier : ∀ j < k, j ∈ s.copies) : (s.post i k).Numbered n := by
  have hok := h.threads i
  rw [hpc] at hok
  obtain ⟨hcopied, hposts⟩ := hok
  have hother : ∀ j, j ≠ i → (s.pc j).number ≠ some k := by
    intro j hji hk
    exact hji (h.unique j i k hk (by rw [hpc]; rfl))
  have hmoved : (s.move i .idle).Numbered n := h.move rfl rfl rfl rfl rfl rfl rfl rfl
  refine ⟨h.slot, ?_, hmoved.unique, h.sized, h.copies_lt, ?_, ?_, h.content, h.taken⟩
  · apply (Function.forall_update_iff _ fun _ point => (s.post i k).PcOk point).mpr
    refine ⟨trivial, ?_⟩
    intro j hji
    have hokj := h.threads j
    have hne := hother j hji
    cases hpcj : s.pc j with
    | copying k' slot' object' nLen' =>
      rw [hpcj] at hokj hne
      refine ⟨hokj.1, hokj.2.1, ?_⟩
      intro hmem
      rcases List.mem_append.mp hmem with hold | hnew
      · exact hokj.2.2 hold
      · exact hne (by rw [List.mem_singleton.mp hnew]; rfl)
    | posting k' =>
      rw [hpcj] at hokj hne
      refine ⟨hokj.1, ?_⟩
      intro hmem
      rcases List.mem_append.mp hmem with hold | hnew
      · exact hokj.2 hold
      · exact hne (by rw [List.mem_singleton.mp hnew]; rfl)
    | _ => trivial
  · exact h.nodup.append (List.nodup_singleton k) (by simpa using hposts)
  · intro k' hk' j hj
    rcases List.mem_append.mp hk' with hold | hnew
    · exact h.order k' hold j hj
    · rw [List.mem_singleton.mp hnew] at hj
      rcases Nat.lt_or_eq_of_le hj with hlt | rfl
      · exact hearlier j hlt
      · exact hcopied

/-- A slot is taken whose reservation was copied. -/
theorem take (h : s.Numbered n) (hnumber : pc.number = none) (hcopied : s.gets.length ∈ s.copies)
    (hslot : s.q.getSlot = s.gets.length % n) :
    ({ s with q := s.q.take, gets := s.gets ++ [s.taken] }.move i pc).Numbered n := by
  have hmoved : (s.move i pc).Numbered n := h.move hnumber rfl rfl rfl rfl rfl rfl rfl
  refine ⟨h.slot, hmoved.threads, hmoved.unique, h.sized, h.copies_lt, h.nodup, h.order, ?_, ?_⟩
  · intro k r hk hr hk'
    have hle : s.gets.length ≤ k := by
      have hlen : (s.gets ++ [s.taken]).length ≤ k := hk
      rw [List.length_append] at hlen
      exact Nat.le_of_add_right_le hlen
    exact h.content k r hle hr hk'
  · intro k g hg
    rcases getElem?_concat_cases hg with hold | ⟨rfl, rfl⟩
    · exact h.taken k g hold
    · have hlt := h.copies_lt _ hcopied
      obtain ⟨c, hc, hprefix⟩ := h.content _ _ (Nat.le_refl _) (List.getElem?_eq_getElem hlt) hcopied
      refine ⟨_, List.getElem?_eq_getElem hlt, ?_, decide_eq_true hcopied, ?_⟩
      · rw [h.slot _ _ (List.getElem?_eq_getElem hlt)]
        exact hslot
      · show _ <+: s.q.queueObjects.getD s.q.getSlot []
        rw [hslot, List.getD_eq_getElem?_getD, hc, Option.getD_some]
        exact hprefix

end Numbered

/-! ## Tokens -/

section Tokens

variable [Fintype ι]

/-- The semaphores, the indices and the length agree with the history. -/
structure Accounts (n : ℕ) (s : ShmSystem ι) : Prop where
  put : s.q.semPut + tally ShmPc.isReserving s.pc + s.puts.length +
    tally ShmPc.isReleasing s.pc = n + s.gets.length
  get : s.q.semGet + tally ShmPc.isTaking s.pc + s.gets.length = s.posts.length
  length : s.q.curQueueLen = (s.puts.length : ℤ) - s.gets.length
  max : s.q.max = n
  objects : s.q.queueObjects.length = n
  nextPut : s.q.nextPut = s.puts.length % n
  nextGet : s.q.nextGet = s.gets.length % n

/-- **Local conservation**: the counts change with the point of one call only. -/
theorem Accounts.balance (h : s.Accounts n) (s' : ShmSystem ι) (i : ι) (pc : ShmPc)
    (hpc : s'.pc = Function.update s.pc i pc)
    (hput : s'.q.semPut + pc.isReserving.toNat + s'.puts.length + pc.isReleasing.toNat +
        s.gets.length =
      s.q.semPut + (s.pc i).isReserving.toNat + s.puts.length + (s.pc i).isReleasing.toNat +
        s'.gets.length)
    (hget : s'.q.semGet + pc.isTaking.toNat + s'.gets.length + s.posts.length =
      s.q.semGet + (s.pc i).isTaking.toNat + s.gets.length + s'.posts.length) :
    s'.q.semPut + tally ShmPc.isReserving s'.pc + s'.puts.length +
        tally ShmPc.isReleasing s'.pc = n + s'.gets.length ∧
      s'.q.semGet + tally ShmPc.isTaking s'.pc + s'.gets.length = s'.posts.length := by
  have hcount := fun p => tally_update p s.pc i pc
  have hold := h.put
  have hold' := h.get
  have h₁ := hcount ShmPc.isReserving
  have h₂ := hcount ShmPc.isReleasing
  have h₃ := hcount ShmPc.isTaking
  rw [hpc]
  exact ⟨by omega, by omega⟩

/-- The queue and its history. -/
structure Ordered (n : ℕ) (s : ShmSystem ι) : Prop where
  accounts : s.Accounts n
  numbered : s.Numbered n

omit [DecidableEq ι] in
theorem ordered_initial (objectSize n : ℕ) : (initial ι objectSize n).Ordered n := by
  constructor
  · have hnobody : ∀ p : ShmPc → Bool, p .idle = false → tally p (initial ι objectSize n).pc = 0 :=
      fun p hp => tally_const hp
    refine ⟨?_, ?_, rfl, rfl, List.length_replicate, (Nat.zero_mod n).symm, (Nat.zero_mod n).symm⟩
    · rw [hnobody ShmPc.isReserving rfl, hnobody ShmPc.isReleasing rfl]
      rfl
    · rw [hnobody ShmPc.isTaking rfl]
      rfl
  · exact ⟨nofun, fun _ => trivial, nofun, ShmQueue.sized_new objectSize n, nofun, List.nodup_nil,
      nofun, nofun, nofun⟩

/-- **The condition on the posts**: a call posts `sem_get_` only when every earlier reservation was copied. -/
def PostsInOrder (s : ShmSystem ι) : ShmAct ι → Prop
  | .next i =>
    match s.pc i with
    | .posting k => ∀ j < k, j ∈ s.copies
    | _ => True
  | .call _ _ => True

instance (s : ShmSystem ι) (a : ShmAct ι) : Decidable (s.PostsInOrder a) :=
  match a with
  | .next i =>
    match hpc : s.pc i with
    | .posting k => decidable_of_iff (∀ j < k, j ∈ s.copies) (by simp only [PostsInOrder, hpc])
    | .idle | .reserving _ _ | .copying _ _ _ _ | .waiting | .taking _ | .releasing _ _ =>
      isTrue (by simp only [PostsInOrder, hpc])
  | .call _ _ => isTrue trivial

omit [DecidableEq ι] in
/-- What is taken was reserved, and the window of the reservations fits into the ring. -/
theorem Ordered.window (h : s.Ordered n) :
    s.gets.length ≤ s.posts.length ∧ s.posts.length ≤ s.puts.length ∧
      s.puts.length ≤ s.gets.length + n := by
  have hput := h.accounts.put
  have hget := h.accounts.get
  have hposts := h.numbered.posts_le_puts
  exact ⟨by omega, hposts, by omega⟩

/-- A call that changes neither the history nor the indices. -/
theorem Ordered.move (h : s.Ordered n) (hnumber : pc.number = none)
    (hpc : s'.pc = Function.update s.pc i pc) (hputs : s'.puts = s.puts)
    (hcopies : s'.copies = s.copies) (hposts : s'.posts = s.posts) (hgets : s'.gets = s.gets)
    (hq : s'.q = { s.q with semPut := s'.q.semPut, semGet := s'.q.semGet })
    (hput : s'.q.semPut + pc.isReserving.toNat + pc.isReleasing.toNat =
      s.q.semPut + (s.pc i).isReserving.toNat + (s.pc i).isReleasing.toNat)
    (hget : s'.q.semGet + pc.isTaking.toNat = s.q.semGet + (s.pc i).isTaking.toNat) :
    s'.Ordered n := by
  have hobjects : s'.q.queueObjects = s.q.queueObjects := by rw [hq]
  have hsize : s'.q.objectSize = s.q.objectSize := by rw [hq]
  refine ⟨?_, h.numbered.move hnumber hpc hputs hcopies hposts hgets hobjects hsize⟩
  obtain ⟨hput', hget'⟩ := h.accounts.balance s' i pc hpc
    (by rw [hputs, hgets]; omega) (by rw [hgets, hposts]; omega)
  refine ⟨hput', hget', ?_, ?_, ?_, ?_, ?_⟩
  · rw [hq, hputs, hgets]
    exact h.accounts.length
  · rw [hq]
    exact h.accounts.max
  · rw [hobjects]
    exact h.accounts.objects
  · rw [hq, hputs]
    exact h.accounts.nextPut
  · rw [hq, hgets]
    exact h.accounts.nextGet

theorem Ordered.reserve (h : s.Ordered n) {object : List UInt8} {nLen : ℕ}
    (hpc : s.pc i = .reserving object nLen) : (s.reserve i object nLen).Ordered n := by
  have hacc := h.accounts
  obtain ⟨hgets, hposts, hwindow⟩ := h.window
  have hput := hacc.put
  have hone : 0 < tally ShmPc.isReserving s.pc := tally_pos (i := i) (by rw [hpc]; rfl)
  have hn : 0 < s.q.max := by
    rw [hacc.max]
    omega
  have hslot : s.q.putSlot = s.puts.length % n := by
    rw [ShmQueue.putSlot, hacc.nextPut, hacc.max, Nat.mod_mod]
  refine ⟨?_, h.numbered.reserve hslot object nLen⟩
  obtain ⟨hput', hget'⟩ := hacc.balance (s.reserve i object nLen) i _ rfl
    (by simp [hpc, ShmSystem.reserve, ShmSystem.move, ShmQueue.reserve, ShmPc.isReserving,
      ShmPc.isReleasing]; omega)
    (by simp [hpc, ShmSystem.reserve, ShmSystem.move, ShmQueue.reserve, ShmPc.isTaking])
  refine ⟨hput', hget', ?_, hacc.max, hacc.objects, ?_, hacc.nextGet⟩
  · show s.q.curQueueLen + 1 = ((s.puts ++ [_]).length : ℤ) - s.gets.length
    rw [hacc.length, List.length_append, List.length_singleton]
    omega
  · show s.q.advance s.q.nextPut = (s.puts ++ [_]).length % n
    have hadvance := ShmQueue.advance_mod hn s.puts.length
    rw [hacc.max] at hadvance
    rw [hacc.nextPut, hadvance, List.length_append, List.length_singleton]

theorem Ordered.copy (h : s.Ordered n) {k slot nLen : ℕ} {object : List UInt8}
    (hpc : s.pc i = .copying k slot object nLen) (hfits : s.q.copyLength nLen ≤ s.q.objectSize) :
    (s.copy i k slot object nLen).Ordered n := by
  have hacc := h.accounts
  obtain ⟨hgets, hposts, hwindow⟩ := h.window
  refine ⟨?_, h.numbered.copy hpc hfits hwindow hgets hacc.objects⟩
  obtain ⟨hput', hget'⟩ := hacc.balance (s.copy i k slot object nLen) i _ rfl
    (by simp [hpc, ShmSystem.copy, ShmSystem.move, ShmQueue.copy, ShmPc.isReserving,
      ShmPc.isReleasing])
    (by simp [hpc, ShmSystem.copy, ShmSystem.move, ShmQueue.copy, ShmPc.isTaking])
  exact ⟨hput', hget', hacc.length, hacc.max, (ShmQueue.length_copy ..).trans hacc.objects,
    hacc.nextPut, hacc.nextGet⟩

theorem Ordered.post (h : s.Ordered n) {k : ℕ} (hpc : s.pc i = .posting k)
    (hearlier : ∀ j < k, j ∈ s.copies) : (s.post i k).Ordered n := by
  have hacc := h.accounts
  refine ⟨?_, h.numbered.post hpc hearlier⟩
  obtain ⟨hput', hget'⟩ := hacc.balance (s.post i k) i _ rfl
    (by simp [hpc, ShmSystem.post, ShmSystem.finish, ShmSystem.move, ShmPc.isReserving,
      ShmPc.isReleasing])
    (by simp [hpc, ShmSystem.post, ShmSystem.finish, ShmSystem.move, ShmPc.isTaking]; omega)
  exact ⟨hput', hget', hacc.length, hacc.max, hacc.objects, hacc.nextPut, hacc.nextGet⟩

/-- A consumer with a token finds a slot that was written. -/
theorem Ordered.take (h : s.Ordered n) {isGet : Bool} (hpc : s.pc i = .taking isGet) :
    (s.take i isGet).Ordered n := by
  have hacc := h.accounts
  obtain ⟨hgets, hposts, hwindow⟩ := h.window
  have hget := hacc.get
  have hone : 0 < tally ShmPc.isTaking s.pc := tally_pos (i := i) (by rw [hpc]; rfl)
  have hn : 0 < s.q.max := by
    rw [hacc.max]
    omega
  -- the two branches in which nothing is taken are out of reach
  have hnotEmpty : ¬(isGet = true ∧ s.q.curQueueLen = 0) := by
    rw [hacc.length]
    omega
  have hobjects : ¬(isGet = true ∧ s.q.queueObjects = []) := by
    intro ⟨_, hnil⟩
    have hlen := hacc.objects
    rw [hnil, List.length_nil] at hlen
    omega
  have hslot : s.q.getSlot = s.gets.length % n := by
    rw [ShmQueue.getSlot, hacc.nextGet, hacc.max, Nat.mod_mod]
  have hcopied : s.gets.length ∈ s.copies := h.numbered.mem_copies (by omega)
  rw [ShmSystem.take, if_neg hnotEmpty, if_neg hobjects]
  refine ⟨?_, h.numbered.take rfl hcopied hslot⟩
  obtain ⟨hput', hget'⟩ := hacc.balance ({ s with q := s.q.take, gets := s.gets ++ [s.taken] }.move i
      (.releasing isGet s.q.getSlot)) i _ rfl
    (by simp [hpc, ShmSystem.move, ShmQueue.take, ShmPc.isReserving, ShmPc.isReleasing]; omega)
    (by simp [hpc, ShmSystem.move, ShmQueue.take, ShmPc.isTaking]; omega)
  refine ⟨hput', hget', ?_, hacc.max, hacc.objects, hacc.nextPut, ?_⟩
  · show s.q.curQueueLen - 1 = (s.puts.length : ℤ) - (s.gets ++ [_]).length
    rw [hacc.length, List.length_append, List.length_singleton]
    omega
  · show s.q.advance s.q.nextGet = (s.gets ++ [_]).length % n
    have hadvance := ShmQueue.advance_mod hn s.gets.length
    rw [hacc.max] at hadvance
    rw [hacc.nextGet, hadvance, List.length_append, List.length_singleton]

/-- **Each step that meets the condition keeps the order.** -/
theorem ordered_step {a : ShmAct ι} (h : s.Ordered n) (hok : s.PostsInOrder a)
    (hfits : s.CopyFits a) (hstep : Stepped s a s') : s'.Ordered n := by
  cases hstep with
  | refused i op result hpc =>
    exact h.move rfl rfl rfl rfl rfl rfl rfl (by rw [hpc]; rfl) (by rw [hpc]; rfl)
  | acquirePut i object nLen hpc htoken =>
    refine h.move rfl rfl rfl rfl rfl rfl rfl ?_ (by rw [hpc]; rfl)
    show s.q.semPut - 1 + 1 + 0 = _
    rw [hpc]
    show s.q.semPut - 1 + 1 + 0 = s.q.semPut
    omega
  | acquireGet _ i isGet hpc htoken =>
    refine h.move rfl rfl rfl rfl rfl rfl rfl ?_ ?_
    · rcases hpc with hpc | hpc <;> rw [hpc] <;> rfl
    · have hnot : (s.pc i).isTaking = false := by
        rcases hpc with hpc | hpc <;> rw [hpc] <;> rfl
      show s.q.semGet - 1 + 1 = s.q.semGet + (s.pc i).isTaking.toNat
      rw [hnot]
      show s.q.semGet - 1 + 1 = s.q.semGet
      omega
  | reserve i object nLen hpc => exact h.reserve hpc
  | copy i k slot object nLen hpc =>
    simp only [CopyFits, hpc] at hfits
    exact h.copy hpc hfits
  | post i k hpc =>
    simp only [PostsInOrder, hpc] at hok
    exact h.post hpc hok
  | take i isGet hpc => exact h.take hpc
  | release i isGet slot hpc =>
    exact h.move rfl rfl rfl rfl rfl rfl rfl (by rw [hpc]; rfl) (by rw [hpc]; rfl)

/-- The `k`-th slot that was taken is the slot of the `k`-th reservation, and this one had copied
    its payload into it. -/
def Written (s : ShmSystem ι) : Prop :=
  ∀ (k : ℕ) (g : ShmGet), s.gets[k]? = some g →
    ∃ r, s.puts[k]? = some r ∧ g.slot = r.slot ∧ g.written = true ∧ r.payload <+: g.content

/-- **No unwritten slot is handed out** in a run in which no put copies more than its slot holds, and
    `sem_get_` is posted only after every earlier reservation was copied. -/
theorem gets_written (objectSize n : ℕ) {acts : List (ShmAct ι)}
    (hok : (machine ι objectSize n).Along (fun s a => s.PostsInOrder a ∧ s.CopyFits a)
      (initial ι objectSize n) acts)
    (hrun : (machine ι objectSize n).run (initial ι objectSize n) acts = some s) : s.Written := by
  have hordered : s.Ordered n := by
    refine Machine.run_preserves_along (P := Ordered n) ?_ (ordered_initial objectSize n) hok hrun
    intro t a t' ht ⟨hposts, hfits⟩ hstep
    exact ordered_step ht hposts hfits (stepped_of_step hstep)
  exact hordered.numbered.taken

/-- Two producers of which the first one posts first, and a consumer. -/
theorem gets_written_in_order :
    let acts : List (ShmAct (Fin 3)) :=
      [.call 0 (.put [7] 0), .call 1 (.put [8] 0), .next 0, .next 1, .next 0, .next 1, .next 0,
        .call 2 .get, .next 2, .next 2]
    (machine (Fin 3) 1 2).Along (fun s a => s.PostsInOrder a ∧ s.CopyFits a)
        (initial (Fin 3) 1 2) acts ∧
      ∃ s, (machine (Fin 3) 1 2).run (initial (Fin 3) 1 2) acts = some s ∧ s.Written := by
  intro acts
  have hok : (machine (Fin 3) 1 2).Along (fun s a => s.PostsInOrder a ∧ s.CopyFits a)
      (initial (Fin 3) 1 2) acts := by decide
  exact ⟨hok, _, rfl, gets_written 1 2 hok rfl⟩

/-- The second producer posts while the first one has not copied, and the consumer takes the slot of
    the first one. -/
theorem gets_written_counterexample :
    ∃ s, (machine (Fin 3) 1 2).run (initial (Fin 3) 1 2)
      [.call 0 (.put [7] 0), .call 1 (.put [8] 0), .next 0, .next 1, .next 1, .next 1,
        .call 2 .get, .next 2] = some s ∧ ¬s.Written := by
  refine ⟨_, rfl, ?_⟩
  intro h
  obtain ⟨r, -, -, hwritten, -⟩ := h 0 ⟨0, [0], false⟩ rfl
  cases hwritten

end Tokens

end ShmSystem

end Pdk.Queue
