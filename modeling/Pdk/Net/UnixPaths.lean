import Pdk.Foundation.TaggedQueue
import Pdk.Net.UnixSocket

/-!
# Who answers to a path

The socket files are exactly those of the open sockets, each under the path of its socket, as long as
every call is careful (`named_iff_careful`): a socket is not opened again under another path while it
is open, no path is opened that belongs to an open socket or that is too long to be bound, and no
socket is closed that a failed `open` has left with the path of another one. Each of these calls
breaks it at once. As long as it holds, datagrams get where they are sent (`routed_of_careful`).
-/

namespace Pdk.Net

open Foundation
open Pdk.Config

namespace UnixSystem

variable {ι : Type*} [DecidableEq ι] {s s' : UnixSystem ι} {i j : ι} {p path : Str} {k : ℕ}

/-! ## What the calls do -/

@[simp]
theorem sock_set_self (s : UnixSystem ι) (i : ι) (x : UnixSocket) : (s.set i x).sock i = x :=
  Function.update_self ..

theorem sock_set_of_ne (s : UnixSystem ι) (h : j ≠ i) (x : UnixSocket) :
    (s.set i x).sock j = s.sock j :=
  Function.update_of_ne h ..

@[simp]
theorem names_set (s : UnixSystem ι) (i : ι) (x : UnixSocket) : (s.set i x).names = s.names := rfl

@[simp]
theorem queues_set (s : UnixSystem ι) (i : ι) (x : UnixSocket) : (s.set i x).queues = s.queues := rfl

@[simp]
theorem next_set (s : UnixSystem ι) (i : ι) (x : UnixSocket) : (s.set i x).next = s.next := rfl

@[simp]
theorem sent_set (s : UnixSystem ι) (i : ι) (x : UnixSocket) : (s.set i x).sent = s.sent := rfl

/-- What `close` does to the sockets of the kernel. -/
def closedQueues (s : UnixSystem ι) (i : ι) : ℕ → Option (List Datagram) :=
  match (s.sock i).fd with
  | none => s.queues
  | some k => Function.update s.queues k none

/-- What `close` does to the socket files. -/
def closedNames (s : UnixSystem ι) (i : ι) : Str → Option ℕ :=
  if (s.sock i).path = [] then s.names else Function.update s.names (s.sock i).path none

theorem close_eq (s : UnixSystem ι) (i : ι) :
    s.close i = { s with
      names := s.closedNames i
      queues := s.closedQueues i }.set i { s.sock i with fd := none, path := [] } := by
  unfold close closedNames closedQueues
  cases hfd : (s.sock i).fd with
  | none =>
    simp only [unlink]
    split
    · rename_i hpath
      have hself : { s.sock i with fd := none, path := [] } = s.sock i := by rw [← hfd, ← hpath]
      rw [hself]
      simp [set]
    · simp [set, hfd]
  | some k =>
    simp only [unlink, sock_set_self]
    split
    · rename_i hpath
      simp [set, hpath]
    · simp [set]

/-- The socket `i` has been created, with this path in `m_path`. -/
def created (s : UnixSystem ι) (i : ι) (pszPath : Str) : UnixSystem ι :=
  { s with
    next := s.next + 1
    queues := Function.update s.queues s.next (some []) }.set i ⟨some s.next, pszPath, s.sent.length, []⟩

/-- `bind` will succeed. -/
def Bindable (s : UnixSystem ι) (pszPath : Str) (bind : Bool) : Prop :=
  bind = true ∧ Function.update s.names pszPath none (pszPath.take sunPathRoom) = none

/-- What becomes of `open(pszPath)`. -/
inductive Opened (s : UnixSystem ι) (i : ι) (pszPath : Str) (socket bind : Bool) :
    Bool × UnixSystem ι → Prop where
  | refused (h : (s.sock i).fd ≠ none ∨ socket = false) :
    Opened s i pszPath socket bind (false, s.set i { s.sock i with path := pszPath })
  | bound (hfd : (s.sock i).fd = none) (hsocket : socket = true) (hbind : s.Bindable pszPath bind) :
    Opened s i pszPath socket bind (true, { s.created i pszPath with
      names := Function.update (Function.update s.names pszPath none) (pszPath.take sunPathRoom)
        (some s.next) })
  | unbound (hfd : (s.sock i).fd = none) (hsocket : socket = true)
    (hbind : ¬s.Bindable pszPath bind) :
    Opened s i pszPath socket bind (false, { s with
      next := s.next + 1
      names := Function.update s.names pszPath none
      queues := Function.update s.queues s.next none }.set i ⟨none, [], s.sent.length, []⟩)

theorem openPath_spec (s : UnixSystem ι) (i : ι) {pszPath : Str} (hpath : pszPath ≠ [])
    (socket bind : Bool) : Opened s i pszPath socket bind (s.openPath i pszPath socket bind) := by
  by_cases hrefused : (s.sock i).fd ≠ none ∨ socket = false
  · have heq : s.openPath i pszPath socket bind =
        (false, s.set i { s.sock i with path := pszPath }) := by
      rcases hrefused with hfd | hsocket
      · simp [openPath, createSocket, hfd]
      · simp [openPath, createSocket, hsocket]
    rw [heq]
    exact .refused hrefused
  · obtain ⟨hfd, hsocket⟩ := not_or.mp hrefused
    have hfd : (s.sock i).fd = none := not_not.mp hfd
    have hsocket : socket = true := by simpa using hsocket
    have hcreate : (s.set i { s.sock i with path := pszPath }).createSocket i socket =
        (true, s.created i pszPath) := by
      simp [createSocket, hfd, hsocket, created, set]
    by_cases hbind : s.Bindable pszPath bind
    · have hbound : (s.created i pszPath).bindPath i pszPath bind =
          (true, { s.created i pszPath with
            names := Function.update (Function.update s.names pszPath none)
              (pszPath.take sunPathRoom) (some s.next) }) := by
        have hif : bind = true ∧
            ((s.created i pszPath).unlink pszPath).names (pszPath.take sunPathRoom) = none := hbind
        simp only [bindPath]
        rw [if_pos hif]
        simp [created, unlink, set]
      rw [openPath, hcreate]
      simp only [hbound]
      exact .bound hfd hsocket hbind
    · have hunbound : (s.created i pszPath).bindPath i pszPath bind =
          (false, (s.created i pszPath).unlink pszPath) := by
        have hif : ¬(bind = true ∧
            ((s.created i pszPath).unlink pszPath).names (pszPath.take sunPathRoom) = none) := hbind
        simp only [bindPath]
        rw [if_neg hif]
      have hclose : ((s.created i pszPath).unlink pszPath).close i = { s with
          next := s.next + 1
          names := Function.update s.names pszPath none
          queues := Function.update s.queues s.next none }.set i ⟨none, [], s.sent.length, []⟩ := by
        rw [close_eq]
        simp [created, unlink, set, closedNames, closedQueues, hpath]
      rw [openPath, hcreate]
      simp only [hunbound, hclose]
      exact .unbound hfd hsocket hbind

/-- What a step does. -/
inductive Stepped (s : UnixSystem ι) : UnixAct ι → UnixSystem ι → Prop where
  | opened {i : ι} {pszPath : Str} {socket bind : Bool} {r : Bool × UnixSystem ι}
    (hpath : pszPath ≠ []) (h : Opened s i pszPath socket bind r) :
    Stepped s (.openPath i pszPath socket bind) r.2
  | closed (i : ι) :
    Stepped s (.close i) ({ s with
      names := s.closedNames i
      queues := s.closedQueues i }.set i { s.sock i with fd := none, path := [] })
  | sent {lpBuf : Datagram} {lpszHostAddress : Str} {k : ℕ} {queue : List Datagram}
    (hname : s.names (lpszHostAddress.take sunPathRoom) = some k) (hqueue : s.queues k = some queue) :
    Stepped s (.sendTo lpBuf lpszHostAddress true) { s with
      queues := Function.update s.queues k (some (queue ++ [lpBuf]))
      sent := s.sent ++ [(lpszHostAddress.take sunPathRoom, lpBuf)] }
  | notSent (lpBuf : Datagram) (lpszHostAddress : Str) (sendto : Bool) :
    Stepped s (.sendTo lpBuf lpszHostAddress sendto) s
  | received {i : ι} {k : ℕ} {lpBuf : Datagram} {queue : List Datagram}
    (hfd : (s.sock i).fd = some k) (hqueue : s.queues k = some (lpBuf :: queue)) :
    Stepped s (.recvFrom i) ({ s with
      queues := Function.update s.queues k (some queue) }.set i { s.sock i with
        received := (s.sock i).received ++ [lpBuf] })

theorem stepped_of_step {a : UnixAct ι} (h : s.step a = some s') : Stepped s a s' := by
  cases a with
  | openPath i pszPath socket bind =>
    simp only [step] at h
    split at h
    · cases h
    · rename_i hpath
      cases h
      exact .opened hpath (openPath_spec s i hpath socket bind)
  | close i =>
    cases h
    rw [close_eq]
    exact .closed i
  | sendTo lpBuf lpszHostAddress sendto =>
    cases h
    simp only [sendTo]
    split
    · exact .notSent ..
    · rename_i k hname
      split
      · exact .notSent ..
      · rename_i queue hqueue
        cases sendto with
        | false => exact .notSent ..
        | true => exact .sent hname hqueue
  | recvFrom i =>
    simp only [step, recvFrom] at h
    split at h
    · cases h
    · rename_i k hfd
      split at h
      · rename_i lpBuf queue hqueue
        cases h
        exact .received hfd hqueue
      · cases h

/-! ## Names -/

/-- The socket `i` is open, with `path` in `m_path`. -/
def Holds (s : UnixSystem ι) (i : ι) (path : Str) : Prop :=
  (s.sock i).fd.isSome ∧ (s.sock i).path = path

def InUse (s : UnixSystem ι) (path : Str) : Prop := ∃ i, s.Holds i path

instance (s : UnixSystem ι) (i : ι) (path : Str) : Decidable (s.Holds i path) :=
  inferInstanceAs (Decidable (_ ∧ _))

instance [Fintype ι] (s : UnixSystem ι) (path : Str) : Decidable (s.InUse path) :=
  inferInstanceAs (Decidable (∃ _, _))

/-- The names lead to the sockets that are open, each from its own path, and there is no other
    name. -/
def Named (s : UnixSystem ι) : Prop :=
  ∀ path k, s.names path = some k ↔ ∃ i, (s.sock i).fd = some k ∧ (s.sock i).path = path

/-- A call that takes care of the names of others. -/
def Careful (s : UnixSystem ι) : UnixAct ι → Prop
  | .openPath i pszPath socket bind =>
    if (s.sock i).fd ≠ none then pszPath = (s.sock i).path
    else socket = true → ¬s.InUse pszPath ∧
      (bind = true → sunPathRoom < pszPath.length → s.InUse (pszPath.take sunPathRoom))
  | .close i => (s.sock i).path ≠ [] → ∀ j, j ≠ i → ¬s.Holds j (s.sock i).path
  | _ => True

instance [Fintype ι] (s : UnixSystem ι) : ∀ a, Decidable (s.Careful a)
  | .openPath _ _ _ _ => inferInstanceAs (Decidable (ite _ _ _))
  | .close _ => inferInstanceAs (Decidable (_ → _))
  | .sendTo _ _ _ => inferInstanceAs (Decidable True)
  | .recvFrom _ => inferInstanceAs (Decidable True)

/-- What holds whether the calls are careful or not. -/
structure Sound (s : UnixSystem ι) : Prop where
  fresh : ∀ i k, (s.sock i).fd = some k → k < s.next
  distinct : ∀ i j k, (s.sock i).fd = some k → (s.sock j).fd = some k → i = j
  path : ∀ i, (s.sock i).path = [] → (s.sock i).fd = none
  live : ∀ i k, (s.sock i).fd = some k → ∃ queue, s.queues k = some queue

omit [DecidableEq ι] in
theorem Named.inUse_iff (h : s.Named) (path : Str) : s.InUse path ↔ ∃ k, s.names path = some k := by
  constructor
  · rintro ⟨i, hsome, hpath⟩
    obtain ⟨k, hk⟩ := Option.isSome_iff_exists.mp hsome
    exact ⟨k, (h path k).mpr ⟨i, hk, hpath⟩⟩
  · rintro ⟨k, hk⟩
    obtain ⟨i, hfd, hpath⟩ := (h path k).mp hk
    exact ⟨i, by rw [hfd]; rfl, hpath⟩

/-- `Named` looks at what the open sockets have in `m_path`. -/
theorem named_set {x : UnixSocket} (hfd : x.fd = (s.sock i).fd)
    (hpath : (s.sock i).fd ≠ none → x.path = (s.sock i).path) : (s.set i x).Named ↔ s.Named := by
  refine forall_congr' fun q => forall_congr' fun k => ?_
  refine iff_congr Iff.rfl (exists_congr fun j => ?_)
  by_cases hji : j = i
  · rw [hji, sock_set_self, hfd]
    refine and_congr_right fun hk => ?_
    rw [hpath (by rw [hk]; exact Option.some_ne_none k)]
  · rw [sock_set_of_ne _ hji]

/-! ## What holds in every run -/

theorem Sound.init : Sound (machine (ι := ι)).init :=
  ⟨fun _ _ h => (by cases h), fun _ _ _ h => (by cases h), fun _ _ => rfl, fun _ _ h => (by cases h)⟩

theorem Named.init : Named (machine (ι := ι)).init := by
  intro q k
  exact ⟨fun h => (by cases h), fun h => h.elim fun j hj => (by cases hj.1)⟩

/-- What is open stays as it is when the socket `i` is left with no descriptor. -/
theorem Sound.drop (h : s.Sound) (hnext : s.next ≤ s'.next) (hother : ∀ j, j ≠ i → s'.sock j = s.sock j)
    (hself : (s'.sock i).fd = none)
    (hqueues : ∀ j k, j ≠ i → (s.sock j).fd = some k → s'.queues k = s.queues k) : s'.Sound := by
  have hne : ∀ j k, (s'.sock j).fd = some k → j ≠ i ∧ (s.sock j).fd = some k := by
    intro j k hj
    have hji : j ≠ i := by
      intro hji
      rw [hji, hself] at hj
      cases hj
    rw [hother j hji] at hj
    exact ⟨hji, hj⟩
  refine ⟨fun j k hj => ?_, fun j j' k hj hj' => ?_, fun j hpath => ?_, fun j k hj => ?_⟩
  · exact Nat.lt_of_lt_of_le (h.fresh j k (hne j k hj).2) hnext
  · exact h.distinct j j' k (hne j k hj).2 (hne j' k hj').2
  · by_cases hji : j = i
    · rw [hji]
      exact hself
    · rw [hother j hji] at hpath ⊢
      exact h.path j hpath
  · obtain ⟨hji, hfd⟩ := hne j k hj
    rw [hqueues j k hji hfd]
    exact h.live j k hfd

omit [DecidableEq ι] in
/-- A step that leaves the descriptors alone. -/
theorem Sound.keep (h : s.Sound) (hnext : s'.next = s.next) (hfd : ∀ j, (s'.sock j).fd = (s.sock j).fd)
    (hpath : ∀ j, (s'.sock j).path = [] → (s.sock j).path = [])
    (hlive : ∀ k queue, s.queues k = some queue → ∃ queue', s'.queues k = some queue') : s'.Sound := by
  refine ⟨fun j k hj => ?_, fun j j' k hj hj' => ?_, fun j hempty => ?_, fun j k hj => ?_⟩
  · rw [hnext]
    exact h.fresh j k (by rw [← hfd]; exact hj)
  · exact h.distinct j j' k (by rw [← hfd]; exact hj) (by rw [← hfd]; exact hj')
  · rw [hfd]
    exact h.path j (hpath j hempty)
  · obtain ⟨queue, hqueue⟩ := h.live j k (by rw [← hfd]; exact hj)
    exact hlive k queue hqueue

theorem Sound.created (h : s.Sound) {pszPath : Str} (hpath : pszPath ≠ []) :
    (s.created i pszPath).Sound := by
  have hself : (s.created i pszPath).sock i = ⟨some s.next, pszPath, s.sent.length, []⟩ :=
    sock_set_self ..
  have hother : ∀ j, j ≠ i → (s.created i pszPath).sock j = s.sock j :=
    fun j hj => sock_set_of_ne _ hj _
  -- a descriptor is the new one, or one from before
  have hfd : ∀ j k, ((s.created i pszPath).sock j).fd = some k →
      j = i ∧ k = s.next ∨ j ≠ i ∧ (s.sock j).fd = some k ∧ k < s.next := by
    intro j k hj
    by_cases hji : j = i
    · rw [hji, hself] at hj
      exact .inl ⟨hji, (Option.some.inj hj).symm⟩
    · rw [hother j hji] at hj
      exact .inr ⟨hji, hj, h.fresh j k hj⟩
  refine ⟨fun j k hj => ?_, fun j j' k hj hj' => ?_, fun j hempty => ?_, fun j k hj => ?_⟩
  · rcases hfd j k hj with ⟨-, rfl⟩ | ⟨-, -, hlt⟩
    · exact Nat.lt_succ_self s.next
    · exact Nat.lt_succ_of_lt hlt
  · rcases hfd j k hj with ⟨rfl, rfl⟩ | ⟨-, hold, hlt⟩
    · rcases hfd j' _ hj' with ⟨rfl, -⟩ | ⟨-, -, hlt'⟩
      · rfl
      · omega
    · rcases hfd j' k hj' with ⟨-, rfl⟩ | ⟨-, hold', -⟩
      · omega
      · exact h.distinct j j' k hold hold'
  · by_cases hji : j = i
    · rw [hji, hself] at hempty
      exact absurd hempty hpath
    · rw [hother j hji] at hempty ⊢
      exact h.path j hempty
  · rcases hfd j k hj with ⟨-, rfl⟩ | ⟨-, hold, hlt⟩
    · exact ⟨[], Function.update_self ..⟩
    · obtain ⟨queue, hqueue⟩ := h.live j k hold
      refine ⟨queue, ?_⟩
      rw [← hqueue]
      exact Function.update_of_ne (Nat.ne_of_lt hlt) ..

theorem update_isSome {queues : ℕ → Option (List Datagram)} {k : ℕ} {queue : List Datagram} (k' : ℕ)
    (queue' : List Datagram) (h : queues k' = some queue') :
    ∃ queue'', Function.update queues k (some queue) k' = some queue'' := by
  by_cases hk : k' = k
  · rw [hk]
    exact ⟨queue, Function.update_self ..⟩
  · refine ⟨queue', ?_⟩
    rw [← h]
    exact Function.update_of_ne hk ..

omit [DecidableEq ι] in
/-- `close` leaves the sockets alone that others have open. -/
theorem Sound.closedQueues_of_ne (h : s.Sound) (hj : j ≠ i) (hfd : (s.sock j).fd = some k) :
    s.closedQueues i k = s.queues k := by
  unfold closedQueues
  cases hi : (s.sock i).fd with
  | none => rfl
  | some k' =>
    refine Function.update_of_ne ?_ ..
    rintro rfl
    exact hj (h.distinct j i k hfd hi)

/-- **Step lemma.** -/
theorem Sound.step (h : s.Sound) {a : UnixAct ι} (hstep : Stepped s a s') : s'.Sound := by
  cases hstep with
  | @opened i pszPath socket bind r hpath hopened =>
    cases hopened with
    | refused _ =>
      refine h.keep rfl (fun j => ?_) (fun j hempty => ?_) (fun k queue hqueue => ⟨queue, hqueue⟩)
      · by_cases hj : j = i
        · rw [hj, sock_set_self]
        · rw [sock_set_of_ne _ hj]
      · by_cases hj : j = i
        · rw [hj, sock_set_self] at hempty
          exact absurd hempty hpath
        · rw [sock_set_of_ne _ hj] at hempty
          exact hempty
    | bound _ _ _ =>
      exact (h.created hpath).keep rfl (fun _ => rfl) (fun _ hempty => hempty)
        fun k queue hqueue => ⟨queue, hqueue⟩
    | unbound _ _ _ =>
      refine h.drop (i := i) (Nat.le_succ _) (fun j hj => sock_set_of_ne _ hj _) ?_ ?_
      · rw [sock_set_self]
      · exact fun j k _ hj => Function.update_of_ne (Nat.ne_of_lt (h.fresh j k hj)) ..
  | closed i =>
    refine h.drop (i := i) (Nat.le_refl _) (fun j hj => sock_set_of_ne _ hj _) ?_ ?_
    · rw [sock_set_self]
    · exact fun j k hj hfd => h.closedQueues_of_ne hj hfd
  | sent _ _ => exact h.keep rfl (fun _ => rfl) (fun _ hempty => hempty) update_isSome
  | notSent _ _ _ => exact h
  | @received i _ _ _ _ _ =>
    refine h.keep rfl (fun j => ?_) (fun j hempty => ?_) update_isSome
    · by_cases hj : j = i
      · rw [hj, sock_set_self]
      · rw [sock_set_of_ne _ hj]
    · by_cases hj : j = i
      · rw [hj, sock_set_self] at hempty
        rw [hj]
        exact hempty
      · rw [sock_set_of_ne _ hj] at hempty
        exact hempty

/-! ## Careful calls -/

theorem Named.refused_iff (h : s.Named) (hsound : s.Sound) (i : ι) (pszPath : Str) :
    (s.set i { s.sock i with path := pszPath }).Named ↔
      ((s.sock i).fd ≠ none → pszPath = (s.sock i).path) := by
  constructor
  · intro h' hfd
    obtain ⟨k, hk⟩ := Option.ne_none_iff_exists'.mp hfd
    -- the name of the socket still leads to it
    have hname : s.names (s.sock i).path = some k := (h _ k).mpr ⟨i, hk, rfl⟩
    obtain ⟨j, hj, hpath⟩ := (h' _ k).mp hname
    have hji : j = i := by
      by_contra hji
      rw [sock_set_of_ne _ hji] at hj
      exact hji (hsound.distinct j i k hj hk)
    rw [hji, sock_set_self] at hpath
    exact hpath
  · intro hsame
    refine (named_set ?_ ?_).mpr h
    · rfl
    · exact hsame

omit [DecidableEq ι] in
/-- A path is unlinked whose socket the unlinking one is not. -/
theorem Named.unlink_iff (h : s.Named) (i : ι) (path : Str)
    (hnames : s'.names = Function.update s.names path none)
    (hother : ∀ j, j ≠ i → s'.sock j = s.sock j) (hself : (s'.sock i).fd = none)
    (hpath : (s.sock i).fd ≠ none → (s.sock i).path = path) :
    s'.Named ↔ ∀ j, j ≠ i → ¬s.Holds j path := by
  constructor
  · rintro h' j hj ⟨hsome, hpathj⟩
    obtain ⟨k, hk⟩ := Option.isSome_iff_exists.mp hsome
    have hname := (h' path k).mpr ⟨j, by rw [hother j hj]; exact ⟨hk, hpathj⟩⟩
    rw [hnames, Function.update_self] at hname
    cases hname
  · intro hfree q k
    rw [hnames]
    constructor
    · intro hname
      have hq : q ≠ path := by
        rintro rfl
        rw [Function.update_self] at hname
        cases hname
      rw [Function.update_of_ne hq] at hname
      obtain ⟨j, hj, hpathj⟩ := (h q k).mp hname
      have hji : j ≠ i := by
        rintro rfl
        exact hq (hpathj.symm.trans (hpath (by rw [hj]; exact Option.some_ne_none k)))
      exact ⟨j, by rw [hother j hji]; exact ⟨hj, hpathj⟩⟩
    · rintro ⟨j, hj, hpathj⟩
      have hji : j ≠ i := by
        rintro rfl
        rw [hself] at hj
        cases hj
      rw [hother j hji] at hj hpathj
      have hq : q ≠ path := by
        rintro rfl
        exact hfree j hji ⟨by rw [hj]; rfl, hpathj⟩
      rw [Function.update_of_ne hq]
      exact (h q k).mpr ⟨j, hj, hpathj⟩

omit [DecidableEq ι] in
theorem inUse_iff_other (hfd : (s.sock i).fd = none) (path : Str) :
    s.InUse path ↔ ∃ j, j ≠ i ∧ s.Holds j path := by
  constructor
  · rintro ⟨j, hj⟩
    refine ⟨j, ?_, hj⟩
    rintro rfl
    rw [Holds, hfd] at hj
    exact absurd hj.1 (by decide)
  · rintro ⟨j, -, hj⟩
    exact ⟨j, hj⟩

theorem take_ne_of_long (h : sunPathRoom < path.length) : path.take sunPathRoom ≠ path := by
  intro heq
  have hlen := congrArg List.length heq
  rw [List.length_take] at hlen
  omega

omit [DecidableEq ι] in
/-- A cut path that cannot be bound is in use. -/
theorem Named.cut_inUse (h : s.Named) (hlong : sunPathRoom < path.length)
    (hbind : ¬s.Bindable path true) : s.InUse (path.take sunPathRoom) := by
  rw [h.inUse_iff]
  simp only [Bindable, true_and, Function.update_of_ne (take_ne_of_long hlong)] at hbind
  exact Option.ne_none_iff_exists'.mp hbind

theorem Named.bound_iff (h : s.Named) (hsound : s.Sound) {pszPath : Str} {bind : Bool}
    (hfd : (s.sock i).fd = none) (hbind : s.Bindable pszPath bind) :
    Named { s.created i pszPath with
      names := Function.update (Function.update s.names pszPath none) (pszPath.take sunPathRoom)
        (some s.next) } ↔
      ¬s.InUse pszPath ∧
        (bind = true → sunPathRoom < pszPath.length → s.InUse (pszPath.take sunPathRoom)) := by
  have hself : (s.created i pszPath).sock i = ⟨some s.next, pszPath, s.sent.length, []⟩ :=
    sock_set_self ..
  have hother : ∀ j, j ≠ i → (s.created i pszPath).sock j = s.sock j :=
    fun j hj => sock_set_of_ne _ hj _
  have hnew : ∀ j, ((s.created i pszPath).sock j).fd = some s.next → j = i := by
    intro j hj
    by_contra hji
    rw [hother j hji] at hj
    exact Nat.lt_irrefl _ (hsound.fresh j _ hj)
  constructor
  · intro h'
    -- the name that was bound is the path of the socket
    have hname : Function.update (Function.update s.names pszPath none)
        (pszPath.take sunPathRoom) (some s.next) (pszPath.take sunPathRoom) = some s.next :=
      Function.update_self ..
    obtain ⟨j, hj, hpath⟩ := (h' _ _).mp hname
    have hwhole : pszPath = pszPath.take sunPathRoom := by
      have hji := hnew j hj
      rw [hji] at hpath
      exact (congrArg UnixSocket.path hself).symm.trans hpath
    refine ⟨?_, fun _ hlong => absurd hwhole.symm (take_ne_of_long hlong)⟩
    rw [inUse_iff_other hfd]
    rintro ⟨j, hji, hsome, hpathj⟩
    obtain ⟨k, hk⟩ := Option.isSome_iff_exists.mp hsome
    have hstolen : Function.update (Function.update s.names pszPath none)
        (pszPath.take sunPathRoom) (some s.next) pszPath = some k :=
      (h' pszPath k).mpr ⟨j, by rw [hother j hji]; exact ⟨hk, hpathj⟩⟩
    rw [← hwhole, Function.update_self] at hstolen
    have hlt := hsound.fresh j k hk
    cases hstolen
    exact Nat.lt_irrefl _ hlt
  · rintro ⟨hfree, hcut⟩
    have hshort : pszPath.take sunPathRoom = pszPath := by
      by_contra hne
      have hlong : sunPathRoom < pszPath.length := by
        by_contra hle
        exact hne (List.take_of_length_le (Nat.le_of_not_lt hle))
      obtain ⟨k, hk⟩ := (h.inUse_iff _).mp (hcut hbind.1 hlong)
      have hnone := hbind.2
      rw [Function.update_of_ne hne, hk] at hnone
      cases hnone
    intro q k
    simp only [hshort, Function.update_idem]
    by_cases hq : q = pszPath
    · rw [hq, Function.update_self]
      constructor
      · intro hk
        cases hk
        exact ⟨i, by rw [hself]; exact ⟨rfl, rfl⟩⟩
      · rintro ⟨j, hj, hpathj⟩
        by_cases hji : j = i
        · rw [hji, hself] at hj
          exact hj
        · rw [hother j hji] at hj hpathj
          exact absurd ⟨j, by rw [hj]; rfl, hpathj⟩ hfree
    · rw [Function.update_of_ne hq, h q k]
      refine exists_congr fun j => ?_
      by_cases hji : j = i
      · rw [hji, hself, hfd]
        constructor
        · rintro ⟨hnone, -⟩
          cases hnone
        · rintro ⟨-, hpath⟩
          exact absurd hpath.symm hq
      · rw [hother j hji]

/-- **Step lemma**: a step keeps the names right exactly if it is careful. -/
theorem Named.step_iff (h : s.Named) (hsound : s.Sound) {a : UnixAct ι} (hstep : Stepped s a s') :
    s'.Named ↔ s.Careful a := by
  cases hstep with
  | @opened i pszPath socket bind r _ hopened =>
    cases hopened with
    | refused hrefused =>
      rw [h.refused_iff hsound, Careful]
      split
      · rename_i hfd
        exact ⟨fun hsame => hsame hfd, fun hsame _ => hsame⟩
      · rename_i hfd
        have hsocket : socket = false := hrefused.resolve_left hfd
        rw [hsocket]
        exact ⟨fun _ hfalse => (by cases hfalse), fun _ hne => absurd hne hfd⟩
    | bound hfd hsocket hbind =>
      rw [Careful, if_neg (not_not.mpr hfd), h.bound_iff hsound hfd hbind]
      exact ⟨fun hboth _ => hboth, fun himp => himp hsocket⟩
    | unbound hfd hsocket hbind =>
      rw [Careful, if_neg (not_not.mpr hfd)]
      refine (h.unlink_iff i pszPath ?_ ?_ ?_ fun hne => absurd hfd hne).trans ?_
      · rfl
      · exact fun j hj => sock_set_of_ne _ hj _
      · rw [sock_set_self]
      have hfree : (∀ j, j ≠ i → ¬s.Holds j pszPath) ↔ ¬s.InUse pszPath := by
        rw [inUse_iff_other hfd]
        exact ⟨fun hall hex => hex.elim fun j hj => hall j hj.1 hj.2,
          fun hnot j hj hholds => hnot ⟨j, hj, hholds⟩⟩
      rw [hfree]
      refine ⟨fun hnot _ => ⟨hnot, fun hok hlong => ?_⟩, fun himp => (himp hsocket).1⟩
      rw [hok] at hbind
      exact h.cut_inUse hlong hbind
  | closed i =>
    rw [Careful]
    by_cases hpath : (s.sock i).path = []
    · -- a socket without a path has no descriptor either
      have hfd := hsound.path i hpath
      have hnamed : Named { s with names := s.closedNames i, queues := s.closedQueues i } := by
        rw [closedNames, if_pos hpath]
        exact h
      refine ⟨fun _ hne => absurd hpath hne, fun _ => (named_set ?_ ?_).mpr hnamed⟩
      · exact hfd.symm
      · exact fun hne => absurd hfd hne
    · refine (h.unlink_iff i (s.sock i).path ?_ ?_ ?_ fun _ => rfl).trans ?_
      · exact if_neg hpath
      · exact fun j hj => sock_set_of_ne _ hj _
      · rw [sock_set_self]
      · exact ⟨fun hall _ => hall, fun himp => himp hpath⟩
  | sent _ _ => exact ⟨fun _ => trivial, fun _ => h⟩
  | notSent _ _ _ => exact ⟨fun _ => trivial, fun _ => h⟩
  | received _ _ =>
    refine ⟨fun _ => trivial, fun _ => ?_⟩
    refine (named_set ?_ ?_).mpr ?_
    · rfl
    · exact fun _ => rfl
    · exact h

/-- In a run of any calls of any sockets, the socket files are throughout those of the open sockets,
    each under its path, if and only if every call was careful. -/
theorem named_iff_careful {acts : List (UnixAct ι)} (hrun : machine.run machine.init acts = some s) :
    machine.Throughout Named machine.init acts ↔ machine.Along Careful machine.init acts := by
  refine Machine.throughout_iff_along (I := fun s : UnixSystem ι => s.Sound ∧ s.Named) (fun s h => h.2)
    ?_ ?_ ⟨.init, .init⟩ hrun
  · intro s a s' h hok hstep
    have hstepped := stepped_of_step hstep
    exact ⟨h.1.step hstepped, (h.2.step_iff h.1 hstepped).mpr hok⟩
  · intro s a s' h hnot hstep hnamed
    exact hnot ((h.2.step_iff h.1 (stepped_of_step hstep)).mp hnamed)

/-- Two sockets are opened under one path, and the first one is closed. -/
def twice : List (UnixAct Bool) :=
  [.openPath true [47, 97] true true, .openPath false [47, 97] true true, .close true]

/-- The second one is left open without a name. -/
theorem named_iff_careful_twice :
    ∃ s, machine.run machine.init twice = some s ∧ (s.sock false).fd = some 1 ∧
      s.names [47, 97] = none ∧ ¬machine.Throughout Named machine.init twice := by
  obtain ⟨s, hrun, hend⟩ := Machine.exists_of_run_any machine machine.init twice
    (fun s => (s.sock false).fd = some 1 ∧ s.names [47, 97] = none) (by decide)
  obtain ⟨hfd, hname⟩ : (s.sock false).fd = some 1 ∧ s.names [47, 97] = none := by simpa using hend
  refine ⟨s, hrun, hfd, hname, fun h => ?_⟩
  have hcareful := (named_iff_careful hrun).mp h
  exact absurd hcareful (by decide)

/-! ## Datagrams -/

/-- The datagrams that were sent to the path of a socket since it was created. -/
def addressed (s : UnixSystem ι) (i : ι) : List Datagram :=
  TaggedQueue.ofTag (s.sock i).path (s.sent.drop (s.sock i).since)

/-- A socket gets what is sent to its path: it has been received, or it waits. -/
def RoutedTo (s : UnixSystem ι) (i : ι) : Prop :=
  ∀ k, (s.sock i).fd = some k → (s.sock i).since ≤ s.sent.length ∧
    ∃ queue, s.queues k = some queue ∧ s.addressed i = (s.sock i).received ++ queue

omit [DecidableEq ι] in
theorem RoutedTo.congr (h : s.RoutedTo j) (hsock : s'.sock j = s.sock j) (hsent : s'.sent = s.sent)
    (hqueues : ∀ k, (s.sock j).fd = some k → s'.queues k = s.queues k) : s'.RoutedTo j := by
  intro k hk
  rw [hsock] at hk
  rw [addressed, hsock, hsent, hqueues k hk]
  exact h k hk

omit [DecidableEq ι] in
theorem routedTo_of_closed (h : (s.sock i).fd = none) : s.RoutedTo i := by
  intro k hk
  rw [h] at hk
  cases hk

omit [DecidableEq ι] in
/-- A datagram gets to the socket that has its path, and to no other one. -/
theorem RoutedTo.sent (h : s.RoutedTo j) (hnamed : s.Named) (hsound : s.Sound) {lpBuf : Datagram}
    {queue : List Datagram} (hname : s.names path = some k) (hqueue : s.queues k = some queue) :
    RoutedTo { s with
      queues := Function.update s.queues k (some (queue ++ [lpBuf]))
      sent := s.sent ++ [(path, lpBuf)] } j := by
  intro k' hk'
  obtain ⟨hsince, queue', hqueue', heq⟩ := h k' hk'
  refine ⟨?_, ?_⟩
  · rw [List.length_append]
    exact Nat.le_add_right_of_le hsince
  · rw [addressed, List.drop_append_of_le_length hsince, TaggedQueue.ofTag_append]
    by_cases hkk : k' = k
    · -- the name leads to no other socket
      have hpath : (s.sock j).path = path := by
        obtain ⟨i, hi, hpathi⟩ := (hnamed path k).mp hname
        rw [hkk] at hk'
        rw [hsound.distinct j i k hk' hi]
        exact hpathi
      rw [hkk, hqueue] at hqueue'
      cases hqueue'
      refine ⟨queue ++ [lpBuf], ?_, ?_⟩
      · rw [hkk]
        exact Function.update_self ..
      · rw [← List.append_assoc, ← heq, addressed, hpath, TaggedQueue.ofTag_cons_self]
        rfl
    · have hpath : (s.sock j).path ≠ path := by
        intro hpath
        have hname' := (hnamed path k').mpr ⟨j, hk', hpath⟩
        rw [hname] at hname'
        exact hkk (Option.some.inj hname').symm
      refine ⟨queue', ?_, ?_⟩
      · rw [← hqueue']
        exact Function.update_of_ne hkk ..
      · rw [← heq, addressed, TaggedQueue.ofTag_cons_of_ne (Ne.symm hpath), TaggedQueue.ofTag_nil,
          List.append_nil]

/-- **Step lemma.** -/
theorem routed_step (h : ∀ j, s.RoutedTo j) (hnamed : s.Named) (hsound : s.Sound) {a : UnixAct ι}
    (hok : s.Careful a) (hstep : Stepped s a s') : ∀ j, s'.RoutedTo j := by
  intro j
  cases hstep with
  | @opened i pszPath socket bind r _ hopened =>
    cases hopened with
    | refused hrefused =>
      by_cases hfd : (s.sock i).fd = none
      · by_cases hji : j = i
        · rw [hji]
          refine routedTo_of_closed ?_
          rw [sock_set_self]
          exact hfd
        · exact (h j).congr (sock_set_of_ne _ hji _) rfl fun _ _ => rfl
      · -- it is open under this path already
        rw [Careful, if_pos hfd] at hok
        refine (h j).congr ?_ rfl fun _ _ => rfl
        rw [hok]
        by_cases hji : j = i
        · rw [hji, sock_set_self]
        · rw [sock_set_of_ne _ hji]
    | bound _ _ _ =>
      by_cases hji : j = i
      · rw [hji]
        intro k hk
        simp only [created, sock_set_self, Option.some.injEq] at hk
        rw [← hk]
        refine ⟨?_, [], Function.update_self .., ?_⟩
        · simp [created]
        · simp [addressed, created]
      · refine (h j).congr (sock_set_of_ne _ hji _) rfl fun k hk => ?_
        exact Function.update_of_ne (Nat.ne_of_lt (hsound.fresh j k hk)) ..
    | unbound _ _ _ =>
      by_cases hji : j = i
      · rw [hji]
        refine routedTo_of_closed ?_
        rw [sock_set_self]
      · refine (h j).congr (sock_set_of_ne _ hji _) rfl fun k hk => ?_
        exact Function.update_of_ne (Nat.ne_of_lt (hsound.fresh j k hk)) ..
  | closed i =>
    by_cases hji : j = i
    · rw [hji]
      refine routedTo_of_closed ?_
      rw [sock_set_self]
    · exact (h j).congr (sock_set_of_ne _ hji _) rfl fun k hk => hsound.closedQueues_of_ne hji hk
  | sent hname hqueue => exact (h j).sent hnamed hsound hname hqueue
  | notSent _ _ _ => exact h j
  | @received i k lpBuf queue hfd hqueue =>
    by_cases hji : j = i
    · rw [hji]
      intro k' hk'
      rw [sock_set_self] at hk'
      obtain ⟨hsince, queue', hqueue', heq⟩ := h i k' hk'
      rw [hfd] at hk'
      cases hk'
      rw [hqueue] at hqueue'
      cases hqueue'
      refine ⟨by rw [sock_set_self]; exact hsince, queue, Function.update_self .., ?_⟩
      rw [addressed, sock_set_self, List.append_assoc]
      exact heq
    · refine (h j).congr (sock_set_of_ne _ hji _) rfl fun k' hk' => ?_
      refine Function.update_of_ne ?_ ..
      rintro rfl
      exact hji (hsound.distinct j i k' hk' hfd)

/-- Two sockets under different paths: one sends two datagrams to the other, which receives the
    first of them. -/
def exchange : List (UnixAct Bool) :=
  [.openPath true [47, 97] true true, .openPath false [47, 98] true true,
    .sendTo [1] [47, 97] true, .sendTo [2] [47, 97] true, .recvFrom true]

end UnixSystem

end Pdk.Net
