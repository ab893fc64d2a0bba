import Mathlib.Data.List.Perm.Basic
import Pdk.Foundation.Transition

/-!
# The sockets of `IcmpManager`

Model of `start`, `reset_link` and the thread of the managers of `include/icmp.hpp`, and of the monitor
that adds, removes and resets them, as far as `sock_` and `recv_sock_` are concerned. These are
pointers, and null at times: `start` leaves both null if a socket cannot be opened, and `recv_sock_`
if it cannot be bound; `reset_link` leaves `recv_sock_` null. A call through a null pointer has no
result. Threads can be created: that `create()` throws, and `start` with it, is left out, and so are
the calls that do not touch the pointers (`set_delay`, `send_icmp`, `close`).

`start` returns true on a manager on which neither it nor `reset_link` was called before, and never
again (`start_true_iff`). While a manager's thread is in its loop, which goes through both pointers, they are
there exactly if no manager was added whose `recv_sock_` could not be bound, and none was reset at such
a time (`present_iff`).
-/

namespace Pdk.Net

open Foundation

/-- The calls of the system in `start`: `socket` and `setsockopt` for `sock_`, `getprotobyname` and the
    same for `recv_sock_`, and `bind`, unless `pszBind` is null. -/
structure StartCalls where
  raw : Bool
  icmp : Bool
  bind : Option Bool
  deriving DecidableEq, Repr

/-- `sock_` and `recv_sock_`: null, or a `RawSocket` and whether it is open. -/
structure IcmpLink where
  sock : Option Bool
  recvSock : Option Bool
  -- the thread is in the loop of `thread_proc`
  looping : Bool
  deriving DecidableEq, Repr

inductive RawOpened where
  | null | threw | done
  deriving DecidableEq, Repr

/-- `RawSocket::open`. -/
def rawOpen (sock : Option Bool) (ok : Bool) : RawOpened :=
  match sock with
  | none => .null
  -- `create_socket: already created`
  | some true => .threw
  | some false => if ok then .done else .threw

inductive IcmpLinkAct where
  | start (c : StartCalls)
  | resetLink (ok : Bool)
  -- the loop ends
  | finish
  deriving DecidableEq, Repr

namespace IcmpLink

/-- `IcmpManager()`. -/
def new : IcmpLink := ⟨some false, some false, false⟩

/-- The handler of the exceptions in `start`. -/
def failed (m : IcmpLink) : IcmpLink := { m with sock := none, recvSock := none }

/-- `start`, with what it returns. There is no result if a null pointer is used. -/
def start (m : IcmpLink) (c : StartCalls) : Option (Bool × IcmpLink) :=
  match rawOpen m.sock c.raw with
  | .null => none
  | .threw => some (false, m.failed)
  | .done =>
    match rawOpen m.recvSock c.icmp with
    | .null => none
    | .threw => some (false, m.failed)
    | .done =>
      -- the thread is created even if `recv_sock_` could not be bound
      some (true, ⟨some true, if c.bind = some false then none else some true, true⟩)

/-- `reset_link`. If `open` throws, `sock_` is there but not open. -/
def resetLink (m : IcmpLink) (ok : Bool) : IcmpLink :=
  { m with sock := some ok, recvSock := none }

def step (m : IcmpLink) : IcmpLinkAct → Option IcmpLink
  | .start c => (m.start c).map (·.2)
  | .resetLink ok => some (m.resetLink ok)
  | .finish => if m.looping then some { m with looping := false } else none

def machine : Machine IcmpLink IcmpLinkAct := ⟨new, step⟩

/-! ## One start -/

/-- `start` cannot succeed any more: a socket is open already, or one is null. -/
def Used (m : IcmpLink) : Prop := m.sock ≠ some false ∨ m.recvSock = none

variable {m m' : IcmpLink}

/-- The results of `start`. -/
theorem start_cases {c : StartCalls} {r : Bool} (h : m.start c = some (r, m')) :
    (r = false ∧ m' = m.failed) ∨
    (r = true ∧ m.sock = some false ∧ m.recvSock = some false ∧ c.raw = true ∧ c.icmp = true ∧
      m' = ⟨some true, if c.bind = some false then none else some true, true⟩) := by
  have hdone : ∀ {sock ok}, rawOpen sock ok = .done → sock = some false ∧ ok = true := by
    intro sock ok hopen
    unfold rawOpen at hopen
    split at hopen
    · cases hopen
    · cases hopen
    · split at hopen
      · exact ⟨rfl, ‹_›⟩
      · cases hopen
  unfold start at h
  split at h
  · cases h
  · cases h
    exact .inl ⟨rfl, rfl⟩
  · rename_i hsock
    split at h
    · cases h
    · cases h
      exact .inl ⟨rfl, rfl⟩
    · rename_i hrecv
      cases h
      exact .inr ⟨rfl, (hdone hsock).1, (hdone hrecv).1, (hdone hsock).2, (hdone hrecv).2, rfl⟩

theorem used_of_start {c : StartCalls} {r : Bool} (h : m.start c = some (r, m')) : m'.Used := by
  rcases start_cases h with ⟨-, rfl⟩ | ⟨-, -, -, -, -, rfl⟩
  · exact .inr rfl
  · left
    simp

/-- **Step lemma**: every call on a new manager uses it up, and it stays so. -/
theorem used_of_step {a : IcmpLinkAct} (h : m = new ∨ m.Used) (hstep : step m a = some m') :
    m'.Used := by
  cases a with
  | start c =>
    obtain ⟨⟨r, m''⟩, hstart, rfl⟩ := Option.map_eq_some_iff.mp hstep
    exact used_of_start hstart
  | resetLink ok =>
    cases hstep
    exact .inr rfl
  | finish =>
    simp only [step] at hstep
    split at hstep
    · rename_i hlooping
      cases hstep
      rcases h with rfl | h
      · cases hlooping
      · exact h
    · cases hstep

/-- **Run lemma**: a manager is new only before the first call. -/
theorem new_or_used {acts : List IcmpLinkAct} (hrun : machine.run machine.init acts = some m) :
    (acts = [] ∧ m = new) ∨ (acts ≠ [] ∧ m.Used) := by
  refine Machine.run_history (P := fun acts m => (acts = [] ∧ m = new) ∨ (acts ≠ [] ∧ m.Used))
    (.inl ⟨rfl, rfl⟩) ?_ hrun
  intro acts m a m' h hstep
  refine .inr ⟨by simp, used_of_step ?_ hstep⟩
  exact h.imp And.right And.right

/-- `start` returns true exactly if there was no `start` and no `reset_link` on the manager before and
    both sockets can be opened. -/
theorem start_true_iff {acts : List IcmpLinkAct} (hrun : machine.run machine.init acts = some m)
    (c : StartCalls) :
    (∃ m', m.start c = some (true, m')) ↔ acts = [] ∧ c.raw = true ∧ c.icmp = true := by
  constructor
  · rintro ⟨m', hstart⟩
    obtain ⟨hr, -⟩ | ⟨-, hsock, hrecv, hraw, hicmp, -⟩ := start_cases hstart
    · cases hr
    · rcases new_or_used hrun with ⟨hnil, -⟩ | ⟨-, hused⟩
      · exact ⟨hnil, hraw, hicmp⟩
      · rcases hused with hne | hnull
        · exact absurd hsock hne
        · rw [hrecv] at hnull
          cases hnull
  · rintro ⟨rfl, hraw, hicmp⟩
    cases hrun
    refine ⟨⟨some true, if c.bind = some false then none else some true, true⟩, ?_⟩
    simp [machine, new, start, rawOpen, hraw, hicmp]

/-- A manager whose thread has ended is not started again, and not after that either. -/
theorem start_true_iff_again :
    let c : StartCalls := ⟨true, true, none⟩
    ∃ m m', machine.run machine.init [.start c, .finish] = some m ∧
      ¬(∃ m', m.start c = some (true, m')) ∧ m.start c = some (false, m') ∧ m'.start c = none := by
  intro c
  have hrun : machine.run machine.init [.start c, .finish] = some ⟨some true, some true, false⟩ := rfl
  refine ⟨_, ⟨none, none, false⟩, hrun, ?_, rfl, rfl⟩
  rw [start_true_iff hrun c]
  exact fun h => absurd h.1 (List.cons_ne_nil _ _)

/-- The pointers that the loop of the thread goes through are there. -/
def Present (m : IcmpLink) : Prop :=
  m.looping = true → m.sock ≠ none ∧ m.recvSock ≠ none

/-- A new manager behind `start`. -/
def started (c : StartCalls) : IcmpLink :=
  if c.raw ∧ c.icmp then ⟨some true, if c.bind = some false then none else some true, true⟩
  else new.failed

theorem start_new (c : StartCalls) :
    new.start c = some (decide (c.raw ∧ c.icmp), started c) := by
  obtain ⟨raw, icmp, bind⟩ := c
  cases raw <;> cases icmp <;> rfl

theorem present_started_iff (c : StartCalls) :
    (started c).Present ↔ ¬(c.raw = true ∧ c.icmp = true ∧ c.bind = some false) := by
  unfold started
  split
  · rename_i hopen
    by_cases hbind : c.bind = some false
    · simp [Present, hbind, hopen]
    · simp [Present, hbind]
  · rename_i hnot
    refine iff_of_true (fun h => (by cases h)) fun h => hnot ⟨h.1, h.2.1⟩

theorem present_resetLink_iff (m : IcmpLink) (ok : Bool) :
    (m.resetLink ok).Present ↔ m.looping = false := by
  simp [Present, resetLink]

end IcmpLink

/-! ## The monitor -/

/-- `managers_`. -/
structure IcmpManagers (κ : Type*) where
  managers : List (κ × IcmpLink)

inductive IcmpMonitorAct (κ : Type*) where
  | addManager (pszAddr : κ) (c : StartCalls)
  | removeManager (pszAddr : κ)
  -- `reset_managers()`: the order in which the loop meets the managers, which is that of an
  -- `unordered_map`, and for which of them a socket can be opened
  | resetManagers (order : List κ) (ok : κ → Bool)
  -- the thread of a manager leaves its loop
  | finish (pszAddr : κ)

namespace IcmpManagers

variable {κ : Type*} [DecidableEq κ]

/-- The managers that the loop of `reset_managers` comes to: it ends with the first `reset_link` that
    throws. -/
def reached (ok : κ → Bool) : List κ → List κ
  | [] => []
  | key :: rest => key :: if ok key then reached ok rest else []

def step (s : IcmpManagers κ) : IcmpMonitorAct κ → Option (IcmpManagers κ)
  | .addManager pszAddr c =>
    -- the manager that had this address before is closed and deleted
    (IcmpLink.new.start c).map fun started =>
      ⟨(pszAddr, started.2) :: s.managers.filter (·.1 ≠ pszAddr)⟩
  | .removeManager pszAddr => some ⟨s.managers.filter (·.1 ≠ pszAddr)⟩
  | .resetManagers order ok =>
    if order.Perm (s.managers.map Prod.fst) then
      some ⟨s.managers.map fun p =>
        if p.1 ∈ reached ok order then (p.1, p.2.resetLink (ok p.1)) else p⟩
    else none
  | .finish pszAddr =>
    some ⟨s.managers.map fun p => if p.1 = pszAddr then (p.1, { p.2 with looping := false }) else p⟩

def machine (κ : Type*) [DecidableEq κ] : Machine (IcmpManagers κ) (IcmpMonitorAct κ) :=
  ⟨⟨[]⟩, step⟩

/-- Every thread that is in its loop has the sockets it uses. -/
def AllPresent (s : IcmpManagers κ) : Prop :=
  ∀ p ∈ s.managers, p.2.Present

/-- No manager is added whose socket cannot be bound, and none is reset whose thread is in its loop. -/
def Careful (s : IcmpManagers κ) : IcmpMonitorAct κ → Prop
  | .addManager _ c => ¬(c.raw = true ∧ c.icmp = true ∧ c.bind = some false)
  | .resetManagers order ok => ∀ p ∈ s.managers, p.1 ∈ reached ok order → p.2.looping = false
  | _ => True

theorem present_resetLinks_iff (ok : κ → Bool) (keys : List κ) {managers : List (κ × IcmpLink)}
    (h : ∀ p ∈ managers, p.2.Present) :
    (∀ q ∈ managers.map fun p => if p.1 ∈ keys then (p.1, p.2.resetLink (ok p.1)) else p,
        q.2.Present) ↔ ∀ p ∈ managers, p.1 ∈ keys → p.2.looping = false := by
  rw [List.forall_mem_map]
  refine forall₂_congr fun p hp => ?_
  split
  · rename_i hkey
    rw [p.2.present_resetLink_iff]
    exact ⟨fun hout _ => hout, fun hout => hout hkey⟩
  · rename_i hkey
    exact iff_of_true (h p hp) fun hmem => absurd hmem hkey

variable {s s' : IcmpManagers κ}

/-- **Step lemma**. -/
theorem AllPresent.step_iff (h : s.AllPresent) {a : IcmpMonitorAct κ} (hstep : step s a = some s') :
    s'.AllPresent ↔ s.Careful a := by
  have hfilter : ∀ pszAddr, ∀ p ∈ s.managers.filter (·.1 ≠ pszAddr), p.2.Present :=
    fun _ p hp => h p (List.mem_filter.mp hp).1
  cases a with
  | addManager pszAddr c =>
    rw [step, IcmpLink.start_new] at hstep
    cases hstep
    rw [AllPresent, List.forall_mem_cons, IcmpLink.present_started_iff]
    exact and_iff_left (hfilter pszAddr)
  | removeManager pszAddr =>
    cases hstep
    exact iff_of_true (hfilter pszAddr) trivial
  | resetManagers order ok =>
    simp only [step] at hstep
    split at hstep
    · cases hstep
      exact present_resetLinks_iff ok (reached ok order) h
    · cases hstep
  | finish pszAddr =>
    cases hstep
    refine iff_of_true ?_ trivial
    intro p hp
    obtain ⟨q, hq, rfl⟩ := List.mem_map.mp hp
    split
    · intro hlooping
      cases hlooping
    · exact h q hq

/-- In every run of the monitor, the threads of the managers have the sockets they use throughout, if
    and only if no manager was added whose socket could not be bound, and none was reset while its
    thread was in its loop. -/
theorem present_iff {acts : List (IcmpMonitorAct κ)}
    (hrun : (machine κ).run (machine κ).init acts = some s) :
    (machine κ).Throughout AllPresent (machine κ).init acts ↔
      (machine κ).Along Careful (machine κ).init acts := by
  refine Machine.throughout_iff_along (I := AllPresent) (fun s h => h) ?_ ?_ ?_ hrun
  · intro s a s' h hok hstep
    exact (h.step_iff hstep).mpr hok
  · intro s a s' h hnot hstep hpresent
    exact hnot ((h.step_iff hstep).mp hpresent)
  · intro p hp
    cases hp

/-- Two managers, of which one has ended, are reset. -/
theorem present_iff_reset :
    let acts : List (IcmpMonitorAct Bool) :=
      [.addManager true ⟨true, true, some true⟩, .addManager false ⟨true, true, none⟩, .finish true,
        .resetManagers [true, false] fun _ => true]
    ∃ s, (machine Bool).run (machine Bool).init acts = some s ∧
      ¬(machine Bool).Throughout AllPresent (machine Bool).init acts := by
  intro acts
  refine ⟨_, rfl, fun hpresent => ?_⟩
  obtain ⟨-, h⟩ := (present_iff rfl).mp hpresent
  obtain ⟨-, h⟩ := h _ rfl
  obtain ⟨-, h⟩ := h _ rfl
  obtain ⟨hcareful, -⟩ := h _ rfl
  have hlooping := hcareful (false, ⟨some true, some true, true⟩) (by decide) (by decide)
  cases hlooping

end IcmpManagers

end Pdk.Net
