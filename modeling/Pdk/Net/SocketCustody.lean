import Pdk.Foundation.Custody
import Pdk.Foundation.Transition
import Pdk.Net.SocketSetup

/-!
# The descriptors of a process

Any number of sockets of `src/sock.cpp` in one process. Besides the calls of `Net.Socket` that set a
socket up, and `close`, there are the two ways to accept a connection: `TcpSocket::accept()` returns a
new `Socket` for it, and `TcpSocket::accept(lpSockAddr, lpSockAddrLen)` puts its descriptor into
`socket_fd_`, where the one of the listening socket was.

Whatever the system calls return, and in whatever order the calls come, the open descriptors are those
of the sockets, each of one socket, exactly if the latter never succeeds (`custody_iff`).
-/

namespace Pdk.Net

open Foundation
open Pdk.Config

/-- The sockets of a process. Their descriptors are those of `fds`, not of their own. -/
structure SocketProcess (ι : Type*) where
  fds : Descriptors SocketObject
  sock : ι → SocketState

inductive SocketAct (ι : Type*) where
  | setup (i : ι) (call : SetupCall) (c : Calls)
  -- `close()`, also by the destructor
  | close (i : ι)
  -- `accept()`, with the new `Socket` `j` if `::accept` returns a descriptor
  | accept (i j : ι) (peer : SockAddr) (ok : Bool)
  -- `accept(lpSockAddr, lpSockAddrLen)`
  | acceptOnto (i : ι) (peer : SockAddr) (ok : Bool)

namespace SocketProcess

variable {ι : Type*} [DecidableEq ι]

/-- A socket with the descriptors of the process. -/
def view (s : SocketProcess ι) (i : ι) : SocketState :=
  { s.sock i with fds := s.fds }

/-- What a call has left of a socket and of the descriptors. -/
def put (s : SocketProcess ι) (i : ι) (x : SocketState) : SocketProcess ι :=
  ⟨x.fds, Function.update s.sock i x⟩

/-- `::accept(socket_fd_)`: the new descriptor, with the table it is in. There is none unless the
    socket listens. -/
def accepted (s : SocketProcess ι) (i : ι) (peer : SockAddr) (ok : Bool) :
    Option (ℕ × Descriptors SocketObject) :=
  match (s.sock i).socketFd.bind s.fds.lookup with
  | none => none
  | some o =>
    if ok ∧ o.listening then
      some (s.fds.lowestFree, s.fds.alloc { o with listening := false, link := .connected peer })
    else none

/-- `assign_socket(hSocket, AF_INET)`. -/
def assignSocket (s : SocketProcess ι) (i : ι) (hSocket : ℕ) (fds : Descriptors SocketObject) :
    SocketProcess ι :=
  s.put i { s.sock i with fds := fds, socketFd := some hSocket, addrType := .inet }

def step (net : Resolver) (s : SocketProcess ι) : SocketAct ι → Option (SocketProcess ι)
  | .setup i call c => some (s.put i (call.run net c (s.view i)).2)
  | .close i => some (s.put i (s.view i).close)
  | .accept i j peer ok =>
    -- the `Socket` is new
    if (s.sock j).socketFd ≠ none then none
    else
      match s.accepted i peer ok with
      | none => some s
      | some (fd, fds) => some (s.assignSocket j fd fds)
  | .acceptOnto i peer ok =>
    match s.accepted i peer ok with
    | none => some s
    | some (fd, fds) => some (s.put i { s.sock i with fds := fds, socketFd := some fd })

/-- A process without descriptors, with sockets that have not been used. -/
def machine (ι : Type*) [DecidableEq ι] (net : Resolver) : Machine (SocketProcess ι) (SocketAct ι) :=
  ⟨⟨[], fun _ => ⟨[], none, .inet, [], 0, []⟩⟩, step net⟩

/-- The descriptors that the sockets hold. -/
def hold (s : SocketProcess ι) (i : ι) : Option ℕ := (s.sock i).socketFd

/-- The open descriptors are those of the sockets, each of one socket. -/
def InCustody (s : SocketProcess ι) : Prop := Custody s.fds s.hold

/-- `accept(lpSockAddr, lpSockAddrLen)` does not succeed. -/
def KeepsOwn (s : SocketProcess ι) : SocketAct ι → Prop
  | .acceptOnto i peer ok => s.accepted i peer ok = none
  | _ => True

/-! ## Calls -/

variable {net : Resolver} {s s' : SocketProcess ι} {i : ι}

theorem hold_put (s : SocketProcess ι) (i : ι) (x : SocketState) :
    (s.put i x).hold = Function.update s.hold i x.socketFd := by
  funext j
  by_cases hji : j = i
  · subst hji
    simp [hold, put]
  · simp [hold, put, hji]

/-- A call on an invalid socket leaves it with one new descriptor, or with nothing. -/
theorem owns_or_clean (net : Resolver) (call : SetupCall) (c : Calls) {x : SocketState}
    (hx : x.socketFd = none) :
    (∃ o, Owns x.fds (call.run net c x).2 o) ∨ Clean x.fds (call.run net c x).2 := by
  by_cases hc : call.Completes net c
  · obtain ⟨o, ⟨x', hrun, howns⟩, -⟩ := SetupCall.run_completes net hx hc
    rw [hrun]
    exact .inl ⟨o, howns⟩
  · by_cases hu : call.Untruthful net c
    · left
      cases call with
      | openPath pszPath => exact absurd hu id
      | tcpOpen nPort pszAddr => exact absurd hu id
      | udpOpen nPort pszAddr => exact absurd hu id
      | prepareToServer nPort pszAddr =>
        obtain ⟨x', o, hrun, howns⟩ := SocketState.prepareToServer_kept net hx nPort pszAddr hu
        rw [SetupCall.run, hrun]
        exact ⟨o, howns⟩
      | prepareToClient nPort pszAddr bBlock =>
        obtain ⟨hcreates, hpeer, rfl, hprogress, hselect, herror⟩ := hu
        obtain ⟨sAddr, hsAddr⟩ := Option.isSome_iff_exists.mp hpeer
        obtain ⟨o, ⟨x', hrun, howns⟩, -⟩ := SocketState.prepareToClient_done net hx nPort pszAddr true
          hcreates (P := fun _ => True) <| by
            intro x' o howns
            rw [SocketState.connect_eq net hsAddr]
            obtain ⟨o', hdone, -⟩ := SocketState.connectTimed_misled howns _ hprogress hselect herror
            exact ⟨o', hdone, trivial⟩
        rw [SetupCall.run, hrun]
        exact ⟨o, howns⟩
    · obtain ⟨x', hrun, hclean⟩ := SetupCall.run_failed net hx hc hu
      rw [hrun]
      exact .inr hclean

/-- Custody behind a call that has left one new descriptor. -/
theorem InCustody.owns (h : s.InCustody) (hi : s.hold i = none) {x : SocketState} {o : SocketObject}
    (howns : Owns s.fds x o) : (s.put i x).InCustody := by
  obtain ⟨fd, hfd, hlookup, hagree⟩ := howns
  rw [InCustody, hold_put, hfd]
  have hrelease : ∀ f, (if f = fd then none else x.fds.lookup f) = s.fds.lookup f := by
    intro f
    rw [← Descriptors.lookup_release, hagree f]
  refine h.gain hi (by rw [← hrelease fd, if_pos rfl]) fun f => ?_
  by_cases hf : f = fd
  · rw [hf]
    show (x.fds.lookup fd).isSome ↔ _
    rw [hlookup]
    exact ⟨fun _ => .inl rfl, fun _ => rfl⟩
  · rw [← hrelease f, if_neg hf]
    exact ⟨fun hsome => .inr hsome, fun hor => hor.resolve_left hf⟩

/-- Custody behind a call that has left the table as it was. -/
theorem InCustody.agrees (h : s.InCustody) {x : SocketState} (hhold : x.socketFd = s.hold i)
    (hagree : Descriptors.Agree x.fds s.fds) : (s.put i x).InCustody := by
  rw [InCustody, hold_put, hhold, Function.update_eq_self]
  exact h.congr fun f => by rw [put, hagree f]

omit [DecidableEq ι] in
theorem accepted_eq_some {peer : SockAddr} {ok : Bool} {fd : ℕ} {fds : Descriptors SocketObject}
    (h : s.accepted i peer ok = some (fd, fds)) :
    ∃ own o, s.hold i = some own ∧ fd = s.fds.lowestFree ∧ fds = s.fds.alloc o := by
  unfold accepted at h
  split at h
  · cases h
  · rename_i o ho
    obtain ⟨own, hown, -⟩ := Option.bind_eq_some_iff.mp ho
    split at h
    · cases h
      exact ⟨own, _, hown, rfl, rfl⟩
    · cases h

/-- **Step lemma**: a step keeps custody exactly if it does not overwrite a descriptor. -/
theorem InCustody.step_iff (h : s.InCustody) {a : SocketAct ι} (hstep : step net s a = some s') :
    s'.InCustody ↔ s.KeepsOwn a := by
  cases a with
  | setup i call c =>
    cases hstep
    refine ⟨fun _ => trivial, fun _ => ?_⟩
    cases hfd : s.hold i with
    | none =>
      rcases owns_or_clean net call c (x := s.view i) hfd with ⟨o, howns⟩ | hclean
      · exact h.owns hfd howns
      · exact h.agrees (hclean.invalid.trans hfd.symm) hclean.agree
    | some fd =>
      have hvalid : (s.view i).socketFd ≠ none := by
        show s.hold i ≠ none
        rw [hfd]
        exact Option.some_ne_none fd
      obtain ⟨-, hsame, hfds⟩ := SetupCall.run_of_valid net hvalid call c
      refine h.agrees hsame ?_
      rw [hfds]
      exact Descriptors.Agree.refl s.fds
  | close i =>
    cases hstep
    refine ⟨fun _ => trivial, fun _ => ?_⟩
    cases hfd : s.hold i with
    | none =>
      have hclose : (s.view i).close = { s.view i with socketFd := none, path := [] } := by
        have hview : (s.view i).socketFd = none := hfd
        rw [SocketState.close, hview]
      rw [hclose]
      exact h.agrees hfd.symm (Descriptors.Agree.refl s.fds)
    | some fd =>
      have hclose : (s.view i).close =
          { s.view i with fds := s.fds.release fd, socketFd := none, path := [] } := by
        have hview : (s.view i).socketFd = some fd := hfd
        rw [SocketState.close, hview]
        rfl
      rw [hclose, InCustody, hold_put]
      refine h.drop hfd fun f => ?_
      simp only [put, Descriptors.lookup_release]
      by_cases hf : f = fd
      · simp [hf]
      · simp [hf]
  | accept i j peer ok =>
    refine ⟨fun _ => trivial, fun _ => ?_⟩
    simp only [step] at hstep
    split at hstep
    · cases hstep
    · rename_i hnew
      split at hstep
      · cases hstep
        exact h
      · rename_i fd fds haccepted
        cases hstep
        obtain ⟨own, o, -, rfl, rfl⟩ := accepted_eq_some haccepted
        refine h.owns (o := o) (not_not.mp hnew) ⟨s.fds.lowestFree, rfl, ?_, ?_⟩
        · simp only [Descriptors.lookup_alloc, if_true]
        · exact Descriptors.Agree.release_alloc s.fds o
  | acceptOnto i peer ok =>
    simp only [step] at hstep
    split at hstep
    · rename_i hnone
      cases hstep
      exact ⟨fun _ => hnone, fun _ => h⟩
    · rename_i fd fds haccepted
      cases hstep
      obtain ⟨own, o, hown, rfl, rfl⟩ := accepted_eq_some haccepted
      have hopen : (s.fds.lookup own).isSome := (h.held own).mpr ⟨i, hown⟩
      have hne : s.fds.lowestFree ≠ own := by
        rintro rfl
        rw [Descriptors.lookup_lowestFree] at hopen
        cases hopen
      have hlost : ¬InCustody (s.put i { s.sock i with
          fds := s.fds.alloc o, socketFd := some s.fds.lowestFree }) := by
        rw [InCustody, hold_put]
        refine h.not_custody_of_overwritten hown hne ?_
        simp only [put, Descriptors.lookup_alloc, if_neg (Ne.symm hne)]
        exact hopen
      refine ⟨fun hcustody => absurd hcustody hlost, fun hkeeps => ?_⟩
      simp only [KeepsOwn] at hkeeps
      rw [haccepted] at hkeeps
      cases hkeeps

/-- In a run of any calls of the sockets of a process, the open descriptors are throughout those of
    the sockets, each of one socket, if and only if no `accept(lpSockAddr, lpSockAddrLen)` has
    succeeded. -/
theorem custody_iff {acts : List (SocketAct ι)}
    (hrun : (machine ι net).run (machine ι net).init acts = some s) :
    (machine ι net).Throughout InCustody (machine ι net).init acts ↔
      (machine ι net).Along KeepsOwn (machine ι net).init acts := by
  refine Machine.throughout_iff_along (I := InCustody) (fun s h => h) ?_ ?_ ?_ hrun
  · intro s a s' h hok hstep
    exact (h.step_iff hstep).mpr hok
  · intro s a s' h hnot hstep hcustody
    exact hnot ((h.step_iff hstep).mp hcustody)
  · exact Custody.nil

/-- A server that accepts a connection for a socket of its own, and then one in its own place. -/
theorem custody_iff_accepts :
    let net : Resolver := ⟨fun _ => none, fun _ => none⟩
    let c : Calls := ⟨true, true, true, true, true, true, true, .failed, .timeout, none⟩
    let acts : List (SocketAct Bool) :=
      [.setup true (.prepareToServer 80 none) c, .accept true false (.inet 1 1) true,
        .acceptOnto true (.inet 2 2) true, .close true]
    ∃ s, (machine Bool net).run (machine Bool net).init acts = some s ∧
      (s.fds.lookup 0).isSome ∧ s.hold true = none ∧ s.hold false = some 1 ∧
      ¬(machine Bool net).Throughout InCustody (machine Bool net).init acts := by
  intro net c acts
  obtain ⟨s, hrun, hend⟩ := Machine.exists_of_run_any (machine Bool net) (machine Bool net).init acts
    (fun s => (s.fds.lookup 0).isSome ∧ s.hold true = none ∧ s.hold false = some 1) (by decide)
  obtain ⟨hopen, htrue, hfalse⟩ :
      (s.fds.lookup 0).isSome ∧ s.hold true = none ∧ s.hold false = some 1 := by simpa using hend
  refine ⟨s, hrun, hopen, htrue, hfalse, fun hcustody => ?_⟩
  obtain ⟨-, hrest⟩ := (custody_iff hrun).mp hcustody
  obtain ⟨-, hrest⟩ := hrest _ rfl
  obtain ⟨hkeeps, -⟩ := hrest _ rfl
  cases hkeeps

end SocketProcess

end Pdk.Net
