import Mathlib.Data.List.TakeDrop
import Pdk.Net.Socket

/-!
# Setting up a socket

Five calls set up a socket. They share `create_socket`, `bind` and `close`, but each of them cleans up
by itself. Two are not truthful for all outcomes of the system calls (`setup_truthful_iff`):
`prepare_to_server` keeps the descriptor when `listen` fails, so that no attempt after it can succeed
(`attempts_stuck`), and the connect with a timeout looks into the sets of a `select` that has failed.
-/

namespace Pdk.Net

open Foundation
open Pdk.Config

/-! ## Truthful results -/

/-- Nothing is left of a call: the socket is invalid, and the descriptors are those of `t`. -/
structure Clean (t : Descriptors SocketObject) (s : SocketState) : Prop where
  invalid : s.socketFd = none
  agree : Descriptors.Agree s.fds t

/-- The result of a call that was made over the descriptors `t`: after `true` the socket has an open
    descriptor that is as wanted, and after `false` nothing is left. -/
structure Truthful (wanted : SocketObject → Prop) (t : Descriptors SocketObject)
    (result : Bool × SocketState) : Prop where
  of_true : result.1 = true → ∃ fd o, result.2.socketFd = some fd ∧
    Descriptors.lookup result.2.fds fd = some o ∧ wanted o
  of_false : result.1 = false → Clean t result.2

/-- The address that is asked for in a bind; no value where the text denotes none. -/
def Resolver.bindAddr (net : Resolver) : Option Str → Option ℕ
  | none => some inaddrAny
  | some addr => net.dotted addr

/-- The address that is asked for in a connect. -/
def Resolver.peerAddr (net : Resolver) (pszAddr : Option Str) : Option ℕ :=
  pszAddr.bind net.hostAddr

/-- Whether `create_socket` succeeds. -/
def Calls.creates (c : Calls) : AddrFormat → Bool
  | .unix => c.socket
  | .inet => c.socket && c.reuseAddr

/-- Whether `select` has reported the descriptor. -/
def SelectResult.isReady : SelectResult → Bool
  | .ready .. => true
  | _ => false

namespace SetupCall

/-- What is asked for: a bound, a connected or a listening socket. -/
def Wanted : SetupCall → SocketObject → Prop
  | .openPath _, o => o.bound ≠ none
  | .tcpOpen .., o => o.bound ≠ none
  | .udpOpen .., o => o.bound ≠ none
  | .prepareToClient .., o => ∃ peer, o.link = .connected peer
  | .prepareToServer .., o => o.bound ≠ none ∧ o.listening = true

/-- Bound to the port and the address that are asked for. -/
def BoundAt (net : Resolver) (nPort : ℕ) (pszAddr : Option Str) (o : SocketObject) : Prop :=
  ∃ sAddr, net.bindAddr pszAddr = some sAddr ∧ o.bound = some (.inet nPort sAddr)

/-- What is asked for, with its address. -/
def WantedAt (net : Resolver) : SetupCall → SocketObject → Prop
  | .openPath pszPath, o => o.bound = some (.unix pszPath)
  | .tcpOpen nPort pszAddr, o => BoundAt net nPort pszAddr o
  | .udpOpen nPort pszAddr, o => BoundAt net nPort pszAddr o
  | .prepareToClient nPort pszAddr _, o =>
    ∃ sAddr, net.peerAddr pszAddr = some sAddr ∧ o.link = .connected (.inet nPort sAddr)
  | .prepareToServer nPort pszAddr, o => BoundAt net nPort pszAddr o ∧ o.listening = true

/-- All calls up to the last one succeed; a connect with a timeout may be reported by `select`. -/
def Completes (net : Resolver) (c : Calls) : SetupCall → Prop
  | .openPath _ => c.creates .unix = true ∧ c.bind = true
  | .tcpOpen .. => c.creates .inet = true ∧ c.bind = true
  | .udpOpen .. => c.creates .inet = true ∧ c.bind = true
  | .prepareToClient _ pszAddr bBlock =>
    c.creates .inet = true ∧ (net.peerAddr pszAddr).isSome ∧
      (c.connect = .ok ∨ bBlock = true ∧ c.connect = .inProgress ∧ c.select.isReady = true ∧
        c.soError = some 0)
  | .prepareToServer .. => (c.creates .inet = true ∧ c.bind = true) ∧ c.listen = true

/-- `listen` fails on a bound socket, or `select` fails on a connection in progress on which there
    is no error so far. -/
def Untruthful (net : Resolver) (c : Calls) : SetupCall → Prop
  | .prepareToClient _ pszAddr bBlock =>
    c.creates .inet = true ∧ (net.peerAddr pszAddr).isSome ∧ bBlock = true ∧
      c.connect = .inProgress ∧ c.select = .failed ∧ c.soError = some 0
  | .prepareToServer .. => (c.creates .inet = true ∧ c.bind = true) ∧ c.listen = false
  | _ => False

/-- The address fits into a `sockaddr`: the path is not cut, the port has 16 bits, and the text to
    bind to denotes an address. -/
def Fits (net : Resolver) : SetupCall → Prop
  | .openPath pszPath => pszPath.length ≤ sunPathRoom
  | .tcpOpen nPort pszAddr => nPort < 65536 ∧ (net.bindAddr pszAddr).isSome
  | .udpOpen nPort pszAddr => nPort < 65536 ∧ (net.bindAddr pszAddr).isSome
  | .prepareToClient nPort _ _ => nPort < 65536
  | .prepareToServer nPort pszAddr => nPort < 65536 ∧ (net.bindAddr pszAddr).isSome

end SetupCall

/-! ## One descriptor more -/

/-- The socket has one descriptor more than `t`, with `o` behind it. -/
def Owns (t : Descriptors SocketObject) (s : SocketState) (o : SocketObject) : Prop :=
  ∃ fd, s.socketFd = some fd ∧ Descriptors.lookup s.fds fd = some o ∧
    Descriptors.Agree (s.fds.release fd) t

/-- `true`, with the object `o` set up. -/
def Done (t : Descriptors SocketObject) (result : Bool × SocketState) (o : SocketObject) : Prop :=
  ∃ s, result = (true, s) ∧ Owns t s o

/-- `false`, with nothing left after a `close`. -/
def Closable (t : Descriptors SocketObject) (result : Bool × SocketState) : Prop :=
  ∃ s, result = (false, s) ∧ Clean t s.close

/-- `false`, with nothing left. -/
def Failed (t : Descriptors SocketObject) (result : Bool × SocketState) : Prop :=
  ∃ s, result = (false, s) ∧ Clean t s

section Results

variable {t : Descriptors SocketObject} {s : SocketState} {o : SocketObject}
  {result : Bool × SocketState} {wanted : SocketObject → Prop}

theorem Owns.onFd (h : Owns t s o) (f : SocketObject → SocketObject) : Owns t (s.onFd f) (f o) := by
  obtain ⟨fd, hfd, hlookup, hagree⟩ := h
  refine ⟨fd, ?_, ?_, ?_⟩
  · rw [SocketState.onFd, hfd]
  · rw [SocketState.onFd, hfd]
    dsimp only
    rw [Descriptors.lookup_modify, if_pos rfl, hlookup]
    rfl
  · rw [SocketState.onFd, hfd]
    exact (Descriptors.Agree.release_modify s.fds fd f).trans hagree

theorem Owns.close (h : Owns t s o) : Clean t s.close := by
  obtain ⟨fd, hfd, -, hagree⟩ := h
  refine ⟨?_, ?_⟩
  · rw [SocketState.close, hfd]
  · rw [SocketState.close, hfd]
    exact hagree

theorem Clean.close (h : Clean t s) : Clean t s.close := by
  obtain ⟨hinvalid, hagree⟩ := h
  rw [SocketState.close, hinvalid]
  exact ⟨rfl, hagree⟩

theorem Owns.setFlags (h : Owns t s o) (ok nonBlocking : Bool) :
    ∃ b, Owns t (s.setFlags ok nonBlocking) { o with nonBlocking := b } := by
  cases ok with
  | false => exact ⟨o.nonBlocking, h⟩
  | true => exact ⟨nonBlocking, h.onFd _⟩

theorem Done.truthful_iff_wanted (h : Done t result o) : Truthful wanted t result ↔ wanted o := by
  obtain ⟨s, rfl, fd, hfd, hlookup, -⟩ := h
  constructor
  · intro htruthful
    obtain ⟨fd', o', hfd', hlookup', hwanted⟩ := htruthful.of_true rfl
    rw [hfd] at hfd'
    cases hfd'
    rw [hlookup] at hlookup'
    cases hlookup'
    exact hwanted
  · intro hwanted
    exact ⟨fun _ => ⟨fd, o, hfd, hlookup, hwanted⟩, fun hfalse => (by cases hfalse)⟩

theorem Failed.truthful (h : Failed t result) : Truthful wanted t result := by
  obtain ⟨s, rfl, hclean⟩ := h
  exact ⟨fun htrue => (by cases htrue), fun _ => hclean⟩

/-- A descriptor that is kept after `false`. -/
theorem Owns.not_truthful (h : Owns t s o) : ¬Truthful wanted t (false, s) := by
  obtain ⟨fd, hfd, -, -⟩ := h
  intro htruthful
  have hinvalid := (htruthful.of_false rfl).invalid
  rw [hfd] at hinvalid
  cases hinvalid

/-- Truth about an object with its address is truth about the object. -/
theorem Truthful.mono {wanted' : SocketObject → Prop} (h : Truthful wanted t result)
    (hwanted : ∀ o, wanted o → wanted' o) : Truthful wanted' t result := by
  refine ⟨fun htrue => ?_, h.of_false⟩
  obtain ⟨fd, o, hfd, hlookup, ho⟩ := h.of_true htrue
  exact ⟨fd, o, hfd, hlookup, hwanted o ho⟩

end Results

/-! ## The calls one by one -/

namespace SocketState

variable (net : Resolver) {c : Calls} {s : SocketState} {t : Descriptors SocketObject}
  {o : SocketObject}

/-- An object that has just been created. -/
def newObject (format : AddrFormat) (type : SocketType) : SocketObject :=
  ⟨format, type, none, false, false, .idle⟩

theorem createSocket_done (hs : s.socketFd = none) {format : AddrFormat} (type : SocketType)
    (h : c.creates format = true) :
    Done s.fds (s.createSocket c format type) (newObject format type) := by
  have hsocket : c.socket = true := by
    cases format <;> simp_all [Calls.creates]
  have hreuse : ¬(format = .inet ∧ c.reuseAddr = false) := by
    rintro ⟨rfl, hreuse⟩
    simp [Calls.creates, hreuse] at h
  refine ⟨_, by rw [createSocket, if_neg (by simp [hs]), if_neg (by simp [hsocket]), if_neg hreuse],
    Descriptors.lowestFree s.fds, rfl, ?_, Descriptors.Agree.release_alloc _ _⟩
  rw [Descriptors.lookup_alloc, if_pos rfl]
  rfl

theorem createSocket_failed (hs : s.socketFd = none) {format : AddrFormat} (type : SocketType)
    (h : c.creates format = false) : Failed s.fds (s.createSocket c format type) := by
  rw [createSocket, if_neg (by simp [hs])]
  by_cases hsocket : c.socket = false
  · rw [if_pos hsocket]
    exact ⟨_, rfl, hs, Descriptors.Agree.refl _⟩
  · have hreuse : format = .inet ∧ c.reuseAddr = false := by
      cases format <;> simp_all [Calls.creates]
    rw [if_neg hsocket, if_pos hreuse]
    exact ⟨_, rfl, rfl, Descriptors.Agree.release_alloc _ _⟩

/-- The address that `Socket::bind` gives to the system. -/
def boundAddr (net : Resolver) : Option Str → ℕ
  | none => inaddrAny
  | some addr => net.inetAddr addr

/-- The test for `INADDR_NONE` does not succeed. -/
theorem bindPort_eq (nPort : ℕ) (pszAddr : Option Str) :
    s.bindPort net c nPort pszAddr =
      s.bindTo c (.inet (sinPort nPort) (boundAddr net pszAddr)) := by
  cases pszAddr with
  | none => rfl
  | some addr =>
    have hlong : (net.inetAddr addr : ℤ) ≠ -1 := by omega
    rw [bindPort, if_neg hlong]
    rfl

theorem bindTo_done (h : Owns t s o) (hbind : c.bind = true) (addr : SockAddr) :
    Done t (s.bindTo c addr) { o with bound := some addr } := by
  rw [bindTo, if_pos hbind]
  exact ⟨_, rfl, h.onFd _⟩

theorem bindTo_failed (hbind : c.bind = false) (addr : SockAddr) :
    s.bindTo c addr = (false, s) := by
  rw [bindTo, if_neg (by simp [hbind])]

/-! ### Opening -/

theorem openPath_done (hs : s.socketFd = none) (pszPath : Str)
    (h : c.creates .unix = true ∧ c.bind = true) :
    Done s.fds (s.openPath c pszPath)
      { newObject .unix .dgram with bound := some (.unix (pszPath.take sunPathRoom)) } := by
  obtain ⟨s₁, hs₁, howns⟩ :=
    createSocket_done (s := { s with path := pszPath }) hs .dgram h.1
  obtain ⟨s₂, hs₂, howns₂⟩ := bindTo_done howns h.2 (.unix (pszPath.take sunPathRoom))
  refine ⟨s₂, ?_, howns₂⟩
  rw [openPath, hs₁]
  dsimp only
  rw [bindPath, hs₂]

theorem openPath_failed (hs : s.socketFd = none) (pszPath : Str)
    (h : ¬(c.creates .unix = true ∧ c.bind = true)) : Failed s.fds (s.openPath c pszPath) := by
  cases hcreates : c.creates .unix with
  | false =>
    obtain ⟨s₁, hs₁, hclean⟩ :=
      createSocket_failed (s := { s with path := pszPath }) hs .dgram hcreates
    exact ⟨s₁, by rw [openPath, hs₁], hclean⟩
  | true =>
    have hbind : c.bind = false := by simpa [hcreates] using h
    obtain ⟨s₁, hs₁, howns⟩ :=
      createSocket_done (s := { s with path := pszPath }) hs .dgram hcreates
    refine ⟨s₁.close, ?_, howns.close⟩
    rw [openPath, hs₁]
    dsimp only
    rw [bindPath, bindTo_failed hbind]

theorem openPort_done (hs : s.socketFd = none) (type : SocketType) (nPort : ℕ)
    (pszAddr : Option Str) (h : c.creates .inet = true ∧ c.bind = true) :
    Done s.fds (s.openPort type net c nPort pszAddr)
      { newObject .inet type with
        bound := some (.inet (sinPort nPort) (boundAddr net pszAddr)) } := by
  obtain ⟨s₁, hs₁, howns⟩ := createSocket_done hs type h.1
  obtain ⟨s₂, hs₂, howns₂⟩ :=
    bindTo_done howns h.2 (.inet (sinPort nPort) (boundAddr net pszAddr))
  refine ⟨s₂, ?_, howns₂⟩
  rw [openPort, hs₁]
  dsimp only
  rw [bindPort_eq, hs₂]

theorem openPort_failed (hs : s.socketFd = none) (type : SocketType) (nPort : ℕ)
    (pszAddr : Option Str) (h : ¬(c.creates .inet = true ∧ c.bind = true)) :
    Failed s.fds (s.openPort type net c nPort pszAddr) := by
  cases hcreates : c.creates .inet with
  | false =>
    obtain ⟨s₁, hs₁, hclean⟩ := createSocket_failed hs type hcreates
    exact ⟨s₁, by rw [openPort, hs₁], hclean⟩
  | true =>
    have hbind : c.bind = false := by simpa [hcreates] using h
    obtain ⟨s₁, hs₁, howns⟩ := createSocket_done hs type hcreates
    refine ⟨s₁.close, ?_, howns.close⟩
    rw [openPort, hs₁]
    dsimp only
    rw [bindPort_eq, bindTo_failed hbind]

/-! ### A server -/

theorem prepareToServer_done (hs : s.socketFd = none) (nPort : ℕ) (pszAddr : Option Str)
    (h : (c.creates .inet = true ∧ c.bind = true) ∧ c.listen = true) :
    Done s.fds (s.prepareToServer net c nPort pszAddr)
      { newObject .inet .stream with
        bound := some (.inet (sinPort nPort) (boundAddr net pszAddr))
        listening := true } := by
  obtain ⟨s₁, hs₁, howns⟩ := openPort_done net hs .stream nPort pszAddr h.1
  refine ⟨_, ?_, howns.onFd fun o => { o with listening := true }⟩
  rw [prepareToServer, tcpOpen, hs₁]
  dsimp only
  rw [listen, if_pos h.2]

/-- The descriptor is kept when `listen` has failed. -/
theorem prepareToServer_kept (hs : s.socketFd = none) (nPort : ℕ) (pszAddr : Option Str)
    (h : (c.creates .inet = true ∧ c.bind = true) ∧ c.listen = false) :
    ∃ s' o, s.prepareToServer net c nPort pszAddr = (false, s') ∧ Owns s.fds s' o := by
  obtain ⟨s₁, hs₁, howns⟩ := openPort_done net hs .stream nPort pszAddr h.1
  refine ⟨s₁, _, ?_, howns⟩
  rw [prepareToServer, tcpOpen, hs₁]
  dsimp only
  rw [listen, if_neg (by simp [h.2])]

theorem prepareToServer_failed (hs : s.socketFd = none) (nPort : ℕ) (pszAddr : Option Str)
    (h : ¬(c.creates .inet = true ∧ c.bind = true)) :
    Failed s.fds (s.prepareToServer net c nPort pszAddr) := by
  obtain ⟨s₁, hs₁, hclean⟩ := openPort_failed net hs .stream nPort pszAddr h
  exact ⟨s₁, by rw [prepareToServer, tcpOpen, hs₁], hclean⟩

/-! ### A client -/

/-- `SO_ERROR` is zero: the result is `true`, whatever has become of the connection. -/
theorem connectTested_done (h : Owns t s o) (nFlags : Bool) {inRead inWrite : Bool}
    (hin : (inRead || inWrite) = true) (herror : c.soError = some 0) :
    ∃ b, Done t (s.connectTested c nFlags inRead inWrite)
      { o with link := o.link.established, nonBlocking := b } := by
  obtain ⟨b, howns⟩ := (h.onFd fun o => { o with link := o.link.established }).setFlags c.resetFl nFlags
  refine ⟨b, _, ?_, howns⟩
  rw [connectTested, if_pos hin, herror]
  rfl

theorem connectTested_failed (h : Owns t s o) {inRead inWrite : Bool} (nFlags : Bool)
    (herror : c.soError ≠ some 0) : Closable t (s.connectTested c nFlags inRead inWrite) := by
  rw [connectTested]
  split
  · cases hcall : c.soError with
    | none => exact ⟨s, rfl, h.close⟩
    | some nError =>
      have hne : nError ≠ 0 := fun hzero => herror (by rw [hcall, hzero])
      obtain ⟨b, howns⟩ := h.setFlags c.resetFl nFlags
      dsimp only
      rw [if_pos hne]
      exact ⟨_, rfl, howns.close.close⟩
  · exact ⟨s, rfl, h.close⟩

theorem connectTimed_done (h : Owns t s o) (peer : SockAddr)
    (hc : c.connect = .ok ∨ c.connect = .inProgress ∧ c.select.isReady = true ∧ c.soError = some 0) :
    ∃ o', Done t (s.connectTimed c peer) o' ∧ o'.link = .connected peer := by
  obtain ⟨b, howns⟩ := h.setFlags c.setFl true
  rcases hc with hok | ⟨hprogress, hready, herror⟩
  · obtain ⟨b', howns'⟩ := (howns.onFd fun o => { o with link := .connected peer }).setFlags c.resetFl
      (if c.getFl then s.nonBlocking else true)
    refine ⟨_, ⟨_, ?_, howns'⟩, rfl⟩
    rw [connectTimed, hok]
  · cases hselect : c.select with
    | failed => simp [hselect, SelectResult.isReady] at hready
    | timeout => simp [hselect, SelectResult.isReady] at hready
    | ready inRead inWrite hany =>
      obtain ⟨b', s', hs', howns'⟩ := connectTested_done
        ((howns.onFd fun o => { o with link := .inProgress peer }).onFd
          fun o => { o with link := o.link.reported })
        (if c.getFl then s.nonBlocking else true) hany herror
      refine ⟨_, ⟨s', ?_, howns'⟩, rfl⟩
      rw [connectTimed, hprogress]
      dsimp only
      rw [hselect]
      exact hs'

/-- A failed `select` and no error so far: the result is `true`, and the connection is still in
    progress. -/
theorem connectTimed_misled (h : Owns t s o) (peer : SockAddr) (hconnect : c.connect = .inProgress)
    (hselect : c.select = .failed) (herror : c.soError = some 0) :
    ∃ o', Done t (s.connectTimed c peer) o' ∧ o'.link = .inProgress peer := by
  obtain ⟨b, howns⟩ := h.setFlags c.setFl true
  obtain ⟨b', s', hs', howns'⟩ := connectTested_done
    (howns.onFd fun o => { o with link := .inProgress peer })
    (if c.getFl then s.nonBlocking else true) (Bool.or_true true) herror
  refine ⟨_, ⟨s', ?_, howns'⟩, rfl⟩
  rw [connectTimed, hconnect]
  dsimp only
  rw [hselect]
  exact hs'

theorem connectTimed_failed (h : Owns t s o) (peer : SockAddr) (hok : c.connect ≠ .ok)
    (hc : ¬(c.connect = .inProgress ∧ c.select ≠ .timeout ∧ c.soError = some 0)) :
    Closable t (s.connectTimed c peer) := by
  obtain ⟨b, howns⟩ := h.setFlags c.setFl true
  rw [connectTimed]
  cases hconnect : c.connect with
  | ok => exact absurd hconnect hok
  | failed => exact ⟨_, rfl, howns.close⟩
  | inProgress =>
    have hprogress := howns.onFd fun o => { o with link := .inProgress peer }
    dsimp only
    cases hselect : c.select with
    | timeout => exact ⟨_, rfl, hprogress.close.close⟩
    | failed =>
      exact connectTested_failed hprogress _ fun herror =>
        hc ⟨hconnect, by simp [hselect], herror⟩
    | ready inRead inWrite hany =>
      exact connectTested_failed (hprogress.onFd _) _ fun herror =>
        hc ⟨hconnect, by simp [hselect], herror⟩

theorem connectNow_done (h : Owns t s o) (peer : SockAddr) (hok : c.connect = .ok) :
    ∃ o', Done t (s.connectNow c peer) o' ∧ o'.link = .connected peer := by
  refine ⟨_, ⟨_, ?_, h.onFd fun o => { o with link := .connected peer }⟩, rfl⟩
  rw [connectNow, hok]

theorem connectNow_failed (h : Owns t s o) (peer : SockAddr) (hok : c.connect ≠ .ok) :
    Closable t (s.connectNow c peer) := by
  rw [connectNow]
  cases hconnect : c.connect with
  | ok => exact absurd hconnect hok
  | failed => exact ⟨_, rfl, h.close⟩
  | inProgress => exact ⟨_, rfl, (h.onFd _).close⟩

/-- A connect on the new descriptor that succeeds is the result of a client. -/
theorem prepareToClient_done (hs : s.socketFd = none) (nPort : ℕ) (pszAddr : Option Str)
    (bBlock : Bool) (hcreates : c.creates .inet = true) {P : SocketObject → Prop}
    (hconnect : ∀ s' o, Owns s.fds s' o →
      ∃ o', Done s.fds (s'.connect net c nPort pszAddr bBlock) o' ∧ P o') :
    ∃ o', Done s.fds (s.prepareToClient net c nPort pszAddr bBlock) o' ∧ P o' := by
  obtain ⟨s₁, hs₁, howns⟩ := createSocket_done
    (s := { s with port := nPort, addrBuf := (pszAddr.getD []).take 15 }) hs .stream hcreates
  obtain ⟨o', ⟨s₂, hs₂, howns₂⟩, hP⟩ := hconnect s₁ _ howns
  refine ⟨o', ⟨s₂, ?_, howns₂⟩, hP⟩
  rw [prepareToClient, hs₁]
  dsimp only
  rw [hs₂]

/-- A connect that fails is followed by a `close`. -/
theorem prepareToClient_failed (hs : s.socketFd = none) {nPort : ℕ} {pszAddr : Option Str}
    {bBlock : Bool} (hconnect : c.creates .inet = true → ∀ s' o, Owns s.fds s' o →
      Closable s.fds (s'.connect net c nPort pszAddr bBlock)) :
    Failed s.fds (s.prepareToClient net c nPort pszAddr bBlock) := by
  rw [prepareToClient]
  cases hcreates : c.creates .inet with
  | false =>
    obtain ⟨s₁, hs₁, hclean⟩ := createSocket_failed
      (s := { s with port := nPort, addrBuf := (pszAddr.getD []).take 15 }) hs .stream hcreates
    exact ⟨s₁, by rw [hs₁], hclean⟩
  | true =>
    obtain ⟨s₁, hs₁, howns⟩ := createSocket_done
      (s := { s with port := nPort, addrBuf := (pszAddr.getD []).take 15 }) hs .stream hcreates
    obtain ⟨s₂, hs₂, hclean⟩ := hconnect hcreates s₁ _ howns
    refine ⟨s₂.close, ?_, hclean⟩
    rw [hs₁]
    dsimp only
    rw [hs₂]

/-- A host that has an address is connected to, with or without a timeout. -/
theorem connect_eq {nPort : ℕ} {pszAddr : Option Str} {bBlock : Bool} {sAddr : ℕ}
    (h : net.peerAddr pszAddr = some sAddr) :
    s.connect net c nPort pszAddr bBlock =
      if bBlock then s.connectTimed c (.inet (sinPort nPort) sAddr)
      else s.connectNow c (.inet (sinPort nPort) sAddr) := by
  obtain ⟨addr, rfl, hhost⟩ := Option.bind_eq_some_iff.mp h
  rw [connect, hhost]
  cases bBlock <;> rfl

theorem connect_unresolved {nPort : ℕ} {pszAddr : Option Str} {bBlock : Bool}
    (h : net.peerAddr pszAddr = none) : s.connect net c nPort pszAddr bBlock = (false, s) := by
  cases pszAddr with
  | none => rfl
  | some addr =>
    have hhost : net.hostAddr addr = none := h
    rw [connect, hhost]

end SocketState

namespace SetupCall

open SocketState

variable (net : Resolver) {c : Calls} {s : SocketState} {call : SetupCall}

theorem sinPort_eq_iff (nPort : ℕ) : sinPort nPort = nPort ↔ nPort < 65536 := by
  rw [sinPort]
  omega

theorem boundAt_iff {nPort : ℕ} {pszAddr : Option Str} {o : SocketObject}
    (h : o.bound = some (.inet (sinPort nPort) (boundAddr net pszAddr))) :
    BoundAt net nPort pszAddr o ↔ nPort < 65536 ∧ (net.bindAddr pszAddr).isSome := by
  rw [BoundAt, h, ← sinPort_eq_iff]
  cases pszAddr with
  | none => simp [Resolver.bindAddr, boundAddr]
  | some addr =>
    rw [Resolver.bindAddr, boundAddr, Resolver.inetAddr]
    cases net.dotted addr with
    | none => simp
    | some sAddr => simp

theorem BoundAt.ne_none {nPort : ℕ} {pszAddr : Option Str} {o : SocketObject}
    (h : BoundAt net nPort pszAddr o) : o.bound ≠ none := by
  obtain ⟨sAddr, -, hbound⟩ := h
  rw [hbound]
  exact Option.some_ne_none _

theorem wanted_of_wantedAt {o : SocketObject} (h : call.WantedAt net o) : call.Wanted o := by
  cases call with
  | openPath pszPath =>
    rw [Wanted, show o.bound = _ from h]
    exact Option.some_ne_none _
  | tcpOpen nPort pszAddr => exact BoundAt.ne_none net h
  | udpOpen nPort pszAddr => exact BoundAt.ne_none net h
  | prepareToClient nPort pszAddr bBlock =>
    obtain ⟨sAddr, -, hlink⟩ := h
    exact ⟨_, hlink⟩
  | prepareToServer nPort pszAddr => exact ⟨BoundAt.ne_none net h.1, h.2⟩

/-- All calls succeed: the result is `true`, and the address is the one that was asked for if it fits
    into a `sockaddr`. -/
theorem run_completes (hs : s.socketFd = none) (h : call.Completes net c) :
    ∃ o, Done s.fds (call.run net c s) o ∧ call.Wanted o ∧ (call.WantedAt net o ↔ call.Fits net) := by
  cases call with
  | openPath pszPath =>
    refine ⟨_, openPath_done hs pszPath h, Option.some_ne_none _, ?_⟩
    rw [WantedAt, Fits, ← List.take_eq_self_iff]
    simp
  | tcpOpen nPort pszAddr =>
    exact ⟨_, openPort_done net hs .stream nPort pszAddr h, Option.some_ne_none _,
      boundAt_iff net rfl⟩
  | udpOpen nPort pszAddr =>
    exact ⟨_, openPort_done net hs .dgram nPort pszAddr h, Option.some_ne_none _,
      boundAt_iff net rfl⟩
  | prepareToServer nPort pszAddr =>
    refine ⟨_, prepareToServer_done net hs nPort pszAddr h, ⟨Option.some_ne_none _, rfl⟩, ?_⟩
    rw [WantedAt, Fits, boundAt_iff net rfl]
    exact and_iff_left rfl
  | prepareToClient nPort pszAddr bBlock =>
    obtain ⟨hcreates, hpeer, hconnect⟩ := h
    obtain ⟨sAddr, hsAddr⟩ := Option.isSome_iff_exists.mp hpeer
    obtain ⟨o, hdone, hlink⟩ := prepareToClient_done net hs nPort pszAddr bBlock hcreates
      (P := fun o => o.link = .connected (.inet (sinPort nPort) sAddr)) <| by
        intro s' o howns
        rw [connect_eq net hsAddr]
        rcases hconnect with hok | ⟨rfl, hprogress⟩
        · split
          · exact connectTimed_done howns _ (.inl hok)
          · exact connectNow_done howns _ hok
        · exact connectTimed_done howns _ (.inr hprogress)
    refine ⟨o, hdone, ⟨_, hlink⟩, ?_⟩
    rw [WantedAt, Fits, hsAddr, hlink, ← sinPort_eq_iff]
    simp

theorem run_untruthful (hs : s.socketFd = none) (h : call.Untruthful net c) :
    ¬Truthful call.Wanted s.fds (call.run net c s) := by
  cases call with
  | openPath pszPath => exact absurd h id
  | tcpOpen nPort pszAddr => exact absurd h id
  | udpOpen nPort pszAddr => exact absurd h id
  | prepareToServer nPort pszAddr =>
    obtain ⟨s', o, hrun, howns⟩ := prepareToServer_kept net hs nPort pszAddr h
    rw [run, hrun]
    exact howns.not_truthful
  | prepareToClient nPort pszAddr bBlock =>
    obtain ⟨hcreates, hpeer, rfl, hprogress, hselect, herror⟩ := h
    obtain ⟨sAddr, hsAddr⟩ := Option.isSome_iff_exists.mp hpeer
    obtain ⟨o, hdone, hlink⟩ := prepareToClient_done net hs nPort pszAddr true hcreates
      (P := fun o => o.link = .inProgress (.inet (sinPort nPort) sAddr)) <| by
        intro s' o howns
        rw [connect_eq net hsAddr]
        exact connectTimed_misled howns _ hprogress hselect herror
    rw [run, hdone.truthful_iff_wanted]
    rintro ⟨peer, hconnected⟩
    rw [hlink] at hconnected
    cases hconnected

theorem run_failed (hs : s.socketFd = none) (hc : ¬call.Completes net c)
    (hu : ¬call.Untruthful net c) : Failed s.fds (call.run net c s) := by
  cases call with
  | openPath pszPath => exact openPath_failed hs pszPath hc
  | tcpOpen nPort pszAddr => exact openPort_failed net hs .stream nPort pszAddr hc
  | udpOpen nPort pszAddr => exact openPort_failed net hs .dgram nPort pszAddr hc
  | prepareToServer nPort pszAddr =>
    refine prepareToServer_failed net hs nPort pszAddr fun hopen => ?_
    cases hlisten : c.listen with
    | true => exact hc ⟨hopen, hlisten⟩
    | false => exact hu ⟨hopen, hlisten⟩
  | prepareToClient nPort pszAddr bBlock =>
    refine prepareToClient_failed net hs fun hcreates s' o howns => ?_
    cases hsAddr : net.peerAddr pszAddr with
    | none =>
      rw [connect_unresolved net hsAddr]
      exact ⟨_, rfl, howns.close⟩
    | some sAddr =>
      have hpeer : (net.peerAddr pszAddr).isSome := by rw [hsAddr]; rfl
      have hok : c.connect ≠ .ok := fun hok => hc ⟨hcreates, hpeer, .inl hok⟩
      rw [connect_eq net hsAddr]
      cases bBlock with
      | false => exact connectNow_failed howns _ hok
      | true =>
        refine connectTimed_failed howns _ hok ?_
        rintro ⟨hprogress, htimeout, herror⟩
        cases hselect : c.select with
        | timeout => exact htimeout hselect
        | failed => exact hu ⟨hcreates, hpeer, rfl, hprogress, hselect, herror⟩
        | ready inRead inWrite hany =>
          exact hc ⟨hcreates, hpeer, .inr ⟨rfl, hprogress, by rw [hselect]; rfl, herror⟩⟩

/-- A call on an invalid socket tells the truth and cleans up if and only if neither `listen` fails
    on a bound socket nor `select` on a connection in progress without an error so far. The address
    is the one asked for, too, if and only if besides it fits into a `sockaddr` where all system
    calls succeed. -/
theorem setup_truthful_iff (c : Calls) (call : SetupCall) (s : SocketState)
    (hs : s.socketFd = none) :
    (Truthful call.Wanted s.fds (call.run net c s) ↔ ¬call.Untruthful net c) ∧
      (Truthful (call.WantedAt net) s.fds (call.run net c s) ↔
        ¬call.Untruthful net c ∧ (call.Completes net c → call.Fits net)) := by
  refine ⟨⟨fun htruthful hu => run_untruthful net hs hu htruthful, fun hu => ?_⟩,
    ⟨fun htruthful => ⟨fun hu => ?_, fun hc => ?_⟩, fun ⟨hu, hfits⟩ => ?_⟩⟩
  · by_cases hc : call.Completes net c
    · obtain ⟨o, hdone, hwanted, -⟩ := run_completes net hs hc
      exact hdone.truthful_iff_wanted.mpr hwanted
    · exact (run_failed net hs hc hu).truthful
  · exact run_untruthful net hs hu (htruthful.mono fun o => wanted_of_wantedAt net)
  · obtain ⟨o, hdone, -, hfits⟩ := run_completes net hs hc
    exact hfits.mp (hdone.truthful_iff_wanted.mp htruthful)
  · by_cases hc : call.Completes net c
    · obtain ⟨o, hdone, -, hwanted⟩ := run_completes net hs hc
      exact hdone.truthful_iff_wanted.mpr (hwanted.mpr (hfits hc))
    · exact (run_failed net hs hc hu).truthful

/-- A server on port 80 with all system calls successful. -/
theorem setup_truthful_server :
    let net : Resolver := ⟨fun _ => none, fun _ => none⟩
    let c : Calls := ⟨true, true, true, true, true, true, true, .failed, .timeout, none⟩
    Truthful ((SetupCall.prepareToServer 80 none).WantedAt net) []
      ((SetupCall.prepareToServer 80 none).run net c ⟨[], none, .unix, [], 0, []⟩) := by
  intro net c
  have hu : ¬(SetupCall.prepareToServer 80 none).Untruthful net c := by
    rintro ⟨-, hlisten⟩
    cases hlisten
  exact (setup_truthful_iff net c _ ⟨[], none, .unix, [], 0, []⟩ rfl).2.mpr
    ⟨hu, fun _ => ⟨by decide, rfl⟩⟩

/-- `listen` fails: the result is `false`, and the socket keeps descriptor 0. -/
theorem setup_truthful_counterexample :
    let net : Resolver := ⟨fun _ => none, fun _ => none⟩
    let c : Calls := ⟨true, true, true, false, true, true, true, .failed, .timeout, none⟩
    let result := (SetupCall.prepareToServer 80 none).run net c ⟨[], none, .unix, [], 0, []⟩
    result.1 = false ∧ result.2.socketFd = some 0 ∧
      ¬Truthful (SetupCall.prepareToServer 80 none).Wanted [] result := by
  intro net c result
  refine ⟨rfl, rfl, fun htruthful => ?_⟩
  have hinvalid : result.2.socketFd = none := (htruthful.of_false rfl).invalid
  cases hinvalid

/-! ## Retries -/

/-- One attempt after the other, with what the system calls return in each. -/
def attempts (s : SocketState) (as : List (SetupCall × Calls)) : SocketState :=
  as.foldl (fun s a => (a.1.run net a.2 s).2) s

/-- Attempts that fail without being untruthful leave nothing behind, so that the next one finds what
    the first one found. -/
theorem attempts_clean {as : List (SetupCall × Calls)} (hs : s.socketFd = none)
    (h : ∀ a ∈ as, ¬a.1.Completes net a.2 ∧ ¬a.1.Untruthful net a.2) :
    Clean s.fds (attempts net s as) := by
  induction as generalizing s with
  | nil => exact ⟨hs, Descriptors.Agree.refl _⟩
  | cons a as ih =>
    obtain ⟨hfirst, hrest⟩ := List.forall_mem_cons.mp h
    obtain ⟨s', hrun, hclean⟩ := run_failed net hs hfirst.1 hfirst.2
    have hlast := ih hclean.invalid hrest
    have hattempts : attempts net s (a :: as) = attempts net s' as := by
      rw [attempts, List.foldl_cons, hrun]
      rfl
    rw [hattempts]
    exact ⟨hlast.invalid, hlast.agree.trans hclean.agree⟩

theorem createSocket_of_valid (hs : s.socketFd ≠ none) (format : AddrFormat) (type : SocketType) :
    s.createSocket c format type = (false, s) := by
  rw [createSocket, if_pos hs]

/-- A call on a socket that has a descriptor fails, whatever the system calls return. -/
theorem run_of_valid (hs : s.socketFd ≠ none) (call : SetupCall) (c : Calls) :
    (call.run net c s).1 = false ∧ (call.run net c s).2.socketFd = s.socketFd ∧
      (call.run net c s).2.fds = s.fds := by
  cases call with
  | openPath pszPath =>
    rw [run, SocketState.openPath, createSocket_of_valid (s := { s with path := pszPath }) hs]
    exact ⟨rfl, rfl, rfl⟩
  | tcpOpen nPort pszAddr =>
    rw [run, SocketState.tcpOpen, openPort, createSocket_of_valid hs]
    exact ⟨rfl, rfl, rfl⟩
  | udpOpen nPort pszAddr =>
    rw [run, SocketState.udpOpen, openPort, createSocket_of_valid hs]
    exact ⟨rfl, rfl, rfl⟩
  | prepareToServer nPort pszAddr =>
    rw [run, SocketState.prepareToServer, SocketState.tcpOpen, openPort, createSocket_of_valid hs]
    exact ⟨rfl, rfl, rfl⟩
  | prepareToClient nPort pszAddr bBlock =>
    rw [run, SocketState.prepareToClient, createSocket_of_valid
      (s := { s with port := nPort, addrBuf := (pszAddr.getD []).take 15 }) hs]
    exact ⟨rfl, rfl, rfl⟩

/-- A socket that has a descriptor, as after a failed `listen`, is where it was after any number of
    attempts. -/
theorem attempts_stuck (hs : s.socketFd ≠ none) (as : List (SetupCall × Calls)) :
    (attempts net s as).socketFd = s.socketFd ∧ (attempts net s as).fds = s.fds := by
  induction as generalizing s with
  | nil => exact ⟨rfl, rfl⟩
  | cons a as ih =>
    obtain ⟨-, hfd, hfds⟩ := run_of_valid net hs a.1 a.2
    have hrest := ih (s := (a.1.run net a.2 s).2) (by rw [hfd]; exact hs)
    rw [hfd, hfds] at hrest
    exact hrest

end SetupCall

end Pdk.Net
