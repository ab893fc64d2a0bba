import Pdk.Config.IniFile
import Pdk.Foundation.Bytes
import Pdk.Foundation.Descriptors

/-!
# Sockets

Model of `src/sock.cpp` as far as a socket is created, bound, connected or made to listen:
`Socket::open`, `TcpSocket::open`, `TcpSocket::prepare_to_client`, `TcpSocket::prepare_to_server` and
`InetUdpSocket::open`, with `create_socket`, `bind`, `listen`, `connect` and `close`. What the system
calls return is given (`Calls`); each of them is made at most once. The descriptors of the process
are a table that the calls work on.

A `const char*` is given by the bytes in front of its zero byte. The results of the calls that set and
read the buffer sizes are only logged and left out, and so is `unlink`.
-/

namespace Pdk.Net

open Foundation
open Pdk.Config

/-! ## Descriptors and system calls -/

/-- `AF_UNIX` and `AF_INET`. -/
inductive AddrFormat where
  | unix
  | inet
  deriving DecidableEq, Repr

/-- `SOCK_DGRAM` and `SOCK_STREAM`. -/
inductive SocketType where
  | dgram
  | stream
  deriving DecidableEq, Repr

/-- A socket address as the kernel gets it: `sockaddr_un` or `sockaddr_in`. -/
inductive SockAddr where
  | unix (sunPath : Str)
  | inet (sinPort sAddr : ℕ)
  deriving DecidableEq, Repr

/-- How far a connection has come. -/
inductive Link where
  | idle
  | inProgress (peer : SockAddr)
  -- `select` has reported the descriptor ready
  | ready (peer : SockAddr)
  | connected (peer : SockAddr)
  deriving DecidableEq, Repr

/-- `select` reports the descriptor ready. -/
def Link.reported : Link → Link
  | .inProgress peer => .ready peer
  | link => link

/-- There was no error on a connection: it is established if it was ready before. -/
def Link.established : Link → Link
  | .ready peer => .connected peer
  | link => link

/-- What is behind an open descriptor. -/
structure SocketObject where
  format : AddrFormat
  type : SocketType
  bound : Option SockAddr
  listening : Bool
  nonBlocking : Bool
  link : Link
  deriving DecidableEq, Repr

/-- The result of `connect`. -/
inductive ConnectResult where
  | ok
  -- an error with `errno == EINPROGRESS`
  | inProgress
  | failed
  deriving DecidableEq, Repr

/-- The result of `select` on one descriptor. -/
inductive SelectResult where
  -- an error; the sets are as they were
  | failed
  -- nothing is ready, and the sets are empty
  | timeout
  -- at least one of the sets has the descriptor
  | ready (inRead inWrite : Bool) (any : inRead || inWrite)
  deriving DecidableEq, Repr

/-- What the system calls return: whether they succeed, where nothing else is said. -/
structure Calls where
  socket : Bool
  -- `setsockopt(SO_REUSEADDR)`
  reuseAddr : Bool
  bind : Bool
  listen : Bool
  -- `fcntl(F_GETFL)`, and `fcntl(F_SETFL)` before and after the connect
  getFl : Bool
  setFl : Bool
  resetFl : Bool
  connect : ConnectResult
  select : SelectResult
  -- `getsockopt(SO_ERROR)` with the value it stores
  soError : Option ℕ
  deriving DecidableEq, Repr

/-- `inet_addr` and `gethostbyname`: the address that a text denotes, if it denotes one. -/
structure Resolver where
  dotted : Str → Option ℕ
  byName : Str → Option ℕ

def inaddrAny : ℕ := 0

def inaddrNone : ℕ := 4294967295

/-- `inet_addr(cp)`. -/
def Resolver.inetAddr (net : Resolver) (cp : Str) : ℕ :=
  (net.dotted cp).getD inaddrNone

/-- The address that `TcpSocket::connect` looks up. -/
def Resolver.hostAddr (net : Resolver) (lpszAddr : Str) : Option ℕ :=
  if net.inetAddr lpszAddr = inaddrNone then net.byName lpszAddr
  else some (net.inetAddr lpszAddr)

/-- `htons(static_cast<u_short>(nPort))`, as a number. -/
def sinPort (nPort : ℕ) : ℕ := nPort % 65536

/-- `sizeof(sockUnix.sun_path) - 1`. -/
def sunPathRoom : ℕ := 107

/-! ## Sockets -/

/-- A socket object with the descriptors of its process. -/
structure SocketState where
  fds : Descriptors SocketObject
  -- no value for `INVALID_SOCKET`
  socketFd : Option ℕ
  addrType : AddrFormat
  path : Str
  port : ℕ
  addrBuf : Str

namespace SocketState

/-- A system call that changes the object behind `socket_fd_`. -/
def onFd (s : SocketState) (f : SocketObject → SocketObject) : SocketState :=
  match s.socketFd with
  | none => s
  | some fd => { s with fds := s.fds.modify fd f }

/-- `Socket::close()`. -/
def close (s : SocketState) : SocketState :=
  match s.socketFd with
  | none => { s with path := [] }
  | some fd => { s with fds := s.fds.release fd, socketFd := none, path := [] }

/-- `create_socket(nAddrFormat, nSocketType)`. -/
def createSocket (c : Calls) (s : SocketState) (nAddrFormat : AddrFormat)
    (nSocketType : SocketType) : Bool × SocketState :=
  if s.socketFd ≠ none then (false, s)
  else if c.socket = false then (false, { s with addrType := nAddrFormat })
  else
    let fd := Descriptors.lowestFree s.fds
    let s := { s with
      addrType := nAddrFormat
      fds := s.fds.alloc ⟨nAddrFormat, nSocketType, none, false, false, .idle⟩
      socketFd := some fd }
    if nAddrFormat = .inet ∧ c.reuseAddr = false then
      (false, { s with fds := s.fds.release fd, socketFd := none })
    else (true, s)

/-- `::bind(socket_fd_, addr)`. -/
def bindTo (c : Calls) (s : SocketState) (addr : SockAddr) : Bool × SocketState :=
  if c.bind then (true, s.onFd fun o => { o with bound := some addr }) else (false, s)

/-- `Socket::bind(pszPath)`. -/
def bindPath (c : Calls) (s : SocketState) (pszPath : Str) : Bool × SocketState :=
  s.bindTo c (.unix (pszPath.take sunPathRoom))

/-- `Socket::bind(nPort, pszAddr)`. -/
def bindPort (net : Resolver) (c : Calls) (s : SocketState) (nPort : ℕ) (pszAddr : Option Str) :
    Bool × SocketState :=
  match pszAddr with
  | none => s.bindTo c (.inet (sinPort nPort) inaddrAny)
  | some addr =>
    let lResult : ℤ := net.inetAddr addr
    -- `lResult` is a `long`: the unsigned `INADDR_NONE` has not become -1
    if lResult = -1 then (false, s)
    else s.bindTo c (.inet (sinPort nPort) (net.inetAddr addr))

/-- `Socket::open(pszPath)`. -/
def openPath (c : Calls) (s : SocketState) (pszPath : Str) : Bool × SocketState :=
  match createSocket c { s with path := pszPath } .unix .dgram with
  | (false, s) => (false, s)
  | (true, s) =>
    match s.bindPath c pszPath with
    | (false, s) => (false, s.close)
    | (true, s) => (true, s)

/-- The body that `TcpSocket::open` and `InetUdpSocket::open` share. -/
def openPort (type : SocketType) (net : Resolver) (c : Calls) (s : SocketState) (nPort : ℕ)
    (pszAddr : Option Str) : Bool × SocketState :=
  match s.createSocket c .inet type with
  | (false, s) => (false, s)
  | (true, s) =>
    match s.bindPort net c nPort pszAddr with
    | (true, s) => (true, s)
    | (false, s) => (false, s.close)

/-- `TcpSocket::open(nPort, pszAddr)`. -/
def tcpOpen : Resolver → Calls → SocketState → ℕ → Option Str → Bool × SocketState :=
  openPort .stream

/-- `InetUdpSocket::open(nPort, pszAddr)`. -/
def udpOpen : Resolver → Calls → SocketState → ℕ → Option Str → Bool × SocketState :=
  openPort .dgram

/-- `TcpSocket::listen(nConnectionBacklog)`. -/
def listen (c : Calls) (s : SocketState) : Bool × SocketState :=
  if c.listen then (true, s.onFd fun o => { o with listening := true }) else (false, s)

/-- `TcpSocket::prepare_to_server(nPort, pszAddr)`. -/
def prepareToServer (net : Resolver) (c : Calls) (s : SocketState) (nPort : ℕ)
    (pszAddr : Option Str) : Bool × SocketState :=
  match s.tcpOpen net c nPort pszAddr with
  | (false, s) => (false, s)
  | (true, s) =>
    match s.listen c with
    | (true, s) => (true, s)
    | (false, s) => (false, s)

/-- `fcntl(socket_fd_, F_SETFL, flags)`. -/
def setFlags (ok : Bool) (s : SocketState) (nonBlocking : Bool) : SocketState :=
  if ok then s.onFd fun o => { o with nonBlocking } else s

/-- `connect(lpSockAddr)` without a timeout. -/
def connectNow (c : Calls) (s : SocketState) (peer : SockAddr) : Bool × SocketState :=
  match c.connect with
  | .ok => (true, s.onFd fun o => { o with link := .connected peer })
  | .inProgress => (false, s.onFd fun o => { o with link := .inProgress peer })
  | .failed => (false, s)

/-- The flag `O_NONBLOCK` of the descriptor. -/
def nonBlocking (s : SocketState) : Bool :=
  (s.socketFd.bind (Descriptors.lookup s.fds)).any fun o => o.nonBlocking

/-- The connect with a timeout from the test of the sets on. -/
def connectTested (c : Calls) (s : SocketState) (nFlags : Bool) (inRead inWrite : Bool) :
    Bool × SocketState :=
  if inRead || inWrite then
    match c.soError with
    | none => (false, s)
    | some nError =>
      if nError ≠ 0 then (false, (s.setFlags c.resetFl nFlags).close)
      else (true, (s.onFd fun o => { o with link := o.link.established }).setFlags c.resetFl nFlags)
  else (false, s)

/-- `connect(lpSockAddr, nSec)`. -/
def connectTimed (c : Calls) (s : SocketState) (peer : SockAddr) : Bool × SocketState :=
  -- when the call fails, `nFlags` is -1, which has all flags
  let nFlags := if c.getFl then s.nonBlocking else true
  let s := s.setFlags c.setFl true
  match c.connect with
  | .failed => (false, s)
  | .ok => (true, (s.onFd fun o => { o with link := .connected peer }).setFlags c.resetFl nFlags)
  | .inProgress =>
    let s := s.onFd fun o => { o with link := .inProgress peer }
    match c.select with
    | .timeout => (false, s.close)
    -- the descriptor is in both sets, as before the call
    | .failed => s.connectTested c nFlags true true
    | .ready inRead inWrite _ =>
      (s.onFd fun o => { o with link := o.link.reported }).connectTested c nFlags inRead inWrite

/-- `connect(nPort, lpszAddr, bBlock)`. -/
def connect (net : Resolver) (c : Calls) (s : SocketState) (nPort : ℕ) (lpszAddr : Option Str)
    (bBlock : Bool) : Bool × SocketState :=
  match lpszAddr with
  | none => (false, s)
  | some addr =>
    match net.hostAddr addr with
    | none => (false, s)
    | some sAddr =>
      if !bBlock then s.connectNow c (.inet (sinPort nPort) sAddr)
      else s.connectTimed c (.inet (sinPort nPort) sAddr)

/-- `TcpSocket::prepare_to_client(nPort, pszAddr, bBlock)`. -/
def prepareToClient (net : Resolver) (c : Calls) (s : SocketState) (nPort : ℕ)
    (pszAddr : Option Str) (bBlock : Bool) : Bool × SocketState :=
  match createSocket c { s with port := nPort, addrBuf := (pszAddr.getD []).take 15 } .inet
      .stream with
  | (false, s) => (false, s)
  | (true, s) =>
    match s.connect net c nPort pszAddr bBlock with
    | (true, s) => (true, s)
    | (false, s) => (false, s.close)

end SocketState

/-- The five ways to set up a socket. -/
inductive SetupCall where
  | openPath (pszPath : Str)
  | tcpOpen (nPort : ℕ) (pszAddr : Option Str)
  | udpOpen (nPort : ℕ) (pszAddr : Option Str)
  | prepareToClient (nPort : ℕ) (pszAddr : Option Str) (bBlock : Bool)
  | prepareToServer (nPort : ℕ) (pszAddr : Option Str)

def SetupCall.run (net : Resolver) (c : Calls) (s : SocketState) : SetupCall → Bool × SocketState
  | .openPath pszPath => s.openPath c pszPath
  | .tcpOpen nPort pszAddr => s.tcpOpen net c nPort pszAddr
  | .udpOpen nPort pszAddr => s.udpOpen net c nPort pszAddr
  | .prepareToClient nPort pszAddr bBlock => s.prepareToClient net c nPort pszAddr bBlock
  | .prepareToServer nPort pszAddr => s.prepareToServer net c nPort pszAddr

end Pdk.Net
