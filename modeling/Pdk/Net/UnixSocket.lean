import Mathlib.Data.Fintype.Basic
import Pdk.Foundation.Transition
import Pdk.Net.Socket

/-!
# Sockets with a path

Model of `Socket::open(pszPath)`, `Socket::bind(pszPath)`, `Socket::close` and of the `AF_UNIX` part of
`Socket::send_to` in `src/sock.cpp`, for any number of sockets over one file system. `Net.Socket`
follows the descriptors of such calls; here it is the names. A name leads to a socket of the kernel,
and goes on doing so when that socket has been closed, until somebody unlinks it. `open` and `close`
unlink by `m_path`, and `bind` copies the path into `sun_path`, which may be too short for it.

The calls of different sockets interleave as whole calls. `unlink` is taken to remove a name that
there is. The empty path, for which the kernel has names of another kind, is left out.
-/

namespace Pdk.Net

open Foundation
open Pdk.Config

abbrev Datagram := List UInt8

/-- A `Socket` of the family `AF_UNIX`. -/
structure UnixSocket where
  -- the socket of the kernel behind `socket_fd_`
  fd : Option ℕ
  -- `m_path`
  path : Str
  -- how many datagrams had been sent, to any path, when `socket_fd_` was created
  since : ℕ
  -- what `recvfrom` has returned since then
  received : List Datagram
  deriving DecidableEq, Repr

structure UnixSystem (ι : Type*) where
  -- the socket files
  names : Str → Option ℕ
  -- the datagrams that wait at each socket of the kernel; no value if it is closed, or not yet there
  queues : ℕ → Option (List Datagram)
  next : ℕ
  sock : ι → UnixSocket
  -- the datagrams that `sendto` has taken, with the names they were sent to
  sent : List (Str × Datagram)

inductive UnixAct (ι : Type*) where
  -- `open(pszPath)`, with the results of `socket` and `bind` if nothing stands against them
  | openPath (i : ι) (pszPath : Str) (socket bind : Bool)
  | close (i : ι)
  -- `send_to(lpBuf, nBufLen, 0, lpszHostAddress)`, by any socket
  | sendTo (lpBuf : Datagram) (lpszHostAddress : Str) (sendto : Bool)
  | recvFrom (i : ι)
  deriving DecidableEq

namespace UnixSystem

variable {ι : Type*} [DecidableEq ι]

def set (s : UnixSystem ι) (i : ι) (x : UnixSocket) : UnixSystem ι :=
  { s with sock := Function.update s.sock i x }

/-- `unlink(path)`. -/
def unlink (s : UnixSystem ι) (path : Str) : UnixSystem ι :=
  { s with names := Function.update s.names path none }

/-- `Socket::close()`. -/
def close (s : UnixSystem ι) (i : ι) : UnixSystem ι :=
  let s := match (s.sock i).fd with
    | none => s
    | some k => { s with queues := Function.update s.queues k none }.set i { s.sock i with fd := none }
  if (s.sock i).path = [] then s
  else (s.unlink (s.sock i).path).set i { s.sock i with path := [] }

/-- `create_socket(AF_UNIX, SOCK_DGRAM, 0)`. -/
def createSocket (s : UnixSystem ι) (i : ι) (socket : Bool) : Bool × UnixSystem ι :=
  if (s.sock i).fd ≠ none then (false, s)
  else if socket = false then (false, s)
  else (true, { s with
    next := s.next + 1
    queues := Function.update s.queues s.next (some []) }.set i { s.sock i with
      fd := some s.next
      since := s.sent.length
      received := [] })

/-- `Socket::bind(pszPath)`: a name that there is cannot be bound. -/
def bindPath (s : UnixSystem ι) (i : ι) (pszPath : Str) (bind : Bool) : Bool × UnixSystem ι :=
  let sunPath := pszPath.take sunPathRoom
  let s := s.unlink pszPath
  if bind ∧ s.names sunPath = none then
    (true, { s with names := Function.update s.names sunPath (s.sock i).fd })
  else (false, s)

/-- `Socket::open(pszPath)`. -/
def openPath (s : UnixSystem ι) (i : ι) (pszPath : Str) (socket bind : Bool) :
    Bool × UnixSystem ι :=
  match (s.set i { s.sock i with path := pszPath }).createSocket i socket with
  | (false, s) => (false, s)
  | (true, s) =>
    match s.bindPath i pszPath bind with
    | (false, s) => (false, s.close i)
    | (true, s) => (true, s)

/-- `Socket::send_to`: the kernel has to find a socket that is open. -/
def sendTo (s : UnixSystem ι) (lpBuf : Datagram) (lpszHostAddress : Str) (sendto : Bool) :
    Bool × UnixSystem ι :=
  let sunPath := lpszHostAddress.take sunPathRoom
  match s.names sunPath with
  | none => (false, s)
  | some k =>
    match s.queues k with
    | none => (false, s)
    | some queue =>
      if sendto then (true, { s with
        queues := Function.update s.queues k (some (queue ++ [lpBuf]))
        sent := s.sent ++ [(sunPath, lpBuf)] })
      else (false, s)

/-- `recvfrom` on the socket `i`, which waits for a datagram. -/
def recvFrom (s : UnixSystem ι) (i : ι) : Option (UnixSystem ι) :=
  match (s.sock i).fd with
  | none => none
  | some k =>
    match s.queues k with
    | some (lpBuf :: queue) => some ({ s with
        queues := Function.update s.queues k (some queue) }.set i { s.sock i with
          received := (s.sock i).received ++ [lpBuf] })
    | _ => none

def step (s : UnixSystem ι) : UnixAct ι → Option (UnixSystem ι)
  | .openPath i pszPath socket bind =>
    if pszPath = [] then none else some (s.openPath i pszPath socket bind).2
  | .close i => some (s.close i)
  | .sendTo lpBuf lpszHostAddress sendto => some (s.sendTo lpBuf lpszHostAddress sendto).2
  | .recvFrom i => s.recvFrom i

/-- Sockets that have not been opened, over a file system without socket files. -/
def machine : Machine (UnixSystem ι) (UnixAct ι) :=
  ⟨⟨fun _ => none, fun _ => none, 0, fun _ => ⟨none, [], 0, []⟩, []⟩, step⟩

end UnixSystem

end Pdk.Net
