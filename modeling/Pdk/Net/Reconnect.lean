import Pdk.Net.SocketSetup

/-!
# Reconnecting

Model of `TcpSocket::reconnect` in `src/sock.cpp`. The loop closes the socket and connects it again,
with a timeout, to the port and the address that `prepare_to_client` has left in `port_` and
`addr_buf_`, of which the latter has room for 15 characters. It gives up when there have been more
attempts than `reconnect_retry_count_`, or never if that is zero. Nothing sets `exit_`, so that it is
left out, and so are the pauses.

Whatever the system calls return, attempts leave no descriptor behind but the one of an attempt that
the code takes for a connection (`Connects`), and if it is one, it leads to the host that the first 15
characters name (`reconnect_outcome`). The two differ: when `select` itself fails, its descriptor sets
are as they were, and `SO_ERROR` is 0 while the connection is still being made.
-/

namespace Pdk.Net

open Foundation
open Pdk.Config

namespace SocketState

variable (net : Resolver)

/-- One round of the loop. -/
def retry (c : Calls) (s : SocketState) : Bool × SocketState :=
  s.close.prepareToClient net c s.port (some s.addrBuf) true

/-- The loop with `nCount` attempts behind it. The `k`-th attempt gets the results `calls k`. There is
    no result if the loop is still going after `fuel` attempts more. -/
def reconnectFrom (calls : ℕ → Calls) (retryCount : ℤ) : ℕ → ℕ → SocketState → Option (Bool × SocketState)
  | 0, _, _ => none
  | fuel + 1, nCount, s =>
    match s.retry net (calls nCount) with
    | (true, s) => some (true, s)
    | (false, s) =>
      if retryCount ≠ 0 ∧ retryCount < (nCount + 1 : ℕ) then some (false, s)
      else reconnectFrom calls retryCount fuel (nCount + 1) s

/-- `reconnect()`, with `retryCount` in `reconnect_retry_count_`. -/
def reconnect (calls : ℕ → Calls) (retryCount : ℤ) (fuel : ℕ) (s : SocketState) :
    Option (Bool × SocketState) :=
  reconnectFrom net calls retryCount fuel 0 s

/-! ## The address is kept -/

/-- What `reconnect` connects to. -/
def target (s : SocketState) : ℕ × Str := (s.port, s.addrBuf)

variable {net} {c : Calls} {s : SocketState}

theorem target_onFd (s : SocketState) (f : SocketObject → SocketObject) :
    (s.onFd f).target = s.target := by
  unfold onFd
  split <;> rfl

theorem target_close (s : SocketState) : s.close.target = s.target := by
  unfold close
  split <;> rfl

theorem target_setFlags (ok : Bool) (s : SocketState) (nonBlocking : Bool) :
    (s.setFlags ok nonBlocking).target = s.target := by
  unfold setFlags
  split
  · exact target_onFd s _
  · rfl

theorem target_createSocket (c : Calls) (s : SocketState) (format : AddrFormat) (type : SocketType) :
    (s.createSocket c format type).2.target = s.target := by
  unfold createSocket
  split
  · rfl
  · split
    · rfl
    · dsimp only
      split <;> rfl

theorem target_connectTested (c : Calls) (s : SocketState) (nFlags inRead inWrite : Bool) :
    (s.connectTested c nFlags inRead inWrite).2.target = s.target := by
  unfold connectTested
  split
  · split
    · rfl
    · split
      · rw [target_close, target_setFlags]
      · rw [target_setFlags, target_onFd]
  · rfl

theorem target_connectTimed (c : Calls) (s : SocketState) (peer : SockAddr) :
    (s.connectTimed c peer).2.target = s.target := by
  unfold connectTimed
  dsimp only
  split
  · rw [target_setFlags]
  · rw [target_setFlags, target_onFd, target_setFlags]
  · split
    · rw [target_close, target_onFd, target_setFlags]
    · rw [target_connectTested, target_onFd, target_setFlags]
    · rw [target_connectTested, target_onFd, target_onFd, target_setFlags]

theorem target_connectNow (c : Calls) (s : SocketState) (peer : SockAddr) :
    (s.connectNow c peer).2.target = s.target := by
  unfold connectNow
  split
  · exact target_onFd s _
  · exact target_onFd s _
  · rfl

theorem target_connect (net : Resolver) (c : Calls) (s : SocketState) (nPort : ℕ)
    (pszAddr : Option Str) (bBlock : Bool) :
    (s.connect net c nPort pszAddr bBlock).2.target = s.target := by
  unfold connect
  split
  · rfl
  · split
    · rfl
    · split
      · exact target_connectNow c s _
      · exact target_connectTimed c s _

/-- `prepare_to_client` remembers what it was called with, whatever becomes of it. -/
theorem target_prepareToClient (net : Resolver) (c : Calls) (s : SocketState) (nPort : ℕ)
    (pszAddr : Option Str) (bBlock : Bool) :
    (s.prepareToClient net c nPort pszAddr bBlock).2.target = (nPort, (pszAddr.getD []).take 15) := by
  have hcreate := target_createSocket c
    { s with port := nPort, addrBuf := (pszAddr.getD []).take 15 } .inet .stream
  unfold prepareToClient
  split
  · rename_i s' heq
    rw [heq] at hcreate
    exact hcreate
  · rename_i s' heq
    rw [heq] at hcreate
    have hconnect := target_connect net c s' nPort pszAddr bBlock
    split
    · rename_i s'' heq'
      rw [heq'] at hconnect
      exact hconnect.trans hcreate
    · rename_i s'' heq'
      rw [heq'] at hconnect
      exact (target_close s'').trans (hconnect.trans hcreate)

/-! ## One attempt -/

/-- An attempt that is taken for a connection. -/
def Connects (net : Resolver) (addr : Str) (c : Calls) : Prop :=
  c.creates .inet = true ∧ (net.hostAddr addr).isSome ∧
    (c.connect = .ok ∨ c.connect = .inProgress ∧ c.select ≠ .timeout ∧ c.soError = some 0)

/-- It is one: `select` has not failed. -/
def Established (c : Calls) : Prop :=
  c.connect = .ok ∨ c.select.isReady = true

/-- The socket has a descriptor beside those of `t`, with a connection to this port and host behind
    it if there is one. -/
def ConnectedTo (net : Resolver) (t : Descriptors SocketObject) (nPort : ℕ) (addr : Str) (c : Calls)
    (s : SocketState) : Prop :=
  ∃ sAddr o, net.hostAddr addr = some sAddr ∧ Owns t s o ∧
    (Established c → o.link = .connected (.inet (sinPort nPort) sAddr))

theorem socketFd_close (s : SocketState) : s.close.socketFd = none := by
  unfold close
  split
  · rename_i hfd
    exact hfd
  · rfl

theorem fds_close_of_invalid (h : s.socketFd = none) : s.close.fds = s.fds := by
  rw [close, h]

theorem retry_of_connects (h : Connects net s.addrBuf c) :
    ∃ s', s.retry net c = (true, s') ∧ ConnectedTo net s.close.fds s.port s.addrBuf c s' := by
  obtain ⟨hcreates, hhost, hconnect⟩ := h
  obtain ⟨sAddr, hsAddr⟩ := Option.isSome_iff_exists.mp hhost
  have hpeer : net.peerAddr (some s.addrBuf) = some sAddr := hsAddr
  obtain ⟨o, ⟨s', hs', howns⟩, hlink⟩ := prepareToClient_done net (socketFd_close s) s.port
    (some s.addrBuf) true hcreates
    (P := fun o => Established c → o.link = .connected (.inet (sinPort s.port) sAddr)) <| by
      intro s' o howns
      rw [connect_eq net hpeer, if_pos rfl]
      by_cases hestablished : c.connect = .ok ∨
          c.connect = .inProgress ∧ c.select.isReady = true ∧ c.soError = some 0
      · obtain ⟨o', hdone, hlink⟩ :=
          connectTimed_done howns (.inet (sinPort s.port) sAddr) hestablished
        exact ⟨o', hdone, fun _ => hlink⟩
      · obtain ⟨hok, hready⟩ := not_or.mp hestablished
        obtain ⟨hprogress, htimeout, herror⟩ := hconnect.resolve_left hok
        have hnot : ¬c.select.isReady = true := fun hready' => hready ⟨hprogress, hready', herror⟩
        have hselect : c.select = .failed := by
          cases hcase : c.select with
          | failed => rfl
          | timeout => exact absurd hcase htimeout
          | ready inRead inWrite hany =>
            rw [hcase] at hnot
            exact absurd rfl hnot
        obtain ⟨o', hdone, -⟩ :=
          connectTimed_misled howns (.inet (sinPort s.port) sAddr) hprogress hselect herror
        refine ⟨o', hdone, ?_⟩
        rintro (hok' | hready')
        · exact absurd hok' hok
        · exact absurd hready' hnot
  exact ⟨s', hs', sAddr, o, hsAddr, howns, hlink⟩

theorem retry_of_not_connects (h : ¬Connects net s.addrBuf c) :
    ∃ s', s.retry net c = (false, s') ∧ Clean s.close.fds s' := by
  refine prepareToClient_failed net (socketFd_close s) fun hcreates s' o howns => ?_
  cases hhost : net.hostAddr s.addrBuf with
  | none =>
    have hpeer : net.peerAddr (some s.addrBuf) = none := hhost
    rw [connect_unresolved net hpeer]
    exact ⟨_, rfl, howns.close⟩
  | some sAddr =>
    have hsome : (net.hostAddr s.addrBuf).isSome := by rw [hhost]; rfl
    have hpeer : net.peerAddr (some s.addrBuf) = some sAddr := hhost
    rw [connect_eq net hpeer, if_pos rfl]
    exact connectTimed_failed howns _ (fun hok => h ⟨hcreates, hsome, .inl hok⟩)
      (fun hprogress => h ⟨hcreates, hsome, .inr hprogress⟩)

/-- An attempt that fails keeps the address for the next one. -/
theorem retry_fails (hlen : s.addrBuf.length ≤ 15) (h : ¬Connects net s.addrBuf c) :
    ∃ s', s.retry net c = (false, s') ∧ Clean s.close.fds s' ∧ s'.port = s.port ∧
      s'.addrBuf = s.addrBuf := by
  obtain ⟨s', hretry, hclean⟩ := retry_of_not_connects h
  have htarget : (s.retry net c).2.target = (s.port, s.addrBuf) := by
    rw [retry, target_prepareToClient, Option.getD_some, List.take_of_length_le hlen]
  rw [hretry] at htarget
  obtain ⟨hport, haddr⟩ := Prod.mk.inj htarget
  exact ⟨s', hretry, hclean, hport, haddr⟩

/-! ## The loop -/

theorem owns_of_agree {t t' : Descriptors SocketObject} {o : SocketObject} (h : Owns t s o)
    (hagree : Descriptors.Agree t t') : Owns t' s o := by
  obtain ⟨fd, hfd, hlookup, ht⟩ := h
  exact ⟨fd, hfd, hlookup, ht.trans hagree⟩

theorem ConnectedTo.of_agree {t t' : Descriptors SocketObject} {nPort : ℕ} {addr : Str}
    (h : ConnectedTo net t nPort addr c s) (hagree : Descriptors.Agree t t') :
    ConnectedTo net t' nPort addr c s := by
  obtain ⟨sAddr, o, hhost, howns, hlink⟩ := h
  exact ⟨sAddr, o, hhost, owns_of_agree howns hagree, hlink⟩

/-- What has become of the loop. -/
inductive Reconnected (net : Resolver) (calls : ℕ → Calls) (retryCount : ℤ) (nCount : ℕ)
    (s : SocketState) : Bool × SocketState → Prop where
  /-- The first attempt that is taken for a connection ends it. -/
  | connected (k : ℕ) {s' : SocketState} (hfrom : nCount ≤ k)
    (hlimit : retryCount ≠ 0 → k ≤ retryCount.toNat)
    (hbefore : ∀ m, nCount ≤ m → m < k → ¬Connects net s.addrBuf (calls m))
    (hconnects : Connects net s.addrBuf (calls k))
    (hto : ConnectedTo net s.close.fds s.port s.addrBuf (calls k) s') :
    Reconnected net calls retryCount nCount s (true, s')
  /-- All attempts that there may be have failed. -/
  | gaveUp {s' : SocketState} (hlimit : retryCount ≠ 0)
    (hnone : ∀ k, nCount ≤ k → k ≤ retryCount.toNat → ¬Connects net s.addrBuf (calls k))
    (hclean : Clean s.close.fds s') : Reconnected net calls retryCount nCount s (false, s')

/-- The loop goes on behind an attempt that has failed. -/
theorem Reconnected.later {calls : ℕ → Calls} {retryCount : ℤ} {nCount : ℕ} {s s' : SocketState}
    {result : Bool × SocketState} (h : Reconnected net calls retryCount (nCount + 1) s' result)
    (hfails : ¬Connects net s.addrBuf (calls nCount)) (hport : s'.port = s.port)
    (haddr : s'.addrBuf = s.addrBuf) (hclean : Clean s.close.fds s') :
    Reconnected net calls retryCount nCount s result := by
  have hagree : Descriptors.Agree s'.close.fds s.close.fds := by
    rw [fds_close_of_invalid hclean.invalid]
    exact hclean.agree
  cases h with
  | connected k hfrom hlimit hbefore hconnects hto =>
    rw [haddr] at hconnects hto
    rw [hport] at hto
    refine .connected k (by omega) hlimit (fun m hm hmk => ?_) hconnects (hto.of_agree hagree)
    by_cases hfirst : m = nCount
    · rw [hfirst]
      exact hfails
    · rw [← haddr]
      exact hbefore m (by omega) hmk
  | gaveUp hlimit hnone hlast =>
    refine .gaveUp hlimit (fun k hk hle => ?_) ⟨hlast.invalid, hlast.agree.trans hagree⟩
    by_cases hfirst : k = nCount
    · rw [hfirst]
      exact hfails
    · rw [← haddr]
      exact hnone k (by omega) hle

theorem reconnectFrom_spec {calls : ℕ → Calls} {retryCount : ℤ} {fuel nCount : ℕ} {s : SocketState}
    {result : Bool × SocketState} (hlen : s.addrBuf.length ≤ 15)
    (hcount : retryCount ≠ 0 → nCount ≤ retryCount.toNat)
    (h : reconnectFrom net calls retryCount fuel nCount s = some result) :
    Reconnected net calls retryCount nCount s result := by
  induction fuel generalizing nCount s with
  | zero => cases h
  | succ fuel ih =>
    rw [reconnectFrom] at h
    by_cases hconnects : Connects net s.addrBuf (calls nCount)
    · obtain ⟨s', hretry, hto⟩ := retry_of_connects hconnects
      rw [hretry] at h
      cases h
      exact .connected nCount (Nat.le_refl _) hcount (fun m hm hlt => absurd hlt (by omega))
        hconnects hto
    · obtain ⟨s', hretry, hclean, hport, haddr⟩ := retry_fails hlen hconnects
      rw [hretry] at h
      dsimp only at h
      split at h
      · rename_i hstop
        cases h
        refine .gaveUp hstop.1 (fun k hk hle => ?_) hclean
        have hlast : k = nCount := by omega
        rw [hlast]
        exact hconnects
      · rename_i hgoes
        have hlen' : s'.addrBuf.length ≤ 15 := by
          rw [haddr]
          exact hlen
        exact (ih hlen' (fun hne => by omega) h).later hconnects hport haddr hclean

/-- The loop ends, with enough fuel for the attempts that it makes. -/
theorem reconnectFrom_isSome {calls : ℕ → Calls} {retryCount : ℤ} {fuel nCount : ℕ} {s : SocketState}
    (hlen : s.addrBuf.length ≤ 15)
    (h : (retryCount ≠ 0 ∧ retryCount.toNat < nCount + fuel) ∨
      ∃ k, nCount ≤ k ∧ k < nCount + fuel ∧ Connects net s.addrBuf (calls k))
    (hcount : retryCount ≠ 0 → nCount ≤ retryCount.toNat) :
    (reconnectFrom net calls retryCount fuel nCount s).isSome := by
  induction fuel generalizing nCount s with
  | zero =>
    rcases h with ⟨hne, hlt⟩ | ⟨k, hk, hlt, -⟩
    · have hle := hcount hne
      omega
    · omega
  | succ fuel ih =>
    rw [reconnectFrom]
    by_cases hconnects : Connects net s.addrBuf (calls nCount)
    · obtain ⟨s', hretry, -⟩ := retry_of_connects hconnects
      rw [hretry]
      rfl
    · obtain ⟨s', hretry, -, -, haddr⟩ := retry_fails hlen hconnects
      rw [hretry]
      dsimp only
      split
      · rfl
      · rename_i hgoes
        refine ih (by rw [haddr]; exact hlen) ?_ (fun hne => by omega)
        rcases h with ⟨hne, hlt⟩ | ⟨k, hk, hlt, hlater⟩
        · exact .inl ⟨hne, by omega⟩
        · refine .inr ⟨k, ?_, by omega, by rw [haddr]; exact hlater⟩
          have hne : k ≠ nCount := by
            rintro rfl
            exact hconnects hlater
          omega

/-- After a `prepare_to_client(nPort, addr)`, whatever has become of it, `reconnect` returns unless it
    may go on forever and no attempt is taken for a connection. It returns `true` exactly if one of the
    attempts that it may make is: then the socket has one descriptor and, unless `select` failed in this
    attempt, a connection to this port of the host that the first 15 characters of `addr` name. After
    `false` it has none. Nothing is left of the other attempts. -/
theorem reconnect_outcome (net : Resolver) (s₀ : SocketState) (c₀ : Calls) (nPort : ℕ) (addr : Str)
    (bBlock : Bool) (calls : ℕ → Calls) (retryCount : ℤ) :
    let s := (s₀.prepareToClient net c₀ nPort (some addr) bBlock).2
    let host := addr.take 15
    ((∃ fuel, (s.reconnect net calls retryCount fuel).isSome) ↔
        retryCount ≠ 0 ∨ ∃ k, Connects net host (calls k)) ∧
      ∀ fuel connected s', s.reconnect net calls retryCount fuel = some (connected, s') →
        (connected = true ↔
          ∃ k, (retryCount ≠ 0 → k ≤ retryCount.toNat) ∧ Connects net host (calls k)) ∧
        (connected = true → ∃ k, Connects net host (calls k) ∧
          (∀ m < k, ¬Connects net host (calls m)) ∧
          ConnectedTo net s.close.fds nPort host (calls k) s') ∧
        (connected = false → Clean s.close.fds s') := by
  intro s host
  have htarget : s.target = (nPort, host) := target_prepareToClient net c₀ s₀ nPort (some addr) bBlock
  obtain ⟨hport, haddr⟩ : s.port = nPort ∧ s.addrBuf = host := Prod.mk.inj htarget
  have hlen : s.addrBuf.length ≤ 15 := by
    rw [haddr]
    exact List.length_take_le 15 addr
  have hspec : ∀ fuel result, s.reconnect net calls retryCount fuel = some result →
      Reconnected net calls retryCount 0 s result :=
    fun fuel result h => reconnectFrom_spec hlen (fun _ => Nat.zero_le _) h
  refine ⟨⟨?_, ?_⟩, fun fuel connected s' h => ?_⟩
  · rintro ⟨fuel, hsome⟩
    obtain ⟨result, hresult⟩ := Option.isSome_iff_exists.mp hsome
    cases hspec fuel result hresult with
    | connected k _ _ _ hconnects _ => exact .inr ⟨k, haddr ▸ hconnects⟩
    | gaveUp hlimit _ _ => exact .inl hlimit
  · rintro (hlimit | ⟨k, hconnects⟩)
    · exact ⟨retryCount.toNat + 1,
        reconnectFrom_isSome hlen (.inl ⟨hlimit, by omega⟩) fun _ => Nat.zero_le _⟩
    · exact ⟨k + 1, reconnectFrom_isSome hlen
        (.inr ⟨k, Nat.zero_le _, by omega, haddr.symm ▸ hconnects⟩) fun _ => Nat.zero_le _⟩
  · cases hspec fuel _ h with
    | connected k _ hlimit hbefore hconnects hto =>
      rw [haddr] at hconnects hto
      rw [hport] at hto
      refine ⟨⟨fun _ => ⟨k, hlimit, hconnects⟩, fun _ => rfl⟩, fun _ => ⟨k, hconnects, fun m hm => ?_, hto⟩,
        fun hfalse => (by cases hfalse)⟩
      rw [← haddr]
      exact hbefore m (Nat.zero_le _) hm
    | gaveUp hlimit hnone hclean =>
      refine ⟨⟨fun hfalse => (by cases hfalse), ?_⟩, fun hfalse => (by cases hfalse), fun _ => hclean⟩
      rintro ⟨k, hk, hconnects⟩
      rw [← haddr] at hconnects
      exact absurd hconnects (hnone k (Nat.zero_le _) (hk hlimit))

/-- A host with a name of 20 characters, and another one with the first 15 of them: the first
    connection goes to the one, with the address 1, and the next one to the other. -/
theorem reconnect_outcome_cut :
    let net : Resolver := ⟨fun _ => none, fun name => some (if name.length = 15 then 2 else 1)⟩
    let c : Calls := ⟨true, true, true, true, true, true, true, .ok, .timeout, none⟩
    let s₀ : SocketState := ⟨[], none, .inet, [], 0, []⟩
    let addr : Str := List.replicate 20 97
    let s := (s₀.prepareToClient net c 80 (some addr) true).2
    (s.fds.lookup 0).map (·.link) = some (.connected (.inet 80 1)) ∧
      ∃ fuel s' o, s.reconnect net (fun _ => c) 1 fuel = some (true, s') ∧ Owns s.close.fds s' o ∧
        o.link = .connected (.inet 80 2) := by
  intro net c s₀ addr s
  obtain ⟨hends, hresult⟩ := reconnect_outcome net s₀ c 80 addr true (fun _ => c) 1
  obtain ⟨fuel, hsome⟩ := hends.mpr (.inl (by decide))
  obtain ⟨⟨connected, s'⟩, hrun⟩ := Option.isSome_iff_exists.mp hsome
  obtain ⟨hiff, hto, -⟩ := hresult fuel connected s' hrun
  have htrue : connected = true := hiff.mpr ⟨0, fun _ => Nat.zero_le _, rfl, rfl, .inl rfl⟩
  obtain ⟨k, -, -, sAddr, o, hhost, howns, hlink⟩ := hto htrue
  have hother : sAddr = 2 := (Option.some.inj hhost).symm
  rw [htrue] at hrun
  rw [hother] at hlink
  exact ⟨rfl, fuel, s', o, hrun, howns, hlink (.inl rfl)⟩

end SocketState

end Pdk.Net
