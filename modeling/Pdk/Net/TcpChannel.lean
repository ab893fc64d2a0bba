import Pdk.Foundation.Transition
import Pdk.Net.MemoryStream
import Pdk.Net.EventDefs

/-!
# `TcpChannel::thread_proc`

Model of the receive thread of `src/tcpserver.cpp`: an outer loop that receives a chunk and
appends it to a `MemoryStream`, and an inner loop that extracts packets from the front of the
stream and hands them to `OnAfterReceive`.

The state stands at one of the two loop heads. What the outside world decides is a label: that
the loop is left (`do_exit()`, a failed `recv`, or a socket that is gone) or which bytes `recv`
returned. Two things outside the program's control are parameters: the callback, and the memory
behind the data of the stream (`beyond`), which the inner loop reads when it looks at
`h.nMsgLen` of a packet whose header has not been received completely.
-/

namespace Pdk.Net

open Foundation

/-- `TCP_STATUS`. -/
inductive TcpStatus where
  | tcpMask
  | tcpConn
  | tcpPing
  | tcpPong
  | tcpDisc
  deriving DecidableEq, Repr

/-- An `OnAfterReceive` callback that changes at most the bytes of the packet it is given: for
    the `t`-th packet, the bytes it leaves in place of the ones it was given. -/
structure Callback where
  run : ℕ → List UInt8 → List UInt8
  /-- It neither grows nor shrinks the packet. -/
  length_run : ∀ t packet, (run t packet).length = packet.length

/-- A callback that only looks at its packet. -/
def Callback.readOnly : Callback := ⟨fun _ packet => packet, fun _ _ => rfl⟩

/-- What the receive thread reads of its `TcpServer`. -/
structure TcpServer where
  useEvent : Bool
  onAfterReceive : Option Callback

/-- A server in event mode with the callback set. -/
def eventServer (cb : Callback) : TcpServer := ⟨true, some cb⟩

/-- The two loop heads of `thread_proc`, and its end. -/
inductive ChannelPc where
  | receiving
  | extracting
  | exited
  deriving DecidableEq, Repr

/-- A channel with its receive thread. -/
structure TcpChannel where
  /-- `sock_` is not null. -/
  sock : Bool
  status : TcpStatus
  /-- `m_Stream`. -/
  stream : MemoryStream
  pc : ChannelPc
  /-- The packets handed to `OnAfterReceive`, as they stood before the call. -/
  delivered : List (List UInt8)
  /-- How often `h.nMsgLen` has been read; distinguishes the reads for `beyond`. -/
  reads : ℕ

/-- What happens at a loop head. -/
inductive ChannelAct where
  /-- The outer loop ends: `do_exit()`, no socket, or `recv` returned less than 1. -/
  | leave
  /-- `recv` returned these bytes. -/
  | recv (bytes : List UInt8)
  /-- One iteration of the inner loop. -/
  | iterate
  deriving DecidableEq, Repr

namespace TcpChannel

/-- The channel when its thread starts. -/
def start : TcpChannel :=
  ⟨true, .tcpConn, MemoryStream.empty, .receiving, [], 0⟩

/-- The body of the outer loop up to the inner loop. -/
def receive (srv : TcpServer) (ch : TcpChannel) (bytes : List UInt8) : Option TcpChannel :=
  if ch.pc = .receiving ∧ ch.sock = true ∧ 1 ≤ bytes.length ∧ bytes.length ≤ sizeofEventInfo then
    if srv.useEvent then
      (ch.stream.write bytes bytes.length).map fun r =>
        { ch with stream := r.2, pc := .extracting }
    else
      match srv.onAfterReceive with
      | none => some ch
      | some _ => some { ch with delivered := ch.delivered ++ [bytes] }
  else none

/-- The callback and the compaction at the end of the inner loop's body, for a packet of
    `nPkLen` bytes that leaves `nSize` bytes behind it. The copy moves the bytes as intended. -/
def handOver (srv : TcpServer) (ch : TcpChannel) (bytes : List UInt8) (nPkLen nSize : CInt) :
    TcpChannel :=
  let packet := bytes.take nPkLen.val.toNat
  let called := match srv.onAfterReceive with
    | none => ch
    | some cb => { ch with
        delivered := ch.delivered ++ [packet]
        stream := ch.stream.poke 0 (cb.run ch.reads packet) }
  let p := called.stream.buf
  let compacted :=
    if nSize.val > 0 then
      called.stream.poke 0 ((p.drop nPkLen.val.toNat).take nSize.val.toNat)
    else called.stream
  { called with stream := compacted.setSize nSize }

/-- The body of the inner loop. -/
def extract (srv : TcpServer) (beyond : ℕ → ℕ → UInt8) (ch : TcpChannel) : Option TcpChannel :=
  match ch.stream.data with
  | none => some { ch with pc := .receiving }
  | some bytes =>
    let nPkLen := nMsgLen (beyond ch.reads) bytes
    let ch := { ch with reads := ch.reads + 1 }
    if nPkLen.val < 1 then
      some { ch with sock := false, pc := .receiving }
    else do
      let (size, stream) ← ch.stream.getSize
      if nPkLen.val > size.val then
        return { ch with stream := stream, pc := .receiving }
      let (size, stream) ← stream.getSize
      let nSize ← addInt32 size.val (-nPkLen.val)
      return handOver srv { ch with stream := stream } bytes nPkLen nSize

/-- One step at a loop head. -/
def step (srv : TcpServer) (beyond : ℕ → ℕ → UInt8) (ch : TcpChannel) :
    ChannelAct → Option TcpChannel
  | .leave =>
    if ch.pc = .receiving then some { ch with pc := .exited, status := .tcpDisc } else none
  | .recv bytes => receive srv ch bytes
  | .iterate => if ch.pc = .extracting then extract srv beyond ch else none

/-- The receive thread as a machine. -/
def machine (srv : TcpServer) (beyond : ℕ → ℕ → UInt8) : Machine TcpChannel ChannelAct :=
  ⟨start, step srv beyond⟩

/-- The inner loop, cut off after `fuel` iterations. -/
def extractLoop (srv : TcpServer) (beyond : ℕ → ℕ → UInt8) : ℕ → TcpChannel → Option TcpChannel
  | 0, ch => some ch
  | fuel + 1, ch =>
    if ch.pc = .extracting then (extract srv beyond ch).bind (extractLoop srv beyond fuel)
    else some ch

/-- One turn of the outer loop: receive a chunk and extract what it completes. Without a socket
    nothing is received any more. -/
def onChunk (srv : TcpServer) (beyond : ℕ → ℕ → UInt8) (ch : TcpChannel) (bytes : List UInt8) :
    Option TcpChannel :=
  if ch.sock = true then
    (receive srv ch bytes).bind fun ch => extractLoop srv beyond (ch.stream.buf.length + 1) ch
  else some ch

/-- `TcpChannel::thread_proc` on a sequence of `recv` results. -/
def threadProc (srv : TcpServer) (beyond : ℕ → ℕ → UInt8) (chunks : List (List UInt8)) :
    Option TcpChannel :=
  chunks.foldlM (onChunk srv beyond) start

/-! ## One iteration of the inner loop

Everything the inner loop's body can do to a channel whose stream is positioned at its end: the
stream is used up, the packet is illegal, incomplete, or delivered. -/

/-- The bytes left by the callback and the compaction are the bytes behind the packet. -/
theorem handOver_eventServer (cb : Callback) (ch : TcpChannel) (nPkLen nSize : CInt)
    (hpos : ch.stream.pos.val = ch.stream.buf.length) (hlen : 0 ≤ nPkLen.val)
    (hsize : nSize.val = ch.stream.buf.length - nPkLen.val) (h0 : 0 ≤ nSize.val) :
    ∃ stream, handOver (eventServer cb) ch ch.stream.buf nPkLen nSize =
        { ch with
          stream := stream
          delivered := ch.delivered ++ [ch.stream.buf.take nPkLen.val.toNat] } ∧
      stream.buf = ch.stream.buf.drop nPkLen.val.toNat ∧
      stream.pos.val = stream.buf.length := by
  -- the callback leaves the length of the stream and the bytes behind the packet alone
  generalize hk : nPkLen.val.toNat = k
  have hk' : k ≤ ch.stream.buf.length := by omega
  generalize hp : cb.run ch.reads (ch.stream.buf.take k) = packet
  have hplen : packet.length = k := by
    rw [← hp, cb.length_run, List.length_take]
    omega
  have hpoke : Bytes.overwrite ch.stream.buf 0 packet = packet ++ ch.stream.buf.drop k := by
    rw [Bytes.overwrite_zero (by omega), hplen]
  -- cutting any stream of that length whose first bytes are those behind the packet
  have hcut : ∀ m : MemoryStream, m.pos = ch.stream.pos →
      m.buf.length = ch.stream.buf.length →
      m.buf.take nSize.val.toNat = ch.stream.buf.drop k →
      (m.setSize nSize).buf = ch.stream.buf.drop k ∧
        (m.setSize nSize).pos.val = (m.setSize nSize).buf.length := by
    intro m hmpos hmlen hmbuf
    obtain ⟨hbuf, hend⟩ := MemoryStream.setSize_at_end (s := m) (n := nSize)
      (by rw [hmpos, hmlen]; exact hpos) h0 (by rw [hmlen]; omega)
    exact ⟨hbuf.trans hmbuf, hend⟩
  simp only [handOver, eventServer, hk, hp]
  refine ⟨_, rfl, ?_⟩
  split
  · have hrest : (((ch.stream.poke 0 packet).buf.drop k).take nSize.val.toNat) =
        ch.stream.buf.drop k := by
      rw [MemoryStream.buf_poke, hpoke, List.drop_left' hplen, List.take_of_length_le]
      rw [List.length_drop]
      omega
    rw [hrest]
    apply hcut
    · rfl
    · simp
    · rw [MemoryStream.buf_poke, Bytes.overwrite_zero, List.take_left']
      · rw [List.length_drop]
        omega
      · rw [List.length_drop, MemoryStream.buf_poke, Bytes.length_overwrite]
        omega
  · apply hcut
    · rfl
    · simp
    · rw [List.drop_of_length_le (by omega), show nSize.val.toNat = 0 by omega, List.take_zero]

/-- What `extract` does, by cases. -/
inductive Extracted (beyond : ℕ → ℕ → UInt8) (ch : TcpChannel) : TcpChannel → Prop where
  /-- The stream is empty. -/
  | done (hbuf : ch.stream.buf = []) : Extracted beyond ch { ch with pc := .receiving }
  /-- The length is illegal: the connection is dropped. -/
  | dropped (hbuf : ch.stream.buf ≠ [])
      (hlen : (nMsgLen (beyond ch.reads) ch.stream.buf).val < 1) :
      Extracted beyond ch { ch with reads := ch.reads + 1, sock := false, pc := .receiving }
  /-- The packet is not complete. -/
  | waiting (hbuf : ch.stream.buf ≠ [])
      (hpos : 1 ≤ (nMsgLen (beyond ch.reads) ch.stream.buf).val)
      (hlen : ch.stream.buf.length < (nMsgLen (beyond ch.reads) ch.stream.buf).val) :
      Extracted beyond ch { ch with reads := ch.reads + 1, pc := .receiving }
  /-- A packet of `n` bytes is delivered and removed. -/
  | delivered (n : ℕ) (hn : (nMsgLen (beyond ch.reads) ch.stream.buf).val = n) (hpos : 1 ≤ n)
      (hlen : n ≤ ch.stream.buf.length) (stream : MemoryStream)
      (hbuf : stream.buf = ch.stream.buf.drop n) (hend : stream.pos.val = stream.buf.length) :
      Extracted beyond ch
        { ch with
          reads := ch.reads + 1
          stream := stream
          delivered := ch.delivered ++ [ch.stream.buf.take n] }

/-- **Specification of the inner loop's body.** -/
theorem extract_spec (cb : Callback) (beyond : ℕ → ℕ → UInt8) {ch : TcpChannel}
    (hpos : ch.stream.pos.val = ch.stream.buf.length) :
    ∃ ch', extract (eventServer cb) beyond ch = some ch' ∧ Extracted beyond ch ch' := by
  unfold extract
  cases hdata : ch.stream.data with
  | none => exact ⟨_, rfl, .done (MemoryStream.data_eq_none.mp hdata)⟩
  | some bytes =>
    obtain ⟨rfl, hne⟩ := MemoryStream.data_eq_some hdata
    simp only
    by_cases hneg : (nMsgLen (beyond ch.reads) ch.stream.buf).val < 1
    · rw [if_pos hneg]
      exact ⟨_, rfl, .dropped hne hneg⟩
    · rw [if_neg hneg]
      simp only [MemoryStream.getSize_eq, Option.bind_eq_bind, Option.bind_some]
      by_cases hbig : (nMsgLen (beyond ch.reads) ch.stream.buf).val > ch.stream.buf.length
      · rw [if_pos hbig]
        exact ⟨_, rfl, .waiting hne (by omega) hbig⟩
      · rw [if_neg hbig]
        have hsize := ch.stream.size_le
        have hbounds : int32Min ≤ (ch.stream.buf.length : ℤ) +
              -(nMsgLen (beyond ch.reads) ch.stream.buf).val ∧
            (ch.stream.buf.length : ℤ) + -(nMsgLen (beyond ch.reads) ch.stream.buf).val ≤
              int32Max := by
          simp only [int32Min] at *
          omega
        rw [addInt32_of_bounds hbounds]
        obtain ⟨stream, heq, hbuf, hend⟩ := handOver_eventServer cb
          { ch with reads := ch.reads + 1 } (nMsgLen (beyond ch.reads) ch.stream.buf) ⟨_, hbounds⟩
          hpos (by omega) (by simp only; omega) (by simp only; omega)
        refine ⟨_, congrArg some heq, ?_⟩
        exact .delivered _ (by omega) (by omega) (by omega) stream hbuf hend

/-- Appending a chunk to a stream that is positioned at its end. -/
theorem receive_spec (cb : Callback) {ch : TcpChannel} {bytes : List UInt8}
    (hpos : ch.stream.pos.val = ch.stream.buf.length) (hpc : ch.pc = .receiving)
    (hsock : ch.sock = true) (hlen : 1 ≤ bytes.length ∧ bytes.length ≤ sizeofEventInfo)
    (hfits : (ch.stream.buf.length : ℤ) + bytes.length ≤ int32Max) :
    ∃ stream, receive (eventServer cb) ch bytes =
        some { ch with stream := stream, pc := .extracting } ∧
      stream.buf = ch.stream.buf ++ bytes ∧ stream.pos.val = stream.buf.length := by
  have hne : bytes ≠ [] := List.length_pos_iff.mp hlen.1
  obtain ⟨stream, hw, hbuf, hend⟩ := MemoryStream.write_at_end hpos hne hfits
  refine ⟨stream, ?_, hbuf, hend⟩
  rw [receive, if_pos ⟨hpc, hsock, hlen⟩]
  simp [eventServer, hw]

/-- A chunk that was received was received by a thread that waits for one, and did not make the
    sizes overflow. -/
theorem receive_inv {cb : Callback} {ch ch' : TcpChannel} {bytes : List UInt8}
    (hpos : ch.stream.pos.val = ch.stream.buf.length)
    (h : receive (eventServer cb) ch bytes = some ch') :
    ch.pc = .receiving ∧ ch.sock = true ∧
      (1 ≤ bytes.length ∧ bytes.length ≤ sizeofEventInfo) ∧
      (ch.stream.buf.length : ℤ) + bytes.length ≤ int32Max := by
  rw [receive] at h
  split at h
  · rename_i hguard
    obtain ⟨hpc, hsock, hlen⟩ := hguard
    refine ⟨hpc, hsock, hlen, ?_⟩
    simp only [eventServer, if_true] at h
    obtain ⟨r, hr, -⟩ := Option.map_eq_some_iff.mp h
    exact MemoryStream.fits_of_write hpos (List.length_pos_iff.mp hlen.1) hr
  · cases h

end TcpChannel

end Pdk.Net
