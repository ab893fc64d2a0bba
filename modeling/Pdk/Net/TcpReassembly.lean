import Pdk.Foundation.Framing
import Pdk.Net.TcpChannel

/-!
# TCP reassembly

What the receive thread does to the bytes of a connection.

- **Conservation**: at every loop head the packets delivered so far followed by the contents of
  the stream are the bytes received so far, and the inner loop always comes to an end.
- **Framing**: the packets and the drop decision are those of the reference framing, which reads
  the length of a packet once its first eight bytes are there, exactly for the streams that are
  never cut inside these bytes.
-/

namespace Pdk.Net

open Foundation

/-! ## Reference framing -/

/-- The decision of the reference framing: wait for the eight bytes that hold the length, then
    for as many bytes as it says; a length below 1 is illegal. -/
def referenceVerdict (bs : List UInt8) : Verdict :=
  if bs.length < msgLenEnd then .more
  else
    let n := (nMsgLen (fun _ => 0) bs).val
    if n < 1 then .drop else if n > bs.length then .more else .packet n.toNat

/-- The reference framing of a byte stream into event packets. -/
def reference : Framer UInt8 where
  verdict := referenceVerdict
  packet_bounds := by
    intro bs n h
    simp only [referenceVerdict] at h
    split at h
    · cases h
    · split at h
      · cases h
      · split at h
        · cases h
        · cases h
          omega
  stable := by
    intro bs c h
    simp only [referenceVerdict] at h ⊢
    split at h
    · exact absurd rfl h
    · rename_i hlong
      have hlong' : ¬ (bs ++ c).length < msgLenEnd := by
        rw [List.length_append]
        omega
      rw [if_neg hlong, if_neg hlong', nMsgLen_append (by omega) _ (fun _ => 0)]
      split at h
      · rename_i hneg
        rw [if_pos hneg, if_pos hneg]
      · rename_i hneg
        split at h
        · exact absurd rfl h
        · rename_i hle
          have hle' : ¬ (nMsgLen (fun _ => 0) bs).val > (bs ++ c).length := by
            rw [List.length_append]
            omega
          rw [if_neg hneg, if_neg hneg, if_neg hle, if_neg hle']

/-- Fewer than eight bytes decide nothing. -/
theorem reference_short {bs : List UInt8} (h : bs.length < msgLenEnd) :
    reference.verdict bs = .more := by
  simp only [reference, referenceVerdict, if_pos h]

/-- The framing of the empty stream. -/
theorem reference_nil : reference.frames [] = ⟨[], some []⟩ :=
  Framer.frames_more (reference_short (by decide))

/-- From eight bytes on, the decision is read off the length, whatever lies behind the data. -/
theorem reference_long {bs : List UInt8} (h : msgLenEnd ≤ bs.length) (beyond : ℕ → UInt8) :
    reference.verdict bs =
      if (nMsgLen beyond bs).val < 1 then .drop
      else if (nMsgLen beyond bs).val > bs.length then .more
      else .packet (nMsgLen beyond bs).val.toNat := by
  simp only [reference, referenceVerdict, if_neg (Nat.not_lt.mpr h), nMsgLen_congr h beyond fun _ => 0]

/-- A decision needs the first eight bytes. -/
theorem long_of_verdict {bs : List UInt8} (h : reference.verdict bs ≠ .more) :
    msgLenEnd ≤ bs.length := by
  by_contra hshort
  exact h (reference_short (by omega))

namespace TcpChannel

/-! ## Conservation of bytes -/

/-- The chunks that the thread received in a run. -/
def received (acts : List ChannelAct) : List (List UInt8) :=
  acts.filterMap fun
    | .recv bytes => some bytes
    | _ => none

theorem received_append (acts acts' : List ChannelAct) :
    received (acts ++ acts') = received acts ++ received acts' :=
  List.filterMap_append

/-- The bytes `bs` have been received, and none of them is lost, duplicated or reordered; the
    next chunk will be appended. -/
structure Holds (bs : List UInt8) (ch : TcpChannel) : Prop where
  /-- Delivered packets and stream contents make up the received bytes. -/
  bytes : ch.delivered.flatten ++ ch.stream.buf = bs
  /-- The stream is positioned at its end. -/
  atEnd : ch.stream.pos.val = ch.stream.buf.length

/-- An iteration of the inner loop moves bytes from the stream to a packet, nothing else. -/
theorem Holds.extracted {bs : List UInt8} {beyond : ℕ → ℕ → UInt8} {ch ch' : TcpChannel}
    (h : Holds bs ch) (he : Extracted beyond ch ch') : Holds bs ch' := by
  cases he with
  | done hbuf => exact ⟨h.bytes, h.atEnd⟩
  | dropped hbuf hlen => exact ⟨h.bytes, h.atEnd⟩
  | waiting hbuf hpos hlen => exact ⟨h.bytes, h.atEnd⟩
  | delivered n hn hpos hlen stream hbuf hend =>
    refine ⟨?_, hend⟩
    simp only [List.flatten_append, List.flatten_singleton]
    rw [hbuf, List.append_assoc, List.take_append_drop]
    exact h.bytes

/-- Receiving a chunk appends it to the stream. -/
theorem Holds.receive {bs bytes : List UInt8} {cb : Callback} {ch ch' : TcpChannel}
    (h : Holds bs ch) (hr : TcpChannel.receive (eventServer cb) ch bytes = some ch') :
    Holds (bs ++ bytes) ch' := by
  obtain ⟨hpc, hsock, hlen, hfits⟩ := receive_inv h.atEnd hr
  obtain ⟨stream, heq, hbuf, hend⟩ := receive_spec cb h.atEnd hpc hsock hlen hfits
  rw [hr] at heq
  cases heq
  refine ⟨?_, hend⟩
  rw [← h.bytes, List.append_assoc]
  exact congrArg _ hbuf

/-- Every step of the thread conserves the bytes. -/
theorem Holds.step {acts : List ChannelAct} {a : ChannelAct} {cb : Callback}
    {beyond : ℕ → ℕ → UInt8} {ch ch' : TcpChannel} (h : Holds (received acts).flatten ch)
    (hstep : (machine (eventServer cb) beyond).step ch a = some ch') :
    Holds (received (acts ++ [a])).flatten ch' := by
  rw [received_append, List.flatten_append]
  cases a with
  | leave =>
    rw [show received [.leave] = [] from rfl, List.flatten_nil, List.append_nil]
    simp only [machine, TcpChannel.step] at hstep
    split at hstep
    · cases hstep
      exact ⟨h.bytes, h.atEnd⟩
    · cases hstep
  | recv bytes =>
    rw [show received [.recv bytes] = [bytes] from rfl, List.flatten_singleton]
    exact h.receive hstep
  | iterate =>
    rw [show received [.iterate] = [] from rfl, List.flatten_nil, List.append_nil]
    simp only [machine, TcpChannel.step] at hstep
    split at hstep
    · obtain ⟨ch₁, heq, he⟩ := extract_spec cb beyond h.atEnd
      rw [hstep] at heq
      cases heq
      exact h.extracted he
    · cases hstep

/-- The bytes are conserved in every run. -/
theorem holds_of_run {acts : List ChannelAct} {cb : Callback} {beyond : ℕ → ℕ → UInt8}
    {ch : TcpChannel}
    (h : (machine (eventServer cb) beyond).run start acts = some ch) :
    Holds (received acts).flatten ch := by
  refine Machine.run_history (M := machine (eventServer cb) beyond)
    (P := fun acts ch => Holds (received acts).flatten ch) ?_ ?_ h
  · exact ⟨rfl, rfl⟩
  · intro acts ch a ch' hh hstep
    exact hh.step hstep

/-! ## The inner loop comes to an end -/

/-- Where the inner loop stops: the stream is used up, the connection is dropped, or the packet
    at the front is longer than the stream. -/
def Stuck (beyond : ℕ → ℕ → UInt8) (ch : TcpChannel) : Prop :=
  ch.stream.buf = [] ∨ ch.sock = false ∨
    ∃ t, (ch.stream.buf.length : ℤ) < (nMsgLen (beyond t) ch.stream.buf).val

/-- An iteration either ends the loop or makes the stream shorter. -/
theorem Extracted.progress {beyond : ℕ → ℕ → UInt8} {ch ch' : TcpChannel}
    (he : Extracted beyond ch ch') :
    (ch'.pc = .receiving ∧ Stuck beyond ch') ∨
      (ch'.pc = ch.pc ∧ ch'.stream.buf.length < ch.stream.buf.length) := by
  cases he with
  | done hbuf => exact .inl ⟨rfl, .inl hbuf⟩
  | dropped hbuf hlen => exact .inl ⟨rfl, .inr (.inl rfl)⟩
  | waiting hbuf hpos hlen => exact .inl ⟨rfl, .inr (.inr ⟨ch.reads, hlen⟩)⟩
  | delivered n hn hpos hlen stream hbuf hend =>
    refine .inr ⟨rfl, ?_⟩
    simp only [hbuf, List.length_drop]
    omega

/-- A thread that is back at the outer loop does not iterate any more. -/
theorem extractLoop_receiving {srv : TcpServer} {beyond : ℕ → ℕ → UInt8} {ch : TcpChannel}
    (hpc : ch.pc = .receiving) (fuel : ℕ) : extractLoop srv beyond fuel ch = some ch := by
  cases fuel with
  | zero => rfl
  | succ fuel => rw [extractLoop, if_neg (by rw [hpc]; decide)]

/-- **Termination of the inner loop**: one iteration more than there are bytes is enough. The
    loop with fuel is the run of the machine that iterates until the thread receives again. -/
theorem extractLoop_terminates (cb : Callback) (beyond : ℕ → ℕ → UInt8) {bs : List UInt8}
    {fuel : ℕ} {ch : TcpChannel} (h : Holds bs ch) (hpc : ch.pc = .extracting)
    (hfuel : ch.stream.buf.length < fuel) :
    ∃ n ch', n ≤ fuel ∧ extractLoop (eventServer cb) beyond fuel ch = some ch' ∧
      (machine (eventServer cb) beyond).run ch (List.replicate n .iterate) = some ch' ∧
      ch'.pc = .receiving ∧ Holds bs ch' ∧ Stuck beyond ch' := by
  induction fuel generalizing ch with
  | zero => omega
  | succ fuel ih =>
    obtain ⟨ch₁, heq, he⟩ := extract_spec cb beyond h.atEnd
    have hiter : (machine (eventServer cb) beyond).step ch .iterate = some ch₁ := by
      simp only [machine, TcpChannel.step, if_pos hpc, heq]
    rw [extractLoop, if_pos hpc, heq, Option.bind_some]
    rcases he.progress with ⟨hpc₁, hstuck⟩ | ⟨hpc₁, hshort⟩
    · refine ⟨1, ch₁, by omega, extractLoop_receiving hpc₁ fuel, ?_, hpc₁, h.extracted he, hstuck⟩
      rw [List.replicate_one, Machine.run_cons, hiter]
      rfl
    · obtain ⟨n, ch', hn, hloop, hrun, hrest⟩ :=
        ih (h.extracted he) (hpc₁.trans hpc) (by omega)
      refine ⟨n + 1, ch', by omega, hloop, ?_, hrest⟩
      rw [List.replicate_succ, Machine.run_cons, hiter]
      exact hrun

/-- **No byte is lost, duplicated or reordered.** In every state that the receive thread reaches,
    for any chunks, any memory behind the data and any callback, the delivered packets followed by
    the stream are the bytes received; the position is at the end of the stream, so that the next
    chunk is appended; and the inner loop, if the thread is in it, ends after at most one iteration
    more than the stream has bytes. -/
theorem reassembly_conserves (cb : Callback) (beyond : ℕ → ℕ → UInt8) (acts : List ChannelAct)
    (ch : TcpChannel) (hrun : (machine (eventServer cb) beyond).run start acts = some ch) :
    ch.delivered.flatten ++ ch.stream.buf = (received acts).flatten ∧
      ch.stream.pos.val = ch.stream.buf.length ∧
      (ch.pc = .extracting → ∃ n ch', n ≤ ch.stream.buf.length + 1 ∧
        (machine (eventServer cb) beyond).run ch (List.replicate n .iterate) = some ch' ∧
        ch'.pc = .receiving) := by
  have h := holds_of_run hrun
  refine ⟨h.bytes, h.atEnd, fun hpc => ?_⟩
  obtain ⟨n, ch', hn, -, hiter, hrec, -⟩ :=
    extractLoop_terminates cb beyond h hpc (Nat.lt_succ_self _)
  exact ⟨n, ch', hn, hiter, hrec⟩

/-- A run that delivers one packet of eight bytes. -/
theorem reassembly_conserves_one_packet :
    ∃ ch, (machine (eventServer .readOnly) fun _ _ => 0).run start
        [.recv [1, 2, 3, 4, 8], .iterate, .recv [0, 0, 0], .iterate, .iterate] = some ch ∧
      ch.delivered.flatten ++ ch.stream.buf = [1, 2, 3, 4, 8, 0, 0, 0] ∧
      ch.stream.pos.val = ch.stream.buf.length := by
  obtain ⟨ch, hrun⟩ := Option.isSome_iff_exists.mp
    (show ((machine (eventServer .readOnly) fun _ _ => 0).run start
      [.recv [1, 2, 3, 4, 8], .iterate, .recv [0, 0, 0], .iterate, .iterate]).isSome = true by decide)
  obtain ⟨hbytes, hend, -⟩ := reassembly_conserves _ _ _ ch hrun
  exact ⟨ch, hrun, hbytes, hend⟩

/-! ## Agreement with the reference framing -/

/-- The receive thread meets the reference framing on a sequence of chunks: after every chunk,
    for any callback and any memory behind the data, it has delivered the packets of the
    reference framing of the bytes received so far, and has dropped the connection exactly if
    the reference framing has. -/
def MeetsReference (chunks : List (List UInt8)) : Prop :=
  ∀ (cb : Callback) (beyond : ℕ → ℕ → UInt8) (k : ℕ), k ≤ chunks.length →
    ∃ ch, threadProc (eventServer cb) beyond (chunks.take k) = some ch ∧
      ch.delivered = (reference.frames (chunks.take k).flatten).packets ∧
      (ch.sock = false ↔ (reference.frames (chunks.take k).flatten).rest = none)

/-- No chunk ends between the first and the eighth byte of a packet. -/
def HeadersUncut (chunks : List (List UInt8)) : Prop :=
  ∀ k ≤ chunks.length, ∀ r, (reference.frames (chunks.take k).flatten).rest = some r →
    r = [] ∨ msgLenEnd ≤ r.length

/-- The bytes that wait for the rest of their packet, together with the next chunk, never exceed
    the largest `int32_t`. -/
def SizesFit (chunks : List (List UInt8)) : Prop :=
  ∀ k (hk : k < chunks.length), ∀ r, (reference.frames (chunks.take k).flatten).rest = some r →
    (r.length : ℤ) + (chunks.get ⟨k, hk⟩).length ≤ int32Max

/-- The thread is where the reference framing of the bytes received so far is. -/
structure InSync (bs : List UInt8) (ch : TcpChannel) : Prop where
  packets : ch.delivered = (reference.frames bs).packets
  /-- As long as the stream is legal, the thread waits with the same bytes. -/
  live : ∀ r, (reference.frames bs).rest = some r →
    ch.sock = true ∧ ch.pc = .receiving ∧ ch.stream.buf = r ∧ ch.stream.pos.val = r.length
  dropped : (reference.frames bs).rest = none → ch.sock = false

/-- With the first eight bytes of the packet there, an iteration of the inner loop follows the
    verdict of the reference framing. -/
theorem Extracted.reference {beyond : ℕ → ℕ → UInt8} {ch ch' : TcpChannel}
    (he : Extracted beyond ch ch') (hlong : msgLenEnd ≤ ch.stream.buf.length) :
    match reference.verdict ch.stream.buf with
    | .more => ch' = { ch with reads := ch.reads + 1, pc := .receiving }
    | .drop => ch' = { ch with reads := ch.reads + 1, sock := false, pc := .receiving }
    | .packet n => ∃ stream, stream.buf = ch.stream.buf.drop n ∧
        stream.pos.val = stream.buf.length ∧
        ch' = { ch with
          reads := ch.reads + 1
          stream := stream
          delivered := ch.delivered ++ [ch.stream.buf.take n] } := by
  rw [reference_long hlong (beyond ch.reads)]
  cases he with
  | done hnil =>
    rw [hnil] at hlong
    cases hlong
  | dropped hne hneg => rw [if_pos hneg]
  | waiting hne hpos hlen => rw [if_neg (by omega), if_pos hlen]
  | delivered n hn hpos hlen stream hbuf hend =>
    rw [if_neg (by omega), if_neg (by omega), hn, Int.toNat_natCast]
    exact ⟨stream, hbuf, hend, rfl⟩

/-- **The inner loop against the reference**: on a stream that does not leave an incomplete
    header behind, the inner loop delivers the packets of the reference framing and stops where
    it stops. -/
theorem extractLoop_reference (cb : Callback) (beyond : ℕ → ℕ → UInt8) (bs : List UInt8)
    (fuel : ℕ) (ch : TcpChannel) (hbuf : ch.stream.buf = bs)
    (hend : ch.stream.pos.val = ch.stream.buf.length) (hpc : ch.pc = .extracting)
    (hfuel : bs.length < fuel)
    (huncut : ∀ r, (reference.frames bs).rest = some r → r = [] ∨ msgLenEnd ≤ r.length) :
    ∃ ch', extractLoop (eventServer cb) beyond fuel ch = some ch' ∧
      ch'.delivered = ch.delivered ++ (reference.frames bs).packets ∧
      (∀ r, (reference.frames bs).rest = some r → ch'.sock = ch.sock ∧ ch'.pc = .receiving ∧
        ch'.stream.buf = r ∧ ch'.stream.pos.val = r.length) ∧
      ((reference.frames bs).rest = none → ch'.sock = false) := by
  induction bs using reference.frames_induction generalizing fuel ch with
  | more bs hv =>
    subst hbuf
    rw [Framer.frames_more hv] at huncut ⊢
    obtain ⟨ch₁, heq, he⟩ := extract_spec cb beyond hend
    obtain ⟨fuel, rfl⟩ : ∃ f, fuel = f + 1 := ⟨fuel - 1, by omega⟩
    rw [extractLoop, if_pos hpc, heq, Option.bind_some]
    -- either nothing is left, or the header is there and the packet is incomplete
    have hkeep : ch₁.delivered = ch.delivered ∧ ch₁.sock = ch.sock ∧ ch₁.pc = .receiving ∧
        ch₁.stream = ch.stream := by
      rcases huncut _ rfl with hnil | hlong
      · cases he with
        | done _ => exact ⟨rfl, rfl, rfl, rfl⟩
        | dropped hne _ => exact absurd hnil hne
        | waiting hne _ _ => exact absurd hnil hne
        | delivered n _ hpos hlen _ _ _ =>
          rw [hnil, List.length_nil] at hlen
          omega
      · have hcase := he.reference hlong
        rw [hv] at hcase
        subst hcase
        exact ⟨rfl, rfl, rfl, rfl⟩
    obtain ⟨hdel, hsock, hrec, hstream⟩ := hkeep
    refine ⟨ch₁, extractLoop_receiving hrec fuel, by simp [hdel], ?_, fun h => by cases h⟩
    rintro r ⟨⟩
    rw [hstream]
    exact ⟨hsock, hrec, rfl, hend⟩
  | drop bs hv =>
    subst hbuf
    rw [Framer.frames_drop hv]
    obtain ⟨ch₁, heq, he⟩ := extract_spec cb beyond hend
    obtain ⟨fuel, rfl⟩ : ∃ f, fuel = f + 1 := ⟨fuel - 1, by omega⟩
    rw [extractLoop, if_pos hpc, heq, Option.bind_some]
    have hcase := he.reference (long_of_verdict (by rw [hv]; decide))
    rw [hv] at hcase
    subst hcase
    exact ⟨_, extractLoop_receiving rfl fuel, by simp, fun r h => (by cases h), fun _ => rfl⟩
  | packet bs n hv ih =>
    subst hbuf
    have hb := reference.packet_bounds _ n hv
    rw [Framer.frames_packet hv] at huncut ⊢
    obtain ⟨ch₁, heq, he⟩ := extract_spec cb beyond hend
    obtain ⟨fuel, rfl⟩ : ∃ f, fuel = f + 1 := ⟨fuel - 1, by omega⟩
    rw [extractLoop, if_pos hpc, heq, Option.bind_some]
    have hcase := he.reference (long_of_verdict (by rw [hv]; exact Verdict.noConfusion))
    rw [hv] at hcase
    obtain ⟨stream, hsbuf, hsend, rfl⟩ := hcase
    obtain ⟨ch', hloop, hdel, hlive, hdrop⟩ := ih fuel
      { ch with
        reads := ch.reads + 1
        stream := stream
        delivered := ch.delivered ++ [ch.stream.buf.take n] }
      hsbuf hsend hpc (by rw [List.length_drop]; omega) huncut
    refine ⟨ch', hloop, ?_, hlive, hdrop⟩
    rw [hdel]
    simp

/-- One more chunk keeps the thread in step with the reference framing. -/
theorem InSync.onChunk {bs bytes : List UInt8} {ch : TcpChannel} (h : InSync bs ch)
    (cb : Callback) (beyond : ℕ → ℕ → UInt8)
    (hlen : 1 ≤ bytes.length ∧ bytes.length ≤ sizeofEventInfo)
    (hfits : ∀ r, (reference.frames bs).rest = some r →
      (r.length : ℤ) + bytes.length ≤ int32Max)
    (huncut : ∀ r, (reference.frames (bs ++ bytes)).rest = some r →
      r = [] ∨ msgLenEnd ≤ r.length) :
    ∃ ch', TcpChannel.onChunk (eventServer cb) beyond ch bytes = some ch' ∧
      InSync (bs ++ bytes) ch' := by
  cases hrest : (reference.frames bs).rest with
  | none =>
    -- after a drop nothing is received, and the reference framing stays where it is
    have hsock := h.dropped hrest
    refine ⟨ch, by rw [TcpChannel.onChunk, if_neg (by rw [hsock]; decide)], ?_⟩
    have hsame := Framer.frames_append_dropped bytes hrest
    exact ⟨by rw [hsame]; exact h.packets, by rw [hsame]; exact h.live,
      by rw [hsame]; exact h.dropped⟩
  | some r =>
    obtain ⟨hsock, hpc, hbuf, hpos⟩ := h.live r hrest
    have hnext := Framer.frames_append_rest bytes hrest
    have hend : ch.stream.pos.val = ch.stream.buf.length := by rw [hbuf]; exact hpos
    obtain ⟨stream, hrecv, hsbuf, hsend⟩ := receive_spec cb hend hpc hsock hlen
      (by rw [hbuf]; exact hfits r hrest)
    rw [hbuf] at hsbuf
    obtain ⟨ch', hloop, hdel, hlive, hdrop⟩ := extractLoop_reference cb beyond (r ++ bytes)
      (stream.buf.length + 1) { ch with stream := stream, pc := .extracting } hsbuf hsend rfl
      (by rw [hsbuf]; exact Nat.lt_succ_self _)
      (by rw [hnext] at huncut; exact huncut)
    refine ⟨ch', ?_, ?_, ?_, ?_⟩
    · rw [TcpChannel.onChunk, if_pos hsock, hrecv]
      exact hloop
    · rw [hdel, hnext, h.packets]
    · rw [hnext]
      intro r' hr'
      obtain ⟨hsock', hrest'⟩ := hlive r' hr'
      exact ⟨hsock'.trans hsock, hrest'⟩
    · rw [hnext]
      exact hdrop

/-- The thread on one chunk more. -/
theorem threadProc_concat (srv : TcpServer) (beyond : ℕ → ℕ → UInt8)
    (chunks : List (List UInt8)) (bytes : List UInt8) :
    threadProc srv beyond (chunks ++ [bytes]) =
      (threadProc srv beyond chunks).bind (onChunk srv beyond · bytes) := by
  rw [threadProc, List.foldlM_append]
  simp only [List.foldlM_cons, List.foldlM_nil, bind_pure]
  rfl

/-- The chunks up to the next one. -/
theorem take_succ_get (chunks : List (List UInt8)) {k : ℕ} (hk : k < chunks.length) :
    chunks.take (k + 1) = chunks.take k ++ [chunks.get ⟨k, hk⟩] :=
  List.take_succ_eq_append_getElem hk

/-- **Sufficiency**: with no header cut and no size overflowing, the thread stays in step with
    the reference framing. -/
theorem inSync_of_uncut {chunks : List (List UInt8)}
    (hchunks : ∀ c ∈ chunks, 1 ≤ c.length ∧ c.length ≤ sizeofEventInfo)
    (huncut : HeadersUncut chunks) (hfit : SizesFit chunks)
    (cb : Callback) (beyond : ℕ → ℕ → UInt8) {k : ℕ} (hk : k ≤ chunks.length) :
    ∃ ch, threadProc (eventServer cb) beyond (chunks.take k) = some ch ∧
      InSync (chunks.take k).flatten ch := by
  induction k with
  | zero =>
    refine ⟨start, rfl, ?_⟩
    rw [List.take_zero, List.flatten_nil]
    refine ⟨by rw [reference_nil]; rfl, ?_, fun h => by rw [reference_nil] at h; cases h⟩
    rw [reference_nil]
    rintro r ⟨⟩
    exact ⟨rfl, rfl, rfl, rfl⟩
  | succ k ih =>
    obtain ⟨ch, hrun, hsync⟩ := ih (by omega)
    have hflat : (chunks.take (k + 1)).flatten =
        (chunks.take k).flatten ++ chunks.get ⟨k, hk⟩ := by
      rw [take_succ_get chunks hk, List.flatten_append, List.flatten_singleton]
    obtain ⟨ch', hon, hsync'⟩ := hsync.onChunk cb beyond (hchunks _ (List.get_mem _ _))
      (hfit k hk) (by rw [← hflat]; exact huncut (k + 1) hk)
    refine ⟨ch', ?_, by rw [hflat]; exact hsync'⟩
    rw [take_succ_get chunks hk, threadProc_concat, hrun]
    exact hon

/-- As long as the connection is not dropped, the thread waits at the outer loop with all
    bytes accounted for, and the inner loop had no reason to go on. -/
theorem threadProc_waits {cb : Callback} {beyond : ℕ → ℕ → UInt8} {chunks : List (List UInt8)}
    {ch : TcpChannel} (h : threadProc (eventServer cb) beyond chunks = some ch) :
    ch.sock = true →
      ch.pc = .receiving ∧ Holds chunks.flatten ch ∧ Stuck beyond ch := by
  induction chunks using List.reverseRecOn generalizing ch with
  | nil =>
    cases h
    exact fun _ => ⟨rfl, ⟨rfl, rfl⟩, .inl rfl⟩
  | append_singleton chunks bytes ih =>
    intro hsock
    rw [threadProc_concat] at h
    obtain ⟨ch₀, h₀, h⟩ := Option.bind_eq_some_iff.mp h
    rw [onChunk] at h
    split at h
    · rename_i hsock₀
      obtain ⟨hpc₀, hholds, -⟩ := ih h₀ hsock₀
      obtain ⟨ch₁, hrecv, hloop⟩ := Option.bind_eq_some_iff.mp h
      have hholds₁ := hholds.receive hrecv
      have hpc₁ : ch₁.pc = .extracting := by
        obtain ⟨-, -, hlen, hfits⟩ := receive_inv hholds.atEnd hrecv
        obtain ⟨stream, heq, -⟩ := receive_spec cb hholds.atEnd hpc₀ hsock₀ hlen hfits
        rw [hrecv] at heq
        cases heq
        rfl
      obtain ⟨n, ch₂, -, heq, -, hpc₂, hholds₂, hstuck⟩ :=
        extractLoop_terminates cb beyond hholds₁ hpc₁ (Nat.lt_succ_self _)
      rw [hloop] at heq
      cases heq
      rw [List.flatten_append, List.flatten_singleton]
      exact ⟨hpc₂, hholds₂, hstuck⟩
    · rename_i hsock₀
      cases h
      exact absurd hsock hsock₀

/-- **Reassembly is the reference framing exactly when no header is cut.** For every sequence of
    `recv` results, the thread delivers the packets of the reference framing and takes its drop
    decision after every chunk, whatever the callback does and whatever lies in memory behind the
    data, if and only if no chunk ends between the first and the eighth byte of a packet and the
    sizes stay within `int32_t`. -/
theorem meetsReference_iff (chunks : List (List UInt8))
    (hchunks : ∀ c ∈ chunks, 1 ≤ c.length ∧ c.length ≤ sizeofEventInfo) :
    MeetsReference chunks ↔ HeadersUncut chunks ∧ SizesFit chunks := by
  constructor
  · intro hmeets
    -- memory in which every byte behind the data has its top bit set
    have hwaits : ∀ k ≤ chunks.length, ∀ r,
        (reference.frames (chunks.take k).flatten).rest = some r →
        ∃ ch, threadProc (eventServer .readOnly) (fun _ _ => 128) (chunks.take k) = some ch ∧
          ch.sock = true ∧ ch.stream.buf = r ∧ ch.stream.pos.val = ch.stream.buf.length ∧
          Stuck (fun _ _ => 128) ch := by
      intro k hk r hr
      obtain ⟨ch, hrun, hdel, hdrop⟩ := hmeets .readOnly (fun _ _ => 128) k hk
      have hsock : ch.sock = true := by
        cases hs : ch.sock with
        | true => rfl
        | false => rw [hdrop.mp hs] at hr; cases hr
      obtain ⟨-, hholds, hstuck⟩ := threadProc_waits hrun hsock
      refine ⟨ch, hrun, hsock, ?_, hholds.atEnd, hstuck⟩
      have hbytes := hholds.bytes
      rw [hdel] at hbytes
      exact List.append_cancel_left (hbytes.trans (Framer.packets_append_rest hr).symm)
    constructor
    · intro k hk r hr
      obtain ⟨ch, -, hsock, hbuf, -, hstuck⟩ := hwaits k hk r hr
      rcases hstuck with hnil | hdropped | ⟨t, hlong⟩
      · exact .inl (hbuf ▸ hnil)
      · rw [hsock] at hdropped
        cases hdropped
      · right
        by_contra hshort
        -- the length was read from fewer than eight bytes, so its sign bit is the memory's
        have hneg := nMsgLen_neg_of_short (fun _ => 128) (by decide) ch.stream.buf
          (by rw [hbuf]; omega)
        simp only at hlong
        omega
    · intro k hk r hr
      obtain ⟨ch, hrun, hsock, hbuf, hend, -⟩ := hwaits k (Nat.le_of_lt hk) r hr
      obtain ⟨ch', hrun', -⟩ := hmeets .readOnly (fun _ _ => 128) (k + 1) hk
      rw [take_succ_get chunks hk, threadProc_concat, hrun, Option.bind_some, onChunk,
        if_pos hsock] at hrun'
      obtain ⟨ch₁, hrecv, -⟩ := Option.bind_eq_some_iff.mp hrun'
      rw [← hbuf]
      exact (receive_inv hend hrecv).2.2.2
  · rintro ⟨huncut, hfit⟩ cb beyond k hk
    obtain ⟨ch, hrun, hsync⟩ := inSync_of_uncut hchunks huncut hfit cb beyond hk
    refine ⟨ch, hrun, hsync.packets, ?_⟩
    cases hrest : (reference.frames (chunks.take k).flatten).rest with
    | none => exact iff_of_true (hsync.dropped hrest) rfl
    | some r =>
      refine iff_of_false ?_ (by simp)
      rw [(hsync.live r hrest).1]
      decide

/-- A packet of eight bytes that arrives in one piece is framed as the reference says. -/
theorem meetsReference_one_packet :
    (∀ c ∈ [[1, 2, 3, 4, 8, 0, 0, (0 : UInt8)]], 1 ≤ c.length ∧ c.length ≤ sizeofEventInfo) ∧
      MeetsReference [[1, 2, 3, 4, 8, 0, 0, 0]] := by
  have hframe : reference.frames [1, 2, 3, 4, 8, 0, 0, 0] =
      ⟨[[1, 2, 3, 4, 8, 0, 0, 0]], some []⟩ := by
    rw [Framer.frames_packet (n := 8) (by decide)]
    simp [reference_nil]
  refine ⟨by decide, (meetsReference_iff _ (by decide)).mpr ⟨?_, ?_⟩⟩
  · intro k hk r hr
    obtain rfl | rfl : k = 0 ∨ k = 1 := by
      simp only [List.length_singleton] at hk
      omega
    · rw [List.take_zero, List.flatten_nil, reference_nil] at hr
      exact .inl (Option.some.inj hr).symm
    · rw [show (List.take 1 [[1, 2, 3, 4, 8, 0, 0, (0 : UInt8)]]).flatten =
        [1, 2, 3, 4, 8, 0, 0, 0] from rfl, hframe] at hr
      exact .inl (Option.some.inj hr).symm
  · intro k hk r hr
    obtain rfl : k = 0 := by
      simp only [List.length_singleton] at hk
      omega
    rw [List.take_zero, List.flatten_nil, reference_nil] at hr
    cases hr
    simp [int32Max]

/-- The same eight bytes cut after the fourth: the thread reads a length of which no byte has
    been received, and with unlucky memory behind the data it drops the connection, while the
    reference framing waits and the uncut stream is delivered as one packet. -/
theorem not_meetsReference_cut_header :
    (∀ c ∈ [[1, 2, 3, 4], [8, 0, 0, (0 : UInt8)]], 1 ≤ c.length ∧ c.length ≤ sizeofEventInfo) ∧
      (threadProc (eventServer .readOnly) (fun _ _ => 128) [[1, 2, 3, 4], [8, 0, 0, 0]]).map
        (fun ch => (ch.delivered, ch.sock)) = some ([], false) ∧
      (threadProc (eventServer .readOnly) (fun _ _ => 128) [[1, 2, 3, 4, 8, 0, 0, 0]]).map
        (fun ch => (ch.delivered, ch.sock)) = some ([[1, 2, 3, 4, 8, 0, 0, 0]], true) ∧
      ¬ MeetsReference [[1, 2, 3, 4], [8, 0, 0, 0]] := by
  refine ⟨by decide, by decide, by decide, fun hmeets => ?_⟩
  obtain ⟨ch, hrun, -, hdrop⟩ := hmeets .readOnly (fun _ _ => 128) 1 (by decide)
  rw [show (List.take 1 [[1, 2, 3, 4], [8, 0, 0, (0 : UInt8)]]).flatten = [1, 2, 3, 4] from rfl,
    Framer.frames_more (reference_short (by decide))] at hdrop
  have hsock : (threadProc (eventServer .readOnly) (fun _ _ => 128)
      (List.take 1 [[1, 2, 3, 4], [8, 0, 0, (0 : UInt8)]])).map (·.sock) = some false := by decide
  rw [hrun] at hsock
  cases hdrop.mp (Option.some.inj hsock)

end TcpChannel

end Pdk.Net
