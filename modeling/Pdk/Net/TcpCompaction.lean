import Pdk.Net.TcpReassembly

/-!
# The compaction of the stream

Behind every packet that it has delivered, `TcpChannel::thread_proc` (`src/tcpserver.cpp`) moves the
rest of the stream to its front with `memcpy`. The source is always inside the stream. It overlaps
the destination when the rest is longer than the packet.

How long the rest is depends on how the peer's data was cut into chunks. The chunks are compared with
the packet boundaries of the reference framing: the copies of a run are legal when no chunk completes
a packet that is shorter than what the chunk brings behind it, and only then
(`compaction_legal_iff`). This speaks about chunks that do not end inside the first eight bytes of a
packet, or do so where the memory behind the data does not make the thread cut these bytes.
-/

namespace Pdk.Net

open Foundation

namespace TcpChannel

/-- The `memcpy` of the inner loop's body, when the body gets there. -/
def compaction (beyond : ℕ → ℕ → UInt8) (ch : TcpChannel) : Option Bytes.Copy :=
  match ch.stream.data with
  | none => none
  | some bytes =>
    let nPkLen := nMsgLen (beyond ch.reads) bytes
    if nPkLen.val < 1 then none
    else do
      let (size, stream) ← ch.stream.getSize
      if nPkLen.val > size.val then none
      else do
        let (size, stream) ← stream.getSize
        let nSize ← addInt32 size.val (-nPkLen.val)
        if nSize.val > 0 then
          some ⟨stream.buf.length, 0, nPkLen.val.toNat, nSize.val.toNat⟩
        else none

/-- The body gets there with a packet that is shorter than the stream. -/
theorem compaction_eq (beyond : ℕ → ℕ → UInt8) (ch : TcpChannel) :
    ch.compaction beyond =
      if 1 ≤ (nMsgLen (beyond ch.reads) ch.stream.buf).val ∧
          (nMsgLen (beyond ch.reads) ch.stream.buf).val < ch.stream.buf.length then
        some ⟨ch.stream.buf.length, 0, (nMsgLen (beyond ch.reads) ch.stream.buf).val.toNat,
          ch.stream.buf.length - (nMsgLen (beyond ch.reads) ch.stream.buf).val.toNat⟩
      else none := by
  unfold compaction
  cases hdata : ch.stream.data with
  | none =>
    rw [if_neg]
    rw [MemoryStream.data_eq_none.mp hdata, List.length_nil]
    omega
  | some bytes =>
    obtain ⟨rfl, hne⟩ := MemoryStream.data_eq_some hdata
    simp only [MemoryStream.getSize_eq, Option.bind_eq_bind, Option.bind_some]
    generalize hn : (nMsgLen (beyond ch.reads) ch.stream.buf).val = n
    by_cases hneg : n < 1
    · rw [if_pos hneg, if_neg (by omega)]
    · rw [if_neg hneg]
      by_cases hbig : n > ch.stream.buf.length
      · rw [if_pos hbig, if_neg (by omega)]
      · have hsize := ch.stream.size_le
        have hbounds : int32Min ≤ (ch.stream.buf.length : ℤ) + -n ∧
            (ch.stream.buf.length : ℤ) + -n ≤ int32Max := by
          simp only [int32Min] at *
          omega
        rw [if_neg hbig, addInt32_of_bounds hbounds, Option.bind_some]
        by_cases hrest : n < ch.stream.buf.length
        · rw [if_pos (by simp only; omega), if_pos ⟨by omega, hrest⟩]
          congr 2
          show ((ch.stream.buf.length : ℤ) + -n).toNat = _
          omega
        · rw [if_neg (by simp only; omega), if_neg (by omega)]

/-- The data behind a complete packet at the front of the stream is not longer than the packet. -/
def ShortRest (beyond : ℕ → ℕ → UInt8) (ch : TcpChannel) : Prop :=
  1 ≤ (nMsgLen (beyond ch.reads) ch.stream.buf).val →
    (nMsgLen (beyond ch.reads) ch.stream.buf).val ≤ ch.stream.buf.length →
      ch.stream.buf.length - (nMsgLen (beyond ch.reads) ch.stream.buf).val ≤
        (nMsgLen (beyond ch.reads) ch.stream.buf).val

/-- **Specification of the copy.** -/
theorem compaction_legal_iff_shortRest (beyond : ℕ → ℕ → UInt8) (ch : TcpChannel) :
    (∀ copy ∈ ch.compaction beyond, copy.Legal) ↔ ch.ShortRest beyond := by
  rw [compaction_eq]
  unfold ShortRest
  generalize (nMsgLen (beyond ch.reads) ch.stream.buf).val = n
  split
  · rename_i hcopied
    obtain ⟨k, rfl⟩ := Int.eq_ofNat_of_zero_le (by omega : 0 ≤ n)
    have hsplit : k + (ch.stream.buf.length - k) = ch.stream.buf.length := by omega
    have hlegal := Bytes.Copy.legal_front_iff k (ch.stream.buf.length - k)
    rw [hsplit] at hlegal
    simp only [Option.mem_some_iff, forall_eq', Int.toNat_natCast, hlegal]
    omega
  · refine iff_of_true nofun ?_
    omega

/-! ## The inner loop without a callback -/

/-- Without a callback the copy and the cut are those of a callback that only looks at its packet. -/
theorem handOver_of_none {srv : TcpServer} (hnone : srv.onAfterReceive = none) (ch : TcpChannel)
    (nPkLen nSize : CInt) :
    handOver srv ch ch.stream.buf nPkLen nSize =
      { handOver (eventServer .readOnly) ch ch.stream.buf nPkLen nSize with
        delivered := ch.delivered } := by
  have hpoke : ch.stream.poke 0 (ch.stream.buf.take nPkLen.val.toNat) = ch.stream := by
    have hbuf : Bytes.overwrite ch.stream.buf 0 (ch.stream.buf.take nPkLen.val.toNat) =
        ch.stream.buf := by
      rw [Bytes.overwrite_zero (by rw [List.length_take]; omega), List.length_take]
      rcases Nat.le_total nPkLen.val.toNat ch.stream.buf.length with hle | hle
      · rw [Nat.min_eq_left hle, List.take_append_drop]
      · rw [Nat.min_eq_right hle, List.drop_length, List.append_nil, List.take_of_length_le hle]
    simp only [MemoryStream.poke, hbuf]
  simp only [handOver, hnone, eventServer, Callback.readOnly, hpoke]

/-- The cases of the inner loop's body, whatever the server does with the packets. -/
theorem extract_cases (srv : TcpServer) (beyond : ℕ → ℕ → UInt8) {ch : TcpChannel}
    (hpos : ch.stream.pos.val = ch.stream.buf.length) :
    ∃ c d, Extracted beyond ch c ∧ extract srv beyond ch = some { c with delivered := d } := by
  cases hcb : srv.onAfterReceive with
  | some cb =>
    have hsame : extract srv beyond ch = extract (eventServer cb) beyond ch := by
      simp only [extract, handOver, hcb, eventServer]
    obtain ⟨c, heq, hcase⟩ := extract_spec cb beyond hpos
    exact ⟨c, c.delivered, hcase, hsame.trans heq⟩
  | none =>
    obtain ⟨c, heq, hcase⟩ := extract_spec .readOnly beyond hpos
    refine ⟨c, ch.delivered, hcase, ?_⟩
    unfold extract at heq ⊢
    cases hdata : ch.stream.data with
    | none =>
      rw [hdata] at heq
      cases heq
      rfl
    | some bytes =>
      obtain ⟨rfl, -⟩ := MemoryStream.data_eq_some hdata
      rw [hdata] at heq
      simp only [MemoryStream.getSize_eq, Option.bind_eq_bind, Option.bind_some] at heq ⊢
      by_cases hneg : (nMsgLen (beyond ch.reads) ch.stream.buf).val < 1
      · rw [if_pos hneg] at heq ⊢
        cases heq
        rfl
      · rw [if_neg hneg] at heq ⊢
        by_cases hbig : (nMsgLen (beyond ch.reads) ch.stream.buf).val > ch.stream.buf.length
        · rw [if_pos hbig] at heq ⊢
          cases heq
          rfl
        · rw [if_neg hbig] at heq ⊢
          obtain ⟨nSize, hadd, hc⟩ := Option.bind_eq_some_iff.mp heq
          rw [hadd, Option.bind_some]
          cases hc
          exact congrArg some (handOver_of_none hcb { ch with reads := ch.reads + 1 } _ nSize)

end TcpChannel

/-- A channel, with the copies that its receive thread has executed. -/
structure CompactingChannel where
  channel : TcpChannel
  copies : List Bytes.Copy

namespace CompactingChannel

variable {srv : TcpServer} {beyond : ℕ → ℕ → UInt8} {s s' : CompactingChannel} {a : ChannelAct}

/-- The copy that a step executes. -/
def copyOf (beyond : ℕ → ℕ → UInt8) (ch : TcpChannel) : ChannelAct → Option Bytes.Copy
  | .iterate => ch.compaction beyond
  | _ => none

def step (srv : TcpServer) (beyond : ℕ → ℕ → UInt8) (s : CompactingChannel) (a : ChannelAct) :
    Option CompactingChannel :=
  (s.channel.step srv beyond a).map fun channel =>
    ⟨channel, s.copies ++ (copyOf beyond s.channel a).toList⟩

def start : CompactingChannel := ⟨.start, []⟩

def machine (srv : TcpServer) (beyond : ℕ → ℕ → UInt8) : Machine CompactingChannel ChannelAct :=
  ⟨start, step srv beyond⟩

/-- Every copy so far was one that `memcpy` allows. -/
def Legal (s : CompactingChannel) : Prop :=
  ∀ copy ∈ s.copies, copy.Legal

/-- The inner loop never finds more data behind a complete packet than the packet has. -/
def ShortRest (beyond : ℕ → ℕ → UInt8) (s : CompactingChannel) (a : ChannelAct) : Prop :=
  a = .iterate → s.channel.ShortRest beyond

theorem copyOf_legal_iff : (∀ copy ∈ copyOf beyond s.channel a, copy.Legal) ↔
    s.ShortRest beyond a := by
  cases a with
  | leave => exact iff_of_true nofun nofun
  | recv bytes => exact iff_of_true nofun nofun
  | iterate =>
    rw [copyOf, TcpChannel.compaction_legal_iff_shortRest]
    exact ⟨fun h _ => h, fun h => h rfl⟩

/-- A step adds its copy. -/
theorem legal_step_iff (hstep : s.step srv beyond a = some s') :
    s'.Legal ↔ s.Legal ∧ s.ShortRest beyond a := by
  obtain ⟨channel, -, rfl⟩ := Option.map_eq_some_iff.mp hstep
  rw [← copyOf_legal_iff]
  simp only [Legal, List.mem_append, Option.mem_toList, Option.mem_def, or_imp, forall_and]

theorem channel_step (hstep : s.step srv beyond a = some s') :
    s.channel.step srv beyond a = some s'.channel := by
  obtain ⟨channel, hchannel, rfl⟩ := Option.map_eq_some_iff.mp hstep
  exact hchannel

/-! ## Chunks and packet boundaries -/

/-- No packet of the stream is shorter than what lies behind it. -/
def PacketsOutweigh (bs : List UInt8) : Prop :=
  ∀ before packet after, (reference.frames bs).packets = before ++ packet :: after →
    bs.length - (before.flatten.length + packet.length) ≤ packet.length

/-- No chunk completes a packet that is shorter than what has been received behind it by then: `rest`
    is what the chunks before have left over. -/
def ChunksOutweigh (chunks : List (List UInt8)) : Prop :=
  ∀ before chunk after rest, chunks = before ++ chunk :: after →
    (reference.frames before.flatten).rest = some rest → PacketsOutweigh (rest ++ chunk)

/-- Where a chunk ends inside the first eight bytes of a packet, the memory behind the data does not
    make the thread read a length that cuts these bytes. -/
def HeadersHarmless (beyond : ℕ → ℕ → UInt8) (chunks : List (List UInt8)) : Prop :=
  ∀ before after rest, chunks = before ++ after →
    (reference.frames before.flatten).rest = some rest → rest.length < msgLenEnd →
    ∀ t, (nMsgLen (beyond t) rest).val < 1 ∨ (rest.length : ℤ) < (nMsgLen (beyond t) rest).val

theorem HeadersHarmless.of_append {chunks more : List (List UInt8)}
    (h : HeadersHarmless beyond (chunks ++ more)) : HeadersHarmless beyond chunks := by
  intro before after rest hchunks
  exact h before (after ++ more) rest (by rw [hchunks, List.append_assoc])

theorem packetsOutweigh_of_nil {bs : List UInt8} (h : (reference.frames bs).packets = []) :
    PacketsOutweigh bs := by
  intro before packet after hsplit
  rw [h] at hsplit
  exact absurd hsplit (by simp)

/-- The packet at the front, and the others. -/
theorem packetsOutweigh_packet {bs : List UInt8} {n : ℕ} (hv : reference.verdict bs = .packet n) :
    PacketsOutweigh bs ↔ bs.length - n ≤ n ∧ PacketsOutweigh (bs.drop n) := by
  have hbounds := reference.packet_bounds bs n hv
  have hlen : (bs.take n).length = n := by
    rw [List.length_take]
    omega
  unfold PacketsOutweigh
  rw [Framer.frames_packet hv]
  constructor
  · intro h
    refine ⟨?_, ?_⟩
    · have hfront := h [] (bs.take n) _ rfl
      rw [List.flatten_nil, List.length_nil, hlen] at hfront
      omega
    · intro before packet after hsplit
      have hpacket := h (bs.take n :: before) packet after (by rw [hsplit]; rfl)
      rw [List.flatten_cons, List.length_append, hlen] at hpacket
      rw [List.length_drop]
      omega
  · rintro ⟨hfront, hrest⟩ before packet after hsplit
    cases before with
    | nil =>
      obtain ⟨rfl, -⟩ := List.cons.inj hsplit
      rw [List.flatten_nil, List.length_nil, hlen]
      omega
    | cons first before =>
      obtain ⟨rfl, hlater⟩ := List.cons.inj hsplit
      have hpacket := hrest before packet after hlater
      rw [List.length_drop] at hpacket
      rw [List.flatten_cons, List.length_append, hlen]
      omega

/-- Where the thread drops the connection, the reference framing finds no packet. -/
theorem packets_of_dropped {memory : ℕ → UInt8} {bs : List UInt8} (h : (nMsgLen memory bs).val < 1) :
    (reference.frames bs).packets = [] := by
  by_cases hlong : msgLenEnd ≤ bs.length
  · rw [Framer.frames_drop (by rw [reference_long hlong memory, if_pos h])]
  · rw [Framer.frames_more (reference_short (by omega))]

/-- Where the thread waits for more, the reference framing does so too. -/
theorem frames_of_waiting {memory : ℕ → UInt8} {bs : List UInt8} (hpos : 1 ≤ (nMsgLen memory bs).val)
    (h : bs.length < (nMsgLen memory bs).val) : reference.frames bs = ⟨[], some bs⟩ := by
  by_cases hlong : msgLenEnd ≤ bs.length
  · rw [Framer.frames_more (by rw [reference_long hlong memory, if_neg (by omega), if_pos h])]
  · rw [Framer.frames_more (reference_short (by omega))]

theorem chunksOutweigh_nil : ChunksOutweigh [] := by
  intro before chunk after rest hsplit
  exact absurd hsplit (by simp)

/-- One chunk more. -/
theorem chunksOutweigh_concat {chunks : List (List UInt8)} {chunk rest : List UInt8}
    (hrest : (reference.frames chunks.flatten).rest = some rest) :
    ChunksOutweigh (chunks ++ [chunk]) ↔ ChunksOutweigh chunks ∧ PacketsOutweigh (rest ++ chunk) := by
  constructor
  · intro h
    refine ⟨?_, h chunks chunk [] rest rfl hrest⟩
    intro before earlier after rest' hsplit
    exact h before earlier (after ++ [chunk]) rest' (by rw [hsplit]; simp)
  · rintro ⟨hearlier, hlast⟩ before chunk' after rest' hsplit hrest'
    rcases List.eq_nil_or_concat after with rfl | ⟨after, last, rfl⟩
    · obtain ⟨rfl, hsame⟩ := List.append_inj' hsplit rfl
      cases hsame
      rw [hrest] at hrest'
      cases hrest'
      exact hlast
    · rw [List.concat_eq_append, ← List.cons_append, ← List.append_assoc] at hsplit
      obtain ⟨rfl, -⟩ := List.append_inj' hsplit rfl
      exact hearlier before chunk' after rest' rfl hrest'

/-! ## The receive thread and the chunks -/

/-- What is known of a channel in event mode that has received `chunks`: the packets that are still to
    be cut off are those that the reference framing finds in the stream, and the copies were legal as
    far as the packets already cut off outweigh what lay behind them. -/
structure Cutting (chunks : List (List UInt8)) (s : CompactingChannel) : Prop where
  atEnd : s.channel.stream.pos.val = s.channel.stream.buf.length
  rest : (reference.frames chunks.flatten).rest = (reference.frames s.channel.stream.buf).rest
  noPacket : s.channel.pc ≠ .extracting → (reference.frames s.channel.stream.buf).packets = []
  waits : s.channel.pc ≠ .extracting → s.channel.sock = true →
    (reference.frames s.channel.stream.buf).rest = some s.channel.stream.buf
  legal : s.Legal ∧ PacketsOutweigh s.channel.stream.buf ↔ ChunksOutweigh chunks

theorem cutting_start : Cutting [] start := by
  have hnil : (reference.frames []).packets = [] := by rw [reference_nil]
  refine ⟨rfl, rfl, fun _ => hnil, ?_, ?_⟩
  · intro _ _
    exact congrArg Outcome.rest reference_nil
  · exact iff_of_true ⟨nofun, packetsOutweigh_of_nil hnil⟩ chunksOutweigh_nil

variable {chunks : List (List UInt8)}

/-- The thread is back at the outer loop, with the stream as it was. -/
theorem Cutting.stays (h : Cutting chunks s) (hstream : s'.channel.stream = s.channel.stream)
    (hlegal : s'.Legal ↔ s.Legal) (hnone : (reference.frames s.channel.stream.buf).packets = [])
    (hwaits : s'.channel.sock = true →
      (reference.frames s.channel.stream.buf).rest = some s.channel.stream.buf) :
    Cutting chunks s' := by
  refine ⟨?_, ?_, ?_, ?_, ?_⟩
  all_goals rw [hstream]
  · exact h.atEnd
  · exact h.rest
  · exact fun _ => hnone
  · exact fun _ => hwaits
  · rw [hlegal]
    exact h.legal

theorem Cutting.leave (h : Cutting chunks s) (hstep : s.step srv beyond .leave = some s') :
    Cutting chunks s' := by
  have hlegal : s'.Legal ↔ s.Legal := (legal_step_iff hstep).trans (and_iff_left fun h => by cases h)
  have hchannel := channel_step hstep
  simp only [TcpChannel.step] at hchannel
  split at hchannel
  · rename_i hpc
    have hne : s.channel.pc ≠ .extracting := by simp [hpc]
    have hleft := Option.some.inj hchannel
    refine h.stays (by rw [← hleft]) hlegal (h.noPacket hne) fun hsock => h.waits hne ?_
    rw [← hleft] at hsock
    exact hsock
  · cases hchannel

/-- A chunk is appended to what the chunks before have left over. -/
theorem Cutting.recv {chunk : List UInt8} (h : Cutting chunks s) (hevent : srv.useEvent = true)
    (hstep : s.step srv beyond (.recv chunk) = some s') : Cutting (chunks ++ [chunk]) s' := by
  have hlegal : s'.Legal ↔ s.Legal := (legal_step_iff hstep).trans (and_iff_left fun h => by cases h)
  have hchannel := channel_step hstep
  have hsame : TcpChannel.receive srv s.channel chunk =
      TcpChannel.receive (eventServer .readOnly) s.channel chunk := by
    simp only [TcpChannel.receive, hevent, eventServer, if_true]
  rw [TcpChannel.step, hsame] at hchannel
  obtain ⟨hpc, hsock, hlen, hfits⟩ := TcpChannel.receive_inv h.atEnd hchannel
  obtain ⟨stream, hreceived, hbuf, hend⟩ :=
    TcpChannel.receive_spec .readOnly h.atEnd hpc hsock hlen hfits
  rw [hchannel] at hreceived
  have hnext := Option.some.inj hreceived
  have hne : s.channel.pc ≠ .extracting := by simp [hpc]
  have hrest := h.rest.trans (h.waits hne hsock)
  have hbusy : ¬s'.channel.pc ≠ .extracting := by
    rw [hnext]
    exact not_not.mpr rfl
  refine ⟨?_, ?_, fun hidle => absurd hidle hbusy, fun hidle => absurd hidle hbusy, ?_⟩
  · rw [hnext]
    exact hend
  · rw [List.flatten_append, List.flatten_singleton, Framer.frames_append_rest chunk hrest, hnext,
      hbuf]
  · have hbefore : s.Legal ↔ ChunksOutweigh chunks :=
      (and_iff_left (packetsOutweigh_of_nil (h.noPacket hne))).symm.trans h.legal
    rw [chunksOutweigh_concat hrest, hlegal, hbefore, hnext, hbuf]

/-- One iteration of the inner loop cuts off the packet that the reference framing finds. -/
theorem Cutting.iterate (h : Cutting chunks s) (hharmless : HeadersHarmless beyond chunks)
    (hstep : s.step srv beyond .iterate = some s') : Cutting chunks s' := by
  have hlegal := legal_step_iff hstep
  have hchannel := channel_step hstep
  simp only [TcpChannel.step] at hchannel
  split at hchannel
  · rename_i hpc
    obtain ⟨c, d, hcase, hextract⟩ := TcpChannel.extract_cases srv beyond h.atEnd
    rw [hchannel] at hextract
    have hnext := Option.some.inj hextract
    have hshort : s'.Legal ↔ s.Legal ∧ s.channel.ShortRest beyond :=
      hlegal.trans (and_congr_right fun _ => ⟨fun hcut => hcut rfl, fun hcut _ => hcut⟩)
    cases hcase with
    | done hbuf =>
      have hframe : reference.frames s.channel.stream.buf = ⟨[], some s.channel.stream.buf⟩ := by
        rw [hbuf, reference_nil]
      refine h.stays (by rw [hnext]) (hshort.trans (and_iff_left ?_)) (by rw [hframe])
        fun _ => by rw [hframe]
      intro hpos hle
      have hlen : s.channel.stream.buf.length = 0 := by
        rw [hbuf]
        rfl
      omega
    | dropped hbuf hneg =>
      refine h.stays (by rw [hnext]) (hshort.trans (and_iff_left ?_)) ?_ ?_
      · intro hpos
        omega
      · exact packets_of_dropped hneg
      · intro hsock
        rw [hnext] at hsock
        cases hsock
    | waiting hbuf hpos hlong =>
      refine h.stays (by rw [hnext]) (hshort.trans (and_iff_left ?_)) ?_ ?_
      · intro _ hle
        omega
      · rw [frames_of_waiting hpos hlong]
      · intro _
        rw [frames_of_waiting hpos hlong]
    | delivered n hn hpos hle stream hbuf hend =>
      have hlong : msgLenEnd ≤ s.channel.stream.buf.length := by
        by_contra hcut
        -- these bytes are what the last chunk has left over
        have hmore := Framer.frames_more (reference_short (Nat.not_le.mp hcut))
        have hrest := h.rest
        rw [hmore] at hrest
        have hsafe := hharmless chunks [] _ (List.append_nil chunks).symm hrest (Nat.not_le.mp hcut)
          s.channel.reads
        omega
      have hverdict : reference.verdict s.channel.stream.buf = .packet n := by
        rw [reference_long hlong (beyond s.channel.reads), if_neg (by omega), if_neg (by omega), hn,
          Int.toNat_natCast]
      have hbusy : ¬s'.channel.pc ≠ .extracting := by
        rw [hnext]
        exact not_not.mpr hpc
      have hfront : s.channel.ShortRest beyond ↔
          s.channel.stream.buf.length - n ≤ n := by
        unfold TcpChannel.ShortRest
        rw [hn]
        omega
      refine ⟨?_, ?_, fun hidle => absurd hidle hbusy, fun hidle => absurd hidle hbusy, ?_⟩
      · rw [hnext]
        exact hend
      · rw [hnext, hbuf, h.rest, Framer.frames_packet hverdict]
      · rw [hnext, hbuf, hshort, hfront, and_assoc, ← packetsOutweigh_packet hverdict]
        exact h.legal
  · cases hchannel

/-- **Step lemma.** -/
theorem Cutting.step {acts : List ChannelAct} (h : Cutting (TcpChannel.received acts) s)
    (hevent : srv.useEvent = true) (hharmless : HeadersHarmless beyond (TcpChannel.received acts))
    (hstep : s.step srv beyond a = some s') : Cutting (TcpChannel.received (acts ++ [a])) s' := by
  rw [TcpChannel.received_append]
  cases a with
  | leave =>
    rw [show TcpChannel.received [.leave] = [] from rfl, List.append_nil]
    exact h.leave hstep
  | recv chunk =>
    rw [show TcpChannel.received [.recv chunk] = [chunk] from rfl]
    exact h.recv hevent hstep
  | iterate =>
    rw [show TcpChannel.received [.iterate] = [] from rfl, List.append_nil]
    exact h.iterate hharmless hstep

/-- **Run lemma.** -/
theorem cutting_run {acts : List ChannelAct} (hevent : srv.useEvent = true)
    (hrun : (machine srv beyond).run start acts = some s)
    (hharmless : HeadersHarmless beyond (TcpChannel.received acts)) :
    Cutting (TcpChannel.received acts) s := by
  refine Machine.run_history (M := machine srv beyond) (P := fun acts s =>
    HeadersHarmless beyond (TcpChannel.received acts) → Cutting (TcpChannel.received acts) s)
    (fun _ => cutting_start) ?_ hrun hharmless
  intro acts s a s' h hstep hlater
  have hearlier : HeadersHarmless beyond (TcpChannel.received acts) := by
    rw [TcpChannel.received_append] at hlater
    exact hlater.of_append
  exact (h hearlier).step hevent hearlier hstep

/-- Outside event mode the stream is not used. -/
theorem copies_of_direct {acts : List ChannelAct} (hdirect : srv.useEvent = false)
    (hrun : (machine srv beyond).run start acts = some s) :
    s.copies = [] ∧ s.channel.pc ≠ .extracting := by
  refine Machine.run_invariant (M := machine srv beyond)
    (P := fun s => s.copies = [] ∧ s.channel.pc ≠ .extracting) ⟨rfl, fun h => by cases h⟩ ?_ hrun
  rintro s a s' ⟨hcopies, hpc⟩ hstep
  obtain ⟨channel, hchannel, rfl⟩ := Option.map_eq_some_iff.mp hstep
  cases a with
  | leave =>
    simp only [TcpChannel.step] at hchannel
    split at hchannel
    · cases hchannel
      exact ⟨by simp [hcopies, copyOf], by simp⟩
    · cases hchannel
  | recv chunk =>
    simp only [TcpChannel.step, TcpChannel.receive, hdirect] at hchannel
    refine ⟨by simp [hcopies, copyOf], ?_⟩
    split at hchannel
    · simp only [Bool.false_eq_true, if_false] at hchannel
      split at hchannel
      · cases hchannel
        exact hpc
      · cases hchannel
        exact hpc
    · cases hchannel
  | iterate =>
    simp only [TcpChannel.step] at hchannel
    rw [if_neg hpc] at hchannel
    cases hchannel

theorem legal_of_run {acts : List ChannelAct}
    (hrun : (machine srv beyond).run s acts = some s') (h : s'.Legal) : s.Legal := by
  induction acts generalizing s with
  | nil =>
    cases hrun
    exact h
  | cons a acts ih =>
    obtain ⟨t, ht, hrest⟩ := Machine.run_cons_eq_some.mp hrun
    exact ((legal_step_iff ht).mp (ih hrest)).1

/-- **The copies of a run are legal exactly when no chunk completes a packet that is shorter than what
    has been received behind it by then.** The chunks are those of the run, for any server, callback
    and memory behind the data that does not make the thread cut the first eight bytes of a packet.
    That the condition is enough holds in every state of every run; that it is needed, for a server in
    event mode when the inner loop is over. -/
theorem compaction_legal_iff {acts : List ChannelAct}
    (hrun : (machine srv beyond).run start acts = some s)
    (hharmless : HeadersHarmless beyond (TcpChannel.received acts)) :
    (ChunksOutweigh (TcpChannel.received acts) →
        (machine srv beyond).Throughout Legal start acts) ∧
      (srv.useEvent = true → s.channel.pc ≠ .extracting →
        (machine srv beyond).Throughout Legal start acts →
          ChunksOutweigh (TcpChannel.received acts)) := by
  constructor
  · intro houtweigh
    have hlast : s.Legal := by
      cases hevent : srv.useEvent with
      | true => exact ((cutting_run hevent hrun hharmless).legal.mpr houtweigh).1
      | false =>
        intro copy hcopy
        rw [(copies_of_direct hevent hrun).1] at hcopy
        cases hcopy
    intro before after t hacts ht
    rw [hacts, Machine.run_append_eq_some] at hrun
    obtain ⟨u, hu, hafter⟩ := hrun
    rw [ht] at hu
    cases hu
    exact legal_of_run hafter hlast
  · intro hevent hpc hthroughout
    have h := cutting_run hevent hrun hharmless
    exact h.legal.mp ⟨hthroughout acts [] s (List.append_nil acts).symm hrun,
      packetsOutweigh_of_nil (h.noPacket hpc)⟩

/-- Two packets of eight bytes in one chunk: the copy has eight bytes to move to the front. -/
theorem compaction_legal_two_packets :
    let acts : List ChannelAct :=
      [.recv [1, 2, 3, 4, 8, 0, 0, 0, 5, 6, 7, 8, 8, 0, 0, 0], .iterate, .iterate, .iterate]
    ∃ s, (machine (eventServer .readOnly) fun _ _ => 128).run start acts = some s ∧
      s.copies = [⟨16, 0, 8, 8⟩] ∧
      (machine (eventServer .readOnly) fun _ _ => 128).Throughout Legal start acts := by
  intro acts
  have hfirst : reference.verdict [1, 2, 3, 4, 8, 0, 0, 0, 5, 6, 7, 8, 8, 0, 0, 0] = .packet 8 := by
    decide
  have hsecond : reference.verdict [5, 6, 7, 8, 8, 0, 0, 0] = .packet 8 := by decide
  -- behind the first packet lie as many bytes as it has, and behind the second one none
  have houtweigh : PacketsOutweigh [1, 2, 3, 4, 8, 0, 0, 0, 5, 6, 7, 8, 8, 0, 0, 0] :=
    (packetsOutweigh_packet hfirst).mpr ⟨by decide, (packetsOutweigh_packet hsecond).mpr
      ⟨by decide, packetsOutweigh_of_nil (by rw [List.drop_of_length_le (by decide), reference_nil])⟩⟩
  have hstart : (reference.frames ([] : List (List UInt8)).flatten).rest = some [] := by
    rw [List.flatten_nil, reference_nil]
  refine ⟨_, rfl, by decide, (compaction_legal_iff rfl ?_).1 ?_⟩
  · -- this memory makes every cut length negative
    intro before after rest _ _ hshort t
    have hneg : (nMsgLen (fun _ => 128) rest).val < 0 :=
      nMsgLen_neg_of_short (fun _ => 128) (by decide) rest hshort
    exact .inl (Int.lt_trans hneg Int.zero_lt_one)
  · exact (chunksOutweigh_concat hstart).mpr ⟨chunksOutweigh_nil, houtweigh⟩

/-- Three packets of eight bytes in one chunk: behind the first one are sixteen bytes, and the copy
    overlaps. -/
theorem compaction_legal_counterexample :
    let acts : List ChannelAct :=
      [.recv [1, 2, 3, 4, 8, 0, 0, 0, 5, 6, 7, 8, 8, 0, 0, 0, 9, 9, 9, 9, 8, 0, 0, 0], .iterate]
    ∃ s, (machine (eventServer .readOnly) fun _ _ => 0).run start acts = some s ∧
      s.copies = [⟨24, 0, 8, 16⟩] ∧
      ¬(machine (eventServer .readOnly) fun _ _ => 0).Throughout Legal start acts := by
  intro acts
  refine ⟨_, rfl, by decide, ?_⟩
  intro h
  have hlegal := h acts [] _ (List.append_nil acts).symm rfl ⟨24, 0, 8, 16⟩ (by decide)
  exact hlegal.disjoint 0 (by decide) 8 (by decide) rfl

end CompactingChannel

end Pdk.Net
