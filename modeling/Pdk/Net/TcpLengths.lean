import Pdk.Net.TcpReassembly

/-!
# Packet lengths on a TCP connection

`TcpChannel::thread_proc` rejects lengths below 1 and waits for or delivers a packet of any other
length. So whether it accepts only lengths that an event can have, and whether its stream stays
small, is up to the peer, and to where `recv` cuts the stream: a length that is read before it has
arrived may be anything.

`SoundLengths` is what the thread should guarantee on a sequence of chunks, `ProperChunks` the
condition on the chunks under which it does.
-/

namespace Pdk.Net

open Foundation

namespace TcpChannel

/-- The inner loop reads the length `n` and does not reject it: it waits for a packet of this
    length, or delivers one. -/
def Accepts (beyond : ℕ → ℕ → UInt8) (ch : TcpChannel) (n : ℤ) : Prop :=
  ch.pc = .extracting ∧ ch.stream.buf ≠ [] ∧
    (nMsgLen (beyond ch.reads) ch.stream.buf).val = n ∧ 1 ≤ n

structure LengthsOk (beyond : ℕ → ℕ → UInt8) (ch : TcpChannel) : Prop where
  accepted : ∀ n, Accepts beyond ch n → LengthOk n
  delivered : ∀ packet ∈ ch.delivered, LengthOk packet.length
  -- an event and what one `recv` adds to it
  buffered : ch.stream.buf.length ≤ maxEventInfoSize + sizeofEventInfo

/-- In every state that the thread can reach when `recv` returns these chunks one after the other,
    the lengths are those of events, whatever the callback does and whatever lies behind the data. -/
def SoundLengths (chunks : List (List UInt8)) : Prop :=
  ∀ (cb : Callback) (beyond : ℕ → ℕ → UInt8) (acts : List ChannelAct) (ch : TcpChannel),
    (machine (eventServer cb) beyond).run start acts = some ch → received acts <+: chunks →
      LengthsOk beyond ch

/-- The packets of a stream have the lengths of events, and so has the packet that it ends in, of
    which the length has arrived. -/
structure ProperFraming (bs : List UInt8) : Prop where
  packets : ∀ packet ∈ (reference.frames bs).packets, LengthOk packet.length
  rest : ∀ r, (reference.frames bs).rest = some r →
    r = [] ∨ msgLenEnd ≤ r.length ∧ LengthOk (nMsgLen (fun _ => 0) r).val

/-- The bytes received so far are properly framed after every chunk. -/
def ProperChunks (chunks : List (List UInt8)) : Prop :=
  ∀ cs, cs <+: chunks → ProperFraming cs.flatten

/-! ## Proper chunks are enough -/

/-- The thread has received `bs`, and the framing of `bs` goes on from the stream. -/
structure Tracks (bs : List UInt8) (ch : TcpChannel) : Prop where
  atEnd : ch.stream.pos.val = ch.stream.buf.length
  live : ch.pc = .extracting → ch.sock = true
  frames : ch.sock = true → reference.frames bs =
    ⟨ch.delivered ++ (reference.frames ch.stream.buf).packets, (reference.frames ch.stream.buf).rest⟩
  waits : ch.pc = .receiving → ch.sock = true →
    reference.verdict ch.stream.buf = .more ∧ ch.stream.buf.length ≤ maxEventInfoSize
  delivered : ∀ packet ∈ ch.delivered, LengthOk packet.length
  buffered : ch.stream.buf.length ≤ maxEventInfoSize + sizeofEventInfo

section

variable {bs : List UInt8} {ch ch' : TcpChannel} {beyond : ℕ → ℕ → UInt8}

/-- On a proper stream, the inner loop finds the length of the next packet complete. -/
theorem Tracks.long (h : Tracks bs ch) (hproper : ProperFraming bs) (hsock : ch.sock = true)
    (hne : ch.stream.buf ≠ []) : msgLenEnd ≤ ch.stream.buf.length := by
  by_contra hlong
  have hrest : (reference.frames bs).rest = some ch.stream.buf := by
    rw [h.frames hsock, Framer.frames_more (reference_short (Nat.not_le.mp hlong))]
  rcases hproper.rest _ hrest with hnil | hlength
  · exact hne hnil
  · exact hlong hlength.1

/-- And it is the length of an event, unless it is illegal. -/
theorem Tracks.lengthOk (h : Tracks bs ch) (hproper : ProperFraming bs) (hsock : ch.sock = true)
    (beyond : ℕ → ℕ → UInt8) (hne : ch.stream.buf ≠ [])
    (hpos : 1 ≤ (nMsgLen (beyond ch.reads) ch.stream.buf).val) :
    LengthOk (nMsgLen (beyond ch.reads) ch.stream.buf).val := by
  have hlong := h.long hproper hsock hne
  have hverdict := reference_long hlong (beyond ch.reads)
  rw [if_neg (by omega)] at hverdict
  split at hverdict
  · have hrest : (reference.frames bs).rest = some ch.stream.buf := by
      rw [h.frames hsock, Framer.frames_more hverdict]
    rcases hproper.rest _ hrest with hnil | hlength
    · exact absurd hnil hne
    · rw [nMsgLen_congr hlong _ (fun _ => 0)]
      exact hlength.2
  · rename_i hle
    have hpacket := hproper.packets
      (ch.stream.buf.take (nMsgLen (beyond ch.reads) ch.stream.buf).val.toNat) (by
        rw [h.frames hsock, Framer.frames_packet hverdict]
        simp)
    rw [List.length_take, Nat.min_eq_left (by omega), Int.toNat_of_nonneg (by omega)] at hpacket
    exact hpacket

theorem Tracks.lengthsOk (h : Tracks bs ch) (hproper : ProperFraming bs) : LengthsOk beyond ch := by
  refine ⟨?_, h.delivered, h.buffered⟩
  rintro n ⟨hpc, hne, rfl, hpos⟩
  exact h.lengthOk hproper (h.live hpc) beyond hne hpos

/-- An iteration of the inner loop. -/
theorem Tracks.extracted (h : Tracks bs ch) (hproper : ProperFraming bs) (hpc : ch.pc = .extracting)
    (he : Extracted beyond ch ch') : Tracks bs ch' := by
  have hsock := h.live hpc
  cases he with
  | done hbuf =>
    refine ⟨h.atEnd, nofun, h.frames, ?_, h.delivered, h.buffered⟩
    intro _ _
    simp only [hbuf]
    exact ⟨reference_short (by decide), Nat.zero_le _⟩
  | dropped hne hlen => exact ⟨h.atEnd, nofun, nofun, fun _ => nofun, h.delivered, h.buffered⟩
  | waiting hne hpos hlen =>
    have hok := h.lengthOk hproper hsock beyond hne hpos
    refine ⟨h.atEnd, nofun, h.frames, ?_, h.delivered, h.buffered⟩
    intro _ _
    refine ⟨?_, ?_⟩
    · show reference.verdict ch.stream.buf = .more
      rw [reference_long (h.long hproper hsock hne) (beyond ch.reads), if_neg (by omega), if_pos hlen]
    · show ch.stream.buf.length ≤ maxEventInfoSize
      have hle := hok.2
      omega
  | delivered n hn hpos hlen stream hbuf hend =>
    have hne : ch.stream.buf ≠ [] := by
      intro hnil
      rw [hnil, List.length_nil] at hlen
      omega
    have hok := h.lengthOk hproper hsock beyond hne (by omega)
    have hverdict : reference.verdict ch.stream.buf = .packet n := by
      rw [reference_long (h.long hproper hsock hne) (beyond ch.reads), if_neg (by omega),
        if_neg (by omega), hn, Int.toNat_natCast]
    refine ⟨hend, fun _ => hsock, ?_, ?_, ?_, ?_⟩
    · intro _
      rw [h.frames hsock, Framer.frames_packet hverdict]
      simp [hbuf]
    · intro hreceiving
      rw [show ch.pc = .receiving from hreceiving] at hpc
      cases hpc
    · intro packet hpacket
      rcases List.mem_append.mp hpacket with hbefore | hlast
      · exact h.delivered packet hbefore
      · rw [List.mem_singleton.mp hlast, List.length_take, Nat.min_eq_left hlen, ← hn]
        exact hok
    · have hbuffered := h.buffered
      simp only [hbuf, List.length_drop]
      omega

/-- A chunk is received. -/
theorem Tracks.receive (h : Tracks bs ch) {cb : Callback} {bytes : List UInt8}
    (hr : TcpChannel.receive (eventServer cb) ch bytes = some ch') : Tracks (bs ++ bytes) ch' := by
  obtain ⟨hpc, hsock, hlen, hfits⟩ := receive_inv h.atEnd hr
  obtain ⟨stream, heq, hbuf, hend⟩ := receive_spec cb h.atEnd hpc hsock hlen hfits
  rw [hr] at heq
  cases heq
  obtain ⟨hmore, hsmall⟩ := h.waits hpc hsock
  have hframes := h.frames hsock
  rw [Framer.frames_more hmore, List.append_nil] at hframes
  refine ⟨hend, fun _ => hsock, ?_, nofun, h.delivered, ?_⟩
  · intro _
    rw [Framer.frames_append_rest bytes (r := ch.stream.buf) (by rw [hframes]), hframes]
    simp only [hbuf]
  · simp only [hbuf, List.length_append]
    omega

theorem Tracks.step (h : Tracks bs ch) (hproper : ProperFraming bs) {cb : Callback} {a : ChannelAct}
    (hstep : (machine (eventServer cb) beyond).step ch a = some ch') :
    Tracks (bs ++ (received [a]).flatten) ch' := by
  cases a with
  | leave =>
    rw [show received [.leave] = [] from rfl, List.flatten_nil, List.append_nil]
    simp only [machine, TcpChannel.step] at hstep
    split at hstep
    · cases hstep
      exact ⟨h.atEnd, fun hpc => (by cases hpc), h.frames, fun hpc => (by cases hpc), h.delivered,
        h.buffered⟩
    · cases hstep
  | recv bytes =>
    rw [show received [.recv bytes] = [bytes] from rfl, List.flatten_singleton]
    exact h.receive hstep
  | iterate =>
    rw [show received [.iterate] = [] from rfl, List.flatten_nil, List.append_nil]
    simp only [machine, TcpChannel.step] at hstep
    split at hstep
    · rename_i hpc
      obtain ⟨ch₁, heq, he⟩ := extract_spec cb beyond h.atEnd
      rw [hstep] at heq
      cases heq
      exact h.extracted hproper hpc he
    · cases hstep

end

theorem tracks_start : Tracks [] start := by
  refine ⟨rfl, nofun, ?_, ?_, nofun, Nat.zero_le _⟩
  · intro _
    show reference.frames [] = ⟨[] ++ (reference.frames []).packets, (reference.frames []).rest⟩
    rw [reference_nil, List.nil_append]
  · intro _ _
    exact ⟨reference_short (by decide), Nat.zero_le _⟩

/-- **Run lemma**: on proper chunks, the thread tracks the framing. -/
theorem tracks_of_run {chunks : List (List UInt8)} (hproper : ProperChunks chunks) {cb : Callback}
    {beyond : ℕ → ℕ → UInt8} {acts : List ChannelAct} {ch : TcpChannel}
    (hrun : (machine (eventServer cb) beyond).run start acts = some ch)
    (hcs : received acts <+: chunks) : Tracks (received acts).flatten ch := by
  refine Machine.run_history (M := machine (eventServer cb) beyond)
    (P := fun acts ch => received acts <+: chunks → Tracks (received acts).flatten ch)
    (fun _ => tracks_start) ?_ hrun hcs
  intro acts ch a ch' ih hstep hcs'
  rw [received_append] at hcs' ⊢
  have hbefore : received acts <+: chunks := (List.prefix_append _ _).trans hcs'
  rw [List.flatten_append]
  exact (ih hbefore).step (hproper _ hbefore) hstep

/-! ## Proper chunks are needed -/

/-- Memory that makes an incomplete length large. -/
def largeBeyond : ℕ → ℕ → UInt8 := fun _ _ => 127

/-- The thread waits in the outer loop with the bytes `r`. -/
structure WaitsWith (r : List UInt8) (ch : TcpChannel) : Prop where
  sock : ch.sock = true
  pc : ch.pc = .receiving
  buf : ch.stream.buf = r
  atEnd : ch.stream.pos.val = ch.stream.buf.length

/-- With large memory behind the data, a length that is accepted as the length of an event has
    arrived. -/
theorem LengthsOk.long {ch : TcpChannel} (h : LengthsOk largeBeyond ch) (hpc : ch.pc = .extracting)
    (hne : ch.stream.buf ≠ []) : msgLenEnd ≤ ch.stream.buf.length := by
  by_contra hlong
  have hlarge := nMsgLen_large_of_short (largeBeyond ch.reads) rfl ch.stream.buf
    (Nat.not_le.mp hlong)
  have hok := h.accepted _ ⟨hpc, hne, rfl, by omega⟩
  exact absurd hok.2 (Int.not_le.mpr hlarge)

/-- One iteration of the inner loop as a step of the thread. -/
theorem iterate_spec (cb : Callback) (beyond : ℕ → ℕ → UInt8) {ch : TcpChannel}
    (hend : ch.stream.pos.val = ch.stream.buf.length) (hpc : ch.pc = .extracting) :
    ∃ ch', (machine (eventServer cb) beyond).step ch .iterate = some ch' ∧
      Extracted beyond ch ch' := by
  obtain ⟨ch', heq, he⟩ := extract_spec cb beyond hend
  refine ⟨ch', ?_, he⟩
  simp only [machine, TcpChannel.step, if_pos hpc, heq]

/-- The stream `bs` is properly framed, and the inner loop on it ends with what its framing
    leaves. -/
def EndsProperly (cb : Callback) (bs : List UInt8) (ch : TcpChannel) : Prop :=
  ProperFraming bs ∧ ∀ r, (reference.frames bs).rest = some r → ∃ k ch',
    (machine (eventServer cb) largeBeyond).run ch (List.replicate k .iterate) = some ch' ∧
      WaitsWith r ch'

section

variable {cb : Callback} {bs : List UInt8} {ch ch' : TcpChannel}

/-- The inner loop stops in front of an incomplete packet. -/
theorem endsProperly_more (hv : reference.verdict bs = .more)
    (hrest : bs = [] ∨ msgLenEnd ≤ bs.length ∧ LengthOk (nMsgLen (fun _ => 0) bs).val)
    (hstep : (machine (eventServer cb) largeBeyond).step ch .iterate = some ch')
    (hwaits : WaitsWith bs ch') : EndsProperly cb bs ch := by
  rw [EndsProperly, Framer.frames_more hv]
  refine ⟨⟨?_, ?_⟩, ?_⟩
  · rw [Framer.frames_more hv]
    exact nofun
  · rw [Framer.frames_more hv]
    rintro r ⟨⟩
    exact hrest
  · rintro r ⟨⟩
    refine ⟨1, ch', ?_, hwaits⟩
    rw [List.replicate_one, Machine.run_cons, hstep]
    rfl

theorem endsProperly_drop (hv : reference.verdict bs = .drop) : EndsProperly cb bs ch := by
  refine ⟨⟨?_, ?_⟩, ?_⟩
  all_goals
    rw [Framer.frames_drop hv]
    exact nofun

/-- The inner loop goes on behind a packet. -/
theorem endsProperly_packet {n : ℕ} (hv : reference.verdict bs = .packet n) (hn : LengthOk n)
    (hstep : (machine (eventServer cb) largeBeyond).step ch .iterate = some ch')
    (hrest : EndsProperly cb (bs.drop n) ch') : EndsProperly cb bs ch := by
  have hb := reference.packet_bounds bs n hv
  obtain ⟨hproper, hwaits⟩ := hrest
  refine ⟨⟨?_, ?_⟩, ?_⟩
  · rw [Framer.frames_packet hv]
    intro packet hpacket
    rcases List.mem_cons.mp hpacket with rfl | hlater
    · rw [List.length_take, Nat.min_eq_left hb.2]
      exact hn
    · exact hproper.packets packet hlater
  · rw [Framer.frames_packet hv]
    exact hproper.rest
  · rw [Framer.frames_packet hv]
    intro r hr
    obtain ⟨k, ch₁, hrun, hend⟩ := hwaits r hr
    refine ⟨k + 1, ch₁, ?_, hend⟩
    rw [List.replicate_succ, Machine.run_cons, hstep]
    exact hrun

/-- **The inner loop on any stream**: if all its iterations see only lengths of events, the stream
    is properly framed, and the thread ends up waiting with what the framing leaves. -/
theorem endsProperly_of_lengthsOk (hbuf : ch.stream.buf = bs)
    (hend : ch.stream.pos.val = ch.stream.buf.length) (hpc : ch.pc = .extracting)
    (hsock : ch.sock = true)
    (hsound : ∀ k ch', (machine (eventServer cb) largeBeyond).run ch (List.replicate k .iterate) =
      some ch' → LengthsOk largeBeyond ch') : EndsProperly cb bs ch := by
  induction bs using reference.frames_induction generalizing ch with
  | more bs hv =>
    subst hbuf
    have hnow := hsound 0 ch rfl
    obtain ⟨ch₁, hstep, he⟩ := iterate_spec cb largeBeyond hend hpc
    by_cases hnil : ch.stream.buf = []
    · refine endsProperly_more hv (.inl hnil) hstep ?_
      cases he with
      | done _ => exact ⟨hsock, rfl, rfl, hend⟩
      | dropped hne _ => exact absurd hnil hne
      | waiting hne _ _ => exact absurd hnil hne
      | delivered n _ hpos hlen _ _ _ =>
        rw [hnil, List.length_nil] at hlen
        omega
    · have hlong := hnow.long hpc hnil
      have hpos : 1 ≤ (nMsgLen (fun _ => 0) ch.stream.buf).val := by
        by_contra hneg
        rw [reference_long hlong (fun _ => 0), if_pos (by omega)] at hv
        cases hv
      have hok := hnow.accepted _ ⟨hpc, hnil, by rw [nMsgLen_congr hlong _ (fun _ => 0)], hpos⟩
      have hcase := he.reference hlong
      rw [hv] at hcase
      subst hcase
      exact endsProperly_more hv (.inr ⟨hlong, hok⟩) hstep ⟨hsock, rfl, rfl, hend⟩
  | drop bs hv => exact endsProperly_drop hv
  | packet bs n hv ih =>
    subst hbuf
    have hnow := hsound 0 ch rfl
    obtain ⟨ch₁, hstep, he⟩ := iterate_spec cb largeBeyond hend hpc
    have hlong : msgLenEnd ≤ ch.stream.buf.length :=
      long_of_verdict (by rw [hv]; exact Verdict.noConfusion)
    have hb := reference.packet_bounds _ n hv
    have hcase := he.reference hlong
    rw [hv] at hcase
    obtain ⟨stream, hsbuf, hsend, hch₁⟩ := hcase
    have hn : LengthOk n := by
      have hlater : LengthsOk largeBeyond ch₁ := by
        refine hsound 1 ch₁ ?_
        rw [List.replicate_one, Machine.run_cons, hstep]
        rfl
      have hlast := hlater.delivered (ch.stream.buf.take n) (by rw [hch₁]; simp)
      rw [List.length_take, Nat.min_eq_left hb.2] at hlast
      exact hlast
    refine endsProperly_packet hv hn hstep ?_
    refine ih (by rw [hch₁]; exact hsbuf) (by rw [hch₁]; exact hsend) (by rw [hch₁]; exact hpc)
      (by rw [hch₁]; exact hsock) ?_
    intro k ch₂ hrun
    refine hsound (k + 1) ch₂ ?_
    rw [List.replicate_succ, Machine.run_cons, hstep]
    exact hrun

end

/-! ## Whole connections -/

theorem received_iterations (k : ℕ) : received (List.replicate k .iterate) = [] := by
  induction k with
  | zero => rfl
  | succ k ih => exact ih

/-- The thread gets to the end of these chunks and waits with `r`. -/
def Gets (cs : List (List UInt8)) (r : List UInt8) : Prop :=
  ∃ acts ch, (machine (eventServer .readOnly) largeBeyond).run start acts = some ch ∧
    received acts = cs ∧ WaitsWith r ch

/-- One chunk more. -/
theorem Gets.chunk {chunks cs : List (List UInt8)} {r bytes : List UInt8} (h : Gets cs r)
    (hsound : SoundLengths chunks) (hbytes : 1 ≤ bytes.length ∧ bytes.length ≤ sizeofEventInfo)
    (hcs : cs ++ [bytes] <+: chunks) :
    ProperFraming (r ++ bytes) ∧
      ∀ r', (reference.frames (r ++ bytes)).rest = some r' → Gets (cs ++ [bytes]) r' := by
  obtain ⟨acts, ch, hrun, hreceived, hwait⟩ := h
  have hnow := hsound _ _ _ _ hrun (by rw [hreceived]; exact (List.prefix_append _ _).trans hcs)
  have hfits : (ch.stream.buf.length : ℤ) + bytes.length ≤ int32Max := by
    have hsmall := hnow.buffered
    have hsizes : (2 * sizeofEventInfo + maxEventInfoSize : ℤ) ≤ int32Max := by decide
    omega
  obtain ⟨stream, hrecv, hsbuf, hsend⟩ := receive_spec .readOnly hwait.atEnd hwait.pc hwait.sock
    hbytes hfits
  have hrun₁ : (machine (eventServer .readOnly) largeBeyond).run start (acts ++ [.recv bytes]) =
      some { ch with stream := stream, pc := .extracting } :=
    Machine.run_concat_eq_some.mpr ⟨ch, hrun, hrecv⟩
  have hreceived₁ : ∀ k,
      received (acts ++ [.recv bytes] ++ List.replicate k .iterate) = cs ++ [bytes] := by
    intro k
    rw [received_append, received_append, received_iterations, hreceived, List.append_nil]
    rfl
  have hends : EndsProperly .readOnly (r ++ bytes) { ch with stream := stream, pc := .extracting } := by
    refine endsProperly_of_lengthsOk (by rw [← hwait.buf]; exact hsbuf) hsend rfl hwait.sock ?_
    intro k ch' hiter
    refine hsound .readOnly largeBeyond _ ch' ?_ (by rw [hreceived₁ k]; exact hcs)
    exact Machine.run_append_eq_some.mpr ⟨_, hrun₁, hiter⟩
  refine ⟨hends.1, ?_⟩
  intro r' hr'
  obtain ⟨k, ch', hiter, hwait'⟩ := hends.2 r' hr'
  exact ⟨_, ch', Machine.run_append_eq_some.mpr ⟨_, hrun₁, hiter⟩, hreceived₁ k, hwait'⟩

theorem ProperFraming.append {bs r bytes : List UInt8} (h : ProperFraming bs)
    (hrest : (reference.frames bs).rest = some r) (hnext : ProperFraming (r ++ bytes)) :
    ProperFraming (bs ++ bytes) := by
  have hframes := Framer.frames_append_rest bytes hrest
  constructor
  · rw [hframes]
    intro packet hpacket
    rcases List.mem_append.mp hpacket with hbefore | hlater
    · exact h.packets packet hbefore
    · exact hnext.packets packet hlater
  · rw [hframes]
    exact hnext.rest

/-- Nothing changes behind a drop. -/
theorem ProperFraming.dropped {bs : List UInt8} (h : ProperFraming bs) (bytes : List UInt8)
    (hrest : (reference.frames bs).rest = none) : ProperFraming (bs ++ bytes) := by
  have hframes := Framer.frames_append_dropped bytes hrest
  constructor
  · rw [hframes]
    exact h.packets
  · rw [hframes]
    exact h.rest

theorem properFraming_nil : ProperFraming [] := by
  constructor
  · rw [reference_nil]
    exact nofun
  · rw [reference_nil]
    rintro r ⟨⟩
    exact .inl rfl

/-- **Necessity**: if the thread sees only lengths of events, the chunks are proper, and the thread
    gets to the end of each of them. -/
theorem proper_of_sound {chunks cs : List (List UInt8)} (hsound : SoundLengths chunks)
    (hchunks : ∀ c ∈ chunks, 1 ≤ c.length ∧ c.length ≤ sizeofEventInfo) (hcs : cs <+: chunks) :
    ProperFraming cs.flatten ∧
      ∀ r, (reference.frames cs.flatten).rest = some r → Gets cs r := by
  induction cs using List.reverseRecOn with
  | nil =>
    refine ⟨properFraming_nil, ?_⟩
    rw [List.flatten_nil, reference_nil]
    rintro r ⟨⟩
    exact ⟨[], start, rfl, rfl, rfl, rfl, rfl, rfl⟩
  | append_singleton cs bytes ih =>
    obtain ⟨hproper, hgets⟩ := ih ((List.prefix_append _ _).trans hcs)
    rw [List.flatten_append, List.flatten_singleton]
    cases hrest : (reference.frames cs.flatten).rest with
    | none =>
      refine ⟨hproper.dropped bytes hrest, ?_⟩
      rw [Framer.frames_append_dropped bytes hrest, hrest]
      exact nofun
    | some r =>
      obtain ⟨hnext, hwaits⟩ :=
        (hgets r hrest).chunk hsound (hchunks bytes (hcs.subset (by simp))) hcs
      refine ⟨hproper.append hrest hnext, ?_⟩
      rw [Framer.frames_append_rest bytes hrest]
      exact hwaits

/-- **Exactly the proper chunks are received with sound lengths.** -/
theorem soundLengths_iff {chunks : List (List UInt8)}
    (hchunks : ∀ c ∈ chunks, 1 ≤ c.length ∧ c.length ≤ sizeofEventInfo) :
    SoundLengths chunks ↔ ProperChunks chunks := by
  constructor
  · intro hsound cs hcs
    exact (proper_of_sound hsound hchunks hcs).1
  · intro hproper cb beyond acts ch hrun hcs
    exact (tracks_of_run hproper hrun hcs).lengthsOk (hproper _ hcs)

end TcpChannel

end Pdk.Net
