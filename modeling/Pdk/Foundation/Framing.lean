import Mathlib.Data.List.Basic
import Mathlib.Tactic.Common

/-!
# Cutting a stream into packets

A framer looks at the front of the bytes received so far and says that it needs more of them,
that the stream is illegal, or that the next packet has a given length. The framing of a stream
is what one gets by asking it again and again. Because an answer other than "more" cannot be
changed by later bytes, framing can be done incrementally: the framing of `bs ++ c` continues
the framing of `bs` (`frames_append_rest`, `frames_append_dropped`), whatever the cut.
-/

namespace Foundation

/-- What a framer says about the front of a stream. -/
inductive Verdict where
  /-- The packet is not complete yet. -/
  | more
  /-- The stream is illegal from here on. -/
  | drop
  /-- The next packet is made of the first `n` symbols. -/
  | packet (n : ℕ)
  deriving DecidableEq, Repr

/-- A framer whose packets are non-empty and inside the stream, and whose decisions are
    final. -/
structure Framer (α : Type*) where
  /-- The decision on the symbols received so far. -/
  verdict : List α → Verdict
  /-- A packet takes at least one symbol and no more than there are. -/
  packet_bounds : ∀ bs n, verdict bs = .packet n → 0 < n ∧ n ≤ bs.length
  /-- Later symbols do not change a decision. -/
  stable : ∀ bs c, verdict bs ≠ .more → verdict (bs ++ c) = verdict bs

/-- The framing of a stream: its packets, and the symbols that wait for more (`none` once the
    stream has been found illegal). -/
@[ext]
structure Outcome (α : Type*) where
  packets : List (List α)
  rest : Option (List α)
  deriving DecidableEq, Repr

namespace Framer

variable {α : Type*}

/-- Cut the stream into packets as long as the framer finds one. -/
def frames (F : Framer α) (bs : List α) : Outcome α :=
  match _h : F.verdict bs with
  | .more => ⟨[], some bs⟩
  | .drop => ⟨[], none⟩
  | .packet n =>
    ⟨bs.take n :: (F.frames (bs.drop n)).packets, (F.frames (bs.drop n)).rest⟩
termination_by bs.length
decreasing_by
  all_goals
    have hb := F.packet_bounds bs n (by assumption)
    rw [List.length_drop]
    omega

variable {F : Framer α}

/-! ## One decision at a time -/

theorem frames_more {bs : List α} (h : F.verdict bs = .more) :
    F.frames bs = ⟨[], some bs⟩ := by
  rw [frames]
  split <;> simp_all

theorem frames_drop {bs : List α} (h : F.verdict bs = .drop) :
    F.frames bs = ⟨[], none⟩ := by
  rw [frames]
  split <;> simp_all

theorem frames_packet {bs : List α} {n : ℕ} (h : F.verdict bs = .packet n) :
    F.frames bs =
      ⟨bs.take n :: (F.frames (bs.drop n)).packets, (F.frames (bs.drop n)).rest⟩ := by
  rw [frames]
  split <;> simp_all

/-- Induction along the decisions of the framer. -/
theorem frames_induction {P : List α → Prop}
    (more : ∀ bs, F.verdict bs = .more → P bs)
    (drop : ∀ bs, F.verdict bs = .drop → P bs)
    (packet : ∀ bs n, F.verdict bs = .packet n → P (bs.drop n) → P bs)
    (bs : List α) : P bs := by
  induction hlen : bs.length using Nat.strongRecOn generalizing bs with
  | _ k ih =>
    subst hlen
    cases h : F.verdict bs with
    | more => exact more bs h
    | drop => exact drop bs h
    | packet n =>
      have hb := F.packet_bounds bs n (by assumption)
      refine packet bs n h (ih (bs.drop n).length ?_ (bs.drop n) rfl)
      rw [List.length_drop]
      omega

/-! ## Nothing is lost -/

/-- The packets followed by the waiting symbols are the stream. -/
theorem packets_append_rest {bs r : List α} (h : (F.frames bs).rest = some r) :
    (F.frames bs).packets.flatten ++ r = bs := by
  induction bs using F.frames_induction with
  | more bs hv =>
    rw [frames_more hv] at h ⊢
    cases h
    rfl
  | drop bs hv =>
    rw [frames_drop hv] at h
    cases h
  | packet bs n hv ih =>
    rw [frames_packet hv] at h ⊢
    rw [List.flatten_cons, List.append_assoc, ih h, List.take_append_drop]

/-- Whether the stream is legal or not, there are no more symbols in the packets than in it. -/
theorem length_packets_le (bs : List α) : (F.frames bs).packets.flatten.length ≤ bs.length := by
  induction bs using F.frames_induction with
  | more bs hv =>
    rw [frames_more hv]
    exact Nat.zero_le _
  | drop bs hv =>
    rw [frames_drop hv]
    exact Nat.zero_le _
  | packet bs n hv ih =>
    have hb := F.packet_bounds bs n hv
    rw [List.length_drop] at ih
    rw [frames_packet hv, List.flatten_cons, List.length_append, List.length_take]
    omega

/-- A stream of whole packets. -/
theorem frames_flatten {ps : List (List α)} (h : ∀ p ∈ ps, ∀ more, F.verdict (p ++ more) = .packet p.length)
    (hnil : F.verdict [] = .more) : F.frames ps.flatten = ⟨ps, some []⟩ := by
  induction ps with
  | nil => exact frames_more hnil
  | cons p ps ih =>
    have hrest := ih fun q hq => h q (List.mem_cons_of_mem p hq)
    rw [List.flatten_cons, frames_packet (h p List.mem_cons_self ps.flatten), List.take_left,
      List.drop_left, hrest]

/-! ## Framing is incremental -/

/-- **Continuation**: framing a longer stream keeps the packets found so far and goes on
    from the symbols that waited. -/
theorem frames_append_rest {bs r : List α} (c : List α) (h : (F.frames bs).rest = some r) :
    F.frames (bs ++ c) =
      ⟨(F.frames bs).packets ++ (F.frames (r ++ c)).packets, (F.frames (r ++ c)).rest⟩ := by
  induction bs using F.frames_induction with
  | more bs hv =>
    rw [frames_more hv] at h ⊢
    cases h
    rfl
  | drop bs hv =>
    rw [frames_drop hv] at h
    cases h
  | packet bs n hv ih =>
    have hb := F.packet_bounds bs n hv
    have hv' : F.verdict (bs ++ c) = .packet n := by
      rw [F.stable bs c (by rw [hv]; exact Verdict.noConfusion), hv]
    rw [frames_packet hv] at h ⊢
    rw [frames_packet hv', List.drop_append_of_le_length hb.2, List.take_append_of_le_length hb.2,
      ih h]
    rfl

/-- **Finality**: a stream found illegal stays illegal, with the same packets before. -/
theorem frames_append_dropped {bs : List α} (c : List α) (h : (F.frames bs).rest = none) :
    F.frames (bs ++ c) = F.frames bs := by
  induction bs using F.frames_induction with
  | more bs hv =>
    rw [frames_more hv] at h
    cases h
  | drop bs hv =>
    have hv' : F.verdict (bs ++ c) = .drop := by
      rw [F.stable bs c (by rw [hv]; exact Verdict.noConfusion), hv]
    rw [frames_drop hv, frames_drop hv']
  | packet bs n hv ih =>
    have hb := F.packet_bounds bs n hv
    have hv' : F.verdict (bs ++ c) = .packet n := by
      rw [F.stable bs c (by rw [hv]; exact Verdict.noConfusion), hv]
    rw [frames_packet hv] at h ⊢
    rw [frames_packet hv', List.drop_append_of_le_length hb.2, List.take_append_of_le_length hb.2,
      ih h]

end Framer

end Foundation
