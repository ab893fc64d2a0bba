import Pdk.Sync.GlobalTimerBalance

/-!
# When `GlobalTimer` posts

`DIFFTIME` adds a difference of seconds and a difference of microseconds that is divided by 1000
towards zero. Where the microseconds of the scan are behind those of the start, the second term has
the other sign, and rounding it towards zero rounds the time that has passed up to the next
millisecond (`diffTime_borrow`); otherwise it is rounded down (`diffTime_carry`). The test of the
scan then holds up to a millisecond before the term has passed, and exactly then
(`posts_not_early_iff`).
-/

namespace Pdk.Sync

open Foundation

/-! ## Time -/

namespace TimeVal

/-- As `gettimeofday` stores it. -/
def Normalised (tv : TimeVal) : Prop :=
  0 ≤ tv.tvUsec ∧ tv.tvUsec < 1000000

instance (tv : TimeVal) : Decidable tv.Normalised :=
  inferInstanceAs (Decidable (_ ∧ _))

/-- Microseconds since the epoch. -/
def micros (tv : TimeVal) : ℤ :=
  tv.tvSec * 1000000 + tv.tvUsec

end TimeVal

/-- The microseconds from the start of a timer to a scan. -/
def elapsedMicros (tv ntv : TimeVal) : ℤ :=
  ntv.micros - tv.micros

section DiffTime

variable {tv ntv : TimeVal}

/-- The microseconds of the scan are not behind: the time is rounded down. -/
theorem diffTime_carry (husec : tv.tvUsec ≤ ntv.tvUsec) (hclock : tv.micros ≤ ntv.micros)
    (hnormal : ntv.Normalised) (hstart : tv.Normalised) :
    diffTime tv ntv = elapsedMicros tv ntv / 1000 := by
  obtain ⟨hmin, hmax⟩ := hnormal
  obtain ⟨hmin', hmax'⟩ := hstart
  simp only [TimeVal.micros] at hclock
  have hneg : tv.tvUsec - ntv.tvUsec = -(ntv.tvUsec - tv.tvUsec) := by omega
  have htdiv : (ntv.tvUsec - tv.tvUsec).tdiv 1000 = (ntv.tvUsec - tv.tvUsec) / 1000 :=
    Int.tdiv_eq_ediv_of_nonneg (by omega)
  simp only [diffTime, pdkAbs, elapsedMicros, TimeVal.micros, hneg, Int.neg_tdiv, htdiv]
  split <;> omega

/-- The microseconds of the scan are behind: the time is rounded up. -/
theorem diffTime_borrow (husec : ntv.tvUsec < tv.tvUsec) (hclock : tv.micros ≤ ntv.micros)
    (hnormal : ntv.Normalised) (hstart : tv.Normalised) :
    diffTime tv ntv = (elapsedMicros tv ntv + 999) / 1000 := by
  obtain ⟨hmin, hmax⟩ := hnormal
  obtain ⟨hmin', hmax'⟩ := hstart
  simp only [TimeVal.micros] at hclock
  have htdiv : (tv.tvUsec - ntv.tvUsec).tdiv 1000 = (tv.tvUsec - ntv.tvUsec) / 1000 :=
    Int.tdiv_eq_ediv_of_nonneg (by omega)
  simp only [diffTime, pdkAbs, elapsedMicros, TimeVal.micros, htdiv]
  split <;> omega

end DiffTime

/-! ## The test of the scan -/

namespace TimeSpec

variable {O : Type*} {spec : TimeSpec O} {ntv : TimeVal}

/-- Less than a millisecond of the term is left, and the microseconds of the scan are behind those
    of the start. -/
def Borrows (spec : TimeSpec O) (ntv : TimeVal) : Prop :=
  ntv.tvUsec < spec.tv.tvUsec ∧
    (spec.nTerm.val - 1) * 1000 < elapsedMicros spec.tv ntv ∧
    elapsedMicros spec.tv ntv < spec.nTerm.val * 1000

instance (spec : TimeSpec O) (ntv : TimeVal) : Decidable (spec.Borrows ntv) :=
  inferInstanceAs (Decidable (_ ∧ _ ∧ _))

/-- **The test of the scan**: the term has passed, or a borrow hides that it has not. -/
theorem elapsed_iff (hstart : spec.tv.Normalised) (hnormal : ntv.Normalised)
    (hclock : spec.tv.micros ≤ ntv.micros) :
    spec.Elapsed ntv ↔
      spec.nTerm.val * 1000 ≤ elapsedMicros spec.tv ntv ∨ spec.Borrows ntv := by
  rw [Elapsed, Borrows]
  rcases Int.lt_or_le ntv.tvUsec spec.tv.tvUsec with hborrow | hcarry
  · rw [diffTime_borrow hborrow hclock hnormal hstart]
    omega
  · rw [diffTime_carry hcarry hclock hnormal hstart]
    omega

end TimeSpec

/-! ## The events of the scan -/

namespace GlobalTimer

variable {O P : Type*} [DecidableEq O] [DecidableEq P]
variable {t : GlobalTimer O P} {p : P} {spec : TimeSpec O} {ntv : TimeVal}

/-- The loop of `thread_proc` posts an event when it comes to a record. -/
def Posts (t : GlobalTimer O P) (ntv : TimeVal) (p : P) : Prop :=
  ∃ event t', scanSpec ntv t p = some (some event, t')

/-- The map has a timer under the owner and the number of a record. -/
def Found (t : GlobalTimer O P) (spec : TimeSpec O) : Prop :=
  (t.timerMap.value spec.obj (ofUint8 spec.nWhich)).isSome = true

theorem posts_iff (hspec : t.live.lookup p = some spec) :
    t.Posts ntv p ↔ t.Found spec ∧ spec.Elapsed ntv := by
  rw [Posts, Found, OrderedMap.value]
  simp only [scanSpec, hspec]
  cases t.timerMap.lookup spec.obj with
  | none => simp
  | some whichMap =>
    cases hwhich : whichMap.lookup (ofUint8 spec.nWhich) with
    | none => simp [hwhich]
    | some q =>
      by_cases helapsed : spec.Elapsed ntv
      · simp [hwhich, helapsed]
      · simp [hwhich, helapsed]

/-- **The scan posts no event before its term exactly when no borrow hides the rest of the term**,
    from every state of the three structures, at every record that the loop comes to. -/
theorem posts_not_early_iff (hspec : t.live.lookup p = some spec)
    (hstart : spec.tv.Normalised) (hnormal : ntv.Normalised)
    (hclock : spec.tv.micros ≤ ntv.micros) :
    (t.Posts ntv p → spec.nTerm.val * 1000 ≤ elapsedMicros spec.tv ntv) ↔
      ¬(t.Found spec ∧ spec.Borrows ntv) := by
  rw [posts_iff hspec, TimeSpec.elapsed_iff hstart hnormal hclock]
  constructor
  · intro hlate ⟨hfound, hborrow⟩
    have hterm := hlate ⟨hfound, .inr hborrow⟩
    exact absurd hborrow.2.2 (Int.not_lt.mpr hterm)
  · intro hexact ⟨hfound, hpassed⟩
    rcases hpassed with hpassed | hborrow
    · exact hpassed
    · exact absurd ⟨hfound, hborrow⟩ hexact

/-- A timer of 100 ms at the first scan that posts its event. -/
theorem posts_not_early_at_term :
    let spec : TimeSpec ℕ := ⟨⟨0, 0⟩, ⟨100, by decide⟩, 7, 0⟩
    let t : GlobalTimer ℕ ℕ := (new.addElement 0 ⟨100, by decide⟩ ⟨7, by decide⟩ ⟨0, 0⟩ 0).2
    let ntv : TimeVal := ⟨0, 100000⟩
    (t.Posts ntv 0 → spec.nTerm.val * 1000 ≤ elapsedMicros spec.tv ntv) ↔
      ¬(t.Found spec ∧ spec.Borrows ntv) :=
  posts_not_early_iff rfl (by decide) (by decide) (by decide)

/-- A timer of 1 ms that is started a microsecond before a full second is posted at the full
    second. -/
theorem posts_early :
    let spec : TimeSpec ℕ := ⟨⟨0, 999999⟩, ⟨1, by decide⟩, 7, 0⟩
    let t : GlobalTimer ℕ ℕ := (new.addElement 0 ⟨1, by decide⟩ ⟨7, by decide⟩ ⟨0, 999999⟩ 0).2
    let ntv : TimeVal := ⟨1, 0⟩
    t.live.lookup 0 = some spec ∧ spec.tv.Normalised ∧ ntv.Normalised ∧
      spec.tv.micros ≤ ntv.micros ∧ 1 ≤ spec.nTerm.val ∧ t.Posts ntv 0 ∧
      ¬spec.nTerm.val * 1000 ≤ elapsedMicros spec.tv ntv := by
  intro spec t ntv
  have hspec : t.live.lookup 0 = some spec := rfl
  have hposts : t.Posts ntv 0 := (posts_iff hspec).mpr ⟨rfl, by decide⟩
  exact ⟨hspec, by decide, by decide, by decide, by decide, hposts, by decide⟩

end GlobalTimer

/-! ## Runs -/

namespace TimerSystem

open GlobalTimer

variable {O P : Type*} [DecidableEq O] [DecidableEq P]
variable {s : TimerSystem O P} {acts : List (TimerAction O P)} {events : List (O × EventInfo)}
  {timer : GlobalTimer O P} {ntv : TimeVal} {obj : O} {nWhich : CInt} {spec : TimeSpec O}

/-- **A whole scan** behind a run with numbers that fit: the event of a pending timer is posted when
    its term has passed or a borrow hides that it has not. -/
theorem scan_posts_iff (hacts : ∀ a ∈ acts, a.InRange) (hrun : machine.run initial acts = some s)
    (hscan : s.timer.scan ntv = some (events, timer))
    (hpending : s.timer.pending obj nWhich = some spec) (hstart : spec.tv.Normalised)
    (hnormal : ntv.Normalised) (hclock : spec.tv.micros ≤ ntv.micros) :
    (∃ outcome ∈ postings events, isDone obj nWhich outcome) ↔
      spec.nTerm.val * 1000 ≤ elapsedMicros spec.tv ntv ∨ spec.Borrows ntv := by
  have hreg := (sound_run hacts hrun).1
  obtain ⟨events', timer', hscan', -, hscanned⟩ := scan_spec hreg ntv
  rw [hscan] at hscan'
  cases hscan'
  have hcount := (scanContract hreg hscanned).posts obj nWhich
  rw [hpending, Option.any_some] at hcount
  rw [← TimeSpec.elapsed_iff hstart hnormal hclock, ← List.countP_pos_iff, hcount]
  by_cases helapsed : spec.Elapsed ntv
  · simp [helapsed]
  · simp [helapsed]

end TimerSystem

end Pdk.Sync
