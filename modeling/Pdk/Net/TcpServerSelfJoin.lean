import Pdk.Net.TcpServerCalls

/-!
# Threads that join themselves

`Sound` says that no thread is in the join of itself, and that `closing_` is true only while a
`close_post` that has set it is under way. A receive thread that enters `close_post` of its own
channel finds its own `jthread` in `thread_`, as long as no other thread has moved it out; this is
part of the invariant `Inv`. So the property holds throughout a run exactly when a receive thread
that gets there finds a shutdown under way (`no_self_join_iff`).
-/

namespace Pdk.Net

open Foundation

namespace CallSystem

variable {α : Type*}

/-! ## The property and the condition -/

/-- A thread is inside `close_post` of the channel, between its two critical sections. -/
def Posting (s : CallSystem α) (c : ℕ) : Prop :=
  ∃ t, ∃ f ∈ s.stack t, f.post = some c

structure Sound (s : CallSystem α) : Prop where
  -- a thread in a join does not join itself
  joins : ∀ t c destroys w, .close c destroys (.joins (some w)) ∈ s.stack t → t ≠ .channel w
  -- once the calls have returned or thrown, `closing_` is false again
  closing : ∀ c, (s.thread c).closing = true → s.Posting c

/-- The channel whose `close_post` its own receive thread is about to enter. -/
def ownEntry (s : CallSystem α) : CallAct α → Option ℕ
  | .next (.channel c) =>
    match s.stack (.channel c) with
    | .close c' _ .stopping :: _ => if c' = c ∧ s.alive c = true then some c else none
    | _ => none
  | _ => none

/-- A receive thread that enters `close_post` of its own channel finds a shutdown under way. -/
def FindsClosing (s : CallSystem α) (a : CallAct α) : Prop :=
  ∀ c ∈ s.ownEntry a, (s.thread c).closing = true

instance (s : CallSystem α) (a : CallAct α) : Decidable (s.FindsClosing a) :=
  inferInstanceAs (Decidable (∀ c ∈ s.ownEntry a, (s.thread c).closing = true))

theorem ownEntry_eq_some {s : CallSystem α} {c : ℕ} {destroys : Bool} {rest : List Frame}
    (hstack : s.stack (.channel c) = .close c destroys .stopping :: rest)
    (halive : s.alive c = true) : s.ownEntry (.next (.channel c)) = some c := by
  simp only [ownEntry, hstack, halive, and_self, if_true]

theorem of_ownEntry {s : CallSystem α} {a : CallAct α} {c : ℕ} (h : s.ownEntry a = some c) :
    a = .next (.channel c) ∧ s.alive c = true ∧
      ∃ destroys rest, s.stack (.channel c) = .close c destroys .stopping :: rest := by
  unfold ownEntry at h
  split at h
  · split at h
    · rename_i c₁ c₂ destroys rest hstack
      split at h
      · rename_i hguard
        obtain ⟨rfl, halive⟩ := hguard
        cases h
        exact ⟨rfl, halive, destroys, rest, hstack⟩
      · cases h
    · cases h
  · cases h

/-! ## The invariant -/

/-- What is known about a call that is inside `close_post`. -/
def FrameOk (s : CallSystem α) (t : ServerThread α) : Frame → Prop
  | .close c _ (.joins worker) => worker = some c ∧ t ≠ .channel c
  | .close c _ .resets => s.worker c = .exited
  | _ => True

/-- The lifecycle of a channel. -/
structure LifeOk (s : CallSystem α) (c : ℕ) : Prop where
  own : ∀ w, (s.thread c).thread = some (some w) → w = c
  -- a `jthread` that was moved from is there only during a shutdown
  full : (s.thread c).closing = false → (s.thread c).thread ≠ some none
  -- a receive thread is in `thread_` until it is moved out
  running : s.Executing c → (s.thread c).closing = true ∨ (s.thread c).thread = some (some c)

structure Inv (s : CallSystem α) : Prop where
  frames : ∀ t, ∀ f ∈ s.stack t, s.FrameOk t f
  closing : ∀ c, (s.thread c).closing = true → s.Posting c
  life : ∀ c, s.LifeOk c
  -- a receive thread makes calls in the callback only
  calling : ∀ c, s.stack (.channel c) ≠ [] → ∃ inner, s.worker c = .calling inner
  fresh : ∀ c, s.created ≤ c → s.worker c = .unborn

theorem Inv.sound {s : CallSystem α} (h : s.Inv) : s.Sound := by
  refine ⟨?_, h.closing⟩
  intro t c destroys w hmem
  obtain ⟨hworker, hne⟩ := h.frames t _ hmem
  cases hworker
  exact hne

theorem inv_initial (useEvent onAfterReceive : Bool) :
    (initial α useEvent onAfterReceive).Inv := by
  refine ⟨?_, ?_, ?_, ?_, ?_⟩
  · intro t f hf
    cases hf
  · intro c hclosing
    cases hclosing
  · intro c
    exact ⟨nofun, nofun, fun h => absurd rfl h.1⟩
  · intro c hne
    exact absurd rfl hne
  · intro c _
    rfl

section Frames

variable {s s' : CallSystem α} {t : ServerThread α} {f : Frame} {c : ℕ}

theorem frameOk_of_post (hquiet : f.post = none) : s.FrameOk t f := by
  cases f with
  | close c destroys pc =>
    cases pc with
    | joins worker => cases hquiet
    | resets => cases hquiet
    | _ => trivial
  | _ => trivial

/-- Receive threads that have ended stay so. -/
theorem FrameOk.mono (h : s.FrameOk t f)
    (hworker : ∀ c, s.worker c = .exited → s'.worker c = .exited) : s'.FrameOk t f := by
  cases f with
  | close c destroys pc =>
    cases pc with
    | joins worker => exact h
    | resets => exact hworker c h
    | _ => trivial
  | _ => trivial

theorem FrameOk.congr (h : s.FrameOk t f) (hworker : s'.worker = s.worker) : s'.FrameOk t f := by
  refine h.mono fun c hexited => ?_
  rw [hworker]
  exact hexited

theorem LifeOk.congr (h : s.LifeOk c) (hthread : (s'.thread c).thread = (s.thread c).thread)
    (hclosing : (s'.thread c).closing = (s.thread c).closing)
    (hexecuting : s'.Executing c → s.Executing c) : s'.LifeOk c := by
  refine ⟨?_, ?_, ?_⟩
  · intro w hw
    exact h.own w (hthread ▸ hw)
  · intro hopen hnone
    exact h.full (hclosing ▸ hopen) (hthread ▸ hnone)
  · intro hex
    rw [hclosing, hthread]
    exact h.running (hexecuting hex)

/-- A channel whose lifecycle is not touched. -/
theorem LifeOk.same (h : s.LifeOk c) (hthread : s'.thread c = s.thread c)
    (hworker : s'.worker = s.worker) : s'.LifeOk c := by
  refine h.congr (by rw [hthread]) (by rw [hthread]) ?_
  rw [Executing, hworker]
  exact id

variable [DecidableEq α] {frames : List Frame}

/-- The calls of a state in which one stack was replaced. -/
theorem frames_update (h : ∀ u, ∀ f ∈ s.stack u, s.FrameOk u f)
    (hstack : s'.stack = Function.update s.stack t frames)
    (hworker : s'.worker = s.worker) (hframes : ∀ f ∈ frames, f ∈ s.stack t ∨ s'.FrameOk t f) :
    ∀ u, ∀ f ∈ s'.stack u, s'.FrameOk u f := by
  intro u f hf
  rw [hstack] at hf
  by_cases hu : u = t
  · subst hu
    rw [Function.update_self] at hf
    rcases hframes f hf with hold | hok
    · exact (h u f hold).congr hworker
    · exact hok
  · rw [Function.update_of_ne hu] at hf
    exact (h u f hf).congr hworker

theorem posting_update (h : s.Posting c) (hstack : s'.stack = Function.update s.stack t frames)
    (hkept : ∀ f ∈ s.stack t, f.post = some c → ∃ f' ∈ frames, f'.post = some c) :
    s'.Posting c := by
  obtain ⟨u, f, hf, hpost⟩ := h
  by_cases hu : u = t
  · subst hu
    obtain ⟨f', hf', hpost'⟩ := hkept f hf hpost
    exact ⟨u, f', by rw [hstack, Function.update_self]; exact hf', hpost'⟩
  · exact ⟨u, f, by rw [hstack, Function.update_of_ne hu]; exact hf, hpost⟩

/-- A receive thread that is in a call, or begins one, is in the callback. -/
theorem calling_update
    (h : ∀ c, s.stack (.channel c) ≠ [] → ∃ inner, s.worker c = .calling inner)
    (hstack : s'.stack = Function.update s.stack t frames) (hworker : s'.worker = s.worker)
    (hcall : ∀ c, t = .channel c → s.stack t = [] → ∃ inner, s.worker c = .calling inner) :
    ∀ c, s'.stack (.channel c) ≠ [] → ∃ inner, s'.worker c = .calling inner := by
  intro c hne
  rw [hworker]
  by_cases ht : ServerThread.channel c = t
  · by_cases hempty : s.stack t = []
    · exact hcall c ht.symm hempty
    · exact h c (ht ▸ hempty)
  · rw [hstack, Function.update_of_ne ht] at hne
    exact h c hne

end Frames

/-! ## Steps -/

section Steps

variable [DecidableEq α] {s s' : CallSystem α} {t : ServerThread α} {c : ℕ} {destroys : Bool}
  {rest : List Frame}

theorem Inv.shifts {frames : List Frame} (h : s.Inv) (hsame : s.Same s')
    (hstack : s'.stack = Function.update s.stack t frames)
    (hframes : ∀ f ∈ frames, f ∈ s.stack t ∨ f.post = none)
    (hpost : ∀ f ∈ s.stack t, f ∈ frames ∨ f.post = none)
    (hcall : ∀ c, t = .channel c → s.stack t = [] → ∃ inner, s.worker c = .calling inner) :
    s'.Inv := by
  obtain ⟨hthread, hworker, hcreated⟩ := hsame
  refine ⟨?_, ?_, ?_, ?_, ?_⟩
  · refine frames_update h.frames hstack hworker fun f hf => ?_
    exact (hframes f hf).imp_right frameOk_of_post
  · intro c hclosing
    refine posting_update (h.closing c (hthread ▸ hclosing)) hstack ?_
    intro f hf hc
    rcases hpost f hf with hkept | hquiet
    · exact ⟨f, hkept, hc⟩
    · rw [hquiet] at hc
      cases hc
  · intro c
    exact (h.life c).same (by rw [hthread]) hworker
  · exact calling_update h.calling hstack hworker hcall
  · intro c hc
    rw [hworker]
    exact h.fresh c (hcreated ▸ hc)

/-- No stack changes: each is replaced by itself. -/
theorem Inv.stays (h : s.Inv) (hsame : s.Same s') (hstack : s'.stack = s.stack) : s'.Inv := by
  have hself : s'.stack = Function.update s.stack .accept (s.stack .accept) := by
    rw [hstack, Function.update_eq_self]
  exact h.shifts hsame hself (fun _ => .inl) (fun _ => .inl) nofun

omit [DecidableEq α] in
theorem Inv.works {pc : WorkerPc} (h : s.Inv) (hempty : s.stack (.channel c) = [])
    (hexecuting : s.Executing c) (hthread : s'.thread = s.thread)
    (hworker : s'.worker = Function.update s.worker c pc) (hcreated : s'.created = s.created)
    (hstack : s'.stack = s.stack) : s'.Inv := by
  have hother : ∀ c', c' ≠ c → s'.worker c' = s.worker c' := by
    intro c' hne
    rw [hworker, Function.update_of_ne hne]
  refine ⟨?_, ?_, ?_, ?_, ?_⟩
  · intro u f hf
    refine (h.frames u f (hstack ▸ hf)).mono fun c' hexited => ?_
    rw [hother c' fun heq => hexecuting.2 (heq ▸ hexited)]
    exact hexited
  · intro c' hclosing
    obtain ⟨u, f, hf, hpost⟩ := h.closing c' (hthread ▸ hclosing)
    exact ⟨u, f, hstack ▸ hf, hpost⟩
  · intro c'
    refine (h.life c').congr (by rw [hthread]) (by rw [hthread]) ?_
    intro hex
    by_cases hc : c' = c
    · rw [hc]
      exact hexecuting
    · rw [Executing, hother c' hc] at hex
      exact hex
  · intro c' hne
    rw [hstack] at hne
    have hc : c' ≠ c := fun heq => hne (heq ▸ hempty)
    rw [hother c' hc]
    exact h.calling c' hne
  · intro c' hc'
    rw [hcreated] at hc'
    have hc : c' ≠ c := fun heq => hexecuting.1 (heq ▸ h.fresh c' hc')
    rw [hother c' hc]
    exact h.fresh c' hc'

omit [DecidableEq α] in
theorem Inv.connects (h : s.Inv) : s.connect.Inv := by
  have hunborn := h.fresh s.created (Nat.le_refl _)
  have hthread : ∀ c, c ≠ s.created → s.connect.thread c = s.thread c :=
    fun c hne => Function.update_of_ne hne _ _
  have hworker : ∀ c, c ≠ s.created → s.connect.worker c = s.worker c :=
    fun c hne => Function.update_of_ne hne _ _
  have hnew : s.connect.thread s.created =
      { Sync.Thread.new with thread := some (some s.created) } := Function.update_self _ _ _
  refine ⟨?_, ?_, ?_, ?_, ?_⟩
  · intro u f hf
    refine (h.frames u f hf).mono fun c hexited => ?_
    have hc : c ≠ s.created := by
      rintro rfl
      rw [hunborn] at hexited
      cases hexited
    rw [hworker c hc]
    exact hexited
  · intro c hclosing
    have hc : c ≠ s.created := by
      rintro rfl
      rw [hnew] at hclosing
      cases hclosing
    rw [hthread c hc] at hclosing
    exact h.closing c hclosing
  · intro c
    by_cases hc : c = s.created
    · subst hc
      refine ⟨?_, ?_, ?_⟩
      · intro w hw
        rw [hnew] at hw
        cases hw
        rfl
      · intro _ hnone
        rw [hnew] at hnone
        cases hnone
      · intro _
        exact .inr (by rw [hnew])
    · refine (h.life c).congr (by rw [hthread c hc]) (by rw [hthread c hc]) ?_
      rw [Executing, hworker c hc]
      exact id
  · intro c hne
    obtain ⟨inner, hcalling⟩ := h.calling c hne
    have hc : c ≠ s.created := by
      rintro rfl
      rw [hunborn] at hcalling
      cases hcalling
    exact ⟨inner, (hworker c hc).trans hcalling⟩
  · intro c hle
    have hlt : s.created + 1 ≤ c := hle
    rw [hworker c (by omega)]
    exact h.fresh c (by omega)

/-- A step of the innermost call that concerns the lifecycle of one channel. -/
theorem Inv.closes {frame : Frame} (frames : List Frame) {thread : Sync.Thread} (h : s.Inv)
    (htop : s.stack t = frame :: rest)
    (hthread : s'.thread = Function.update s.thread c thread) (hworker : s'.worker = s.worker)
    (hcreated : s'.created = s.created)
    (hstack : s'.stack = Function.update s.stack t (frames ++ rest))
    (hframes : ∀ f ∈ frames, s'.FrameOk t f) (hlife : s'.LifeOk c)
    (hposts : ∀ c', frame.post = some c' → c' = c)
    (hclosing : thread.closing = true → (∃ f ∈ frames, f.post = some c) ∨
      ((s.thread c).closing = true ∧ frame.post = none)) : s'.Inv := by
  have hother : ∀ c', c' ≠ c → s'.thread c' = s.thread c' := by
    intro c' hne
    rw [hthread, Function.update_of_ne hne]
  -- the calls below the innermost one are still there
  have hrest : ∀ c', s.Posting c' → frame.post ≠ some c' → s'.Posting c' := by
    intro c' hposting hne
    refine posting_update hposting hstack ?_
    intro f hf hpost
    rw [htop] at hf
    rcases List.mem_cons.mp hf with rfl | hin
    · exact absurd hpost hne
    · exact ⟨f, List.mem_append_right _ hin, hpost⟩
  refine ⟨?_, ?_, ?_, ?_, ?_⟩
  · refine frames_update h.frames hstack hworker fun f hf => ?_
    rcases List.mem_append.mp hf with hnew | hin
    · exact .inr (hframes f hnew)
    · exact .inl (htop ▸ List.mem_cons_of_mem frame hin)
  · intro c' hc'
    by_cases hc : c' = c
    · subst hc
      rw [hthread, Function.update_self] at hc'
      rcases hclosing hc' with ⟨f, hf, hpost⟩ | ⟨hold, hquiet⟩
      · refine ⟨t, f, ?_, hpost⟩
        rw [hstack, Function.update_self]
        exact List.mem_append_left _ hf
      · exact hrest c' (h.closing c' hold) (by rw [hquiet]; nofun)
    · rw [hother c' hc] at hc'
      exact hrest c' (h.closing c' hc') fun hpost => hc (hposts c' hpost)
  · intro c'
    by_cases hc : c' = c
    · subst hc
      exact hlife
    · exact (h.life c').same (hother c' hc) hworker
  · refine calling_update h.calling hstack hworker ?_
    intro c' _ hnil
    rw [htop] at hnil
    cases hnil
  · intro c' hc'
    rw [hworker]
    exact h.fresh c' (hcreated ▸ hc')

theorem Inv.requests (h : s.Inv) (hstack : s.stack t = .close c destroys .starts :: rest) :
    ((s.setThread c (s.thread c).closePre).setStack t
      (.close c destroys .stopping :: rest)).Inv := by
  refine Inv.closes [.close c destroys .stopping] h hstack rfl rfl rfl rfl ?_ ?_ nofun ?_
  · simp [FrameOk]
  · refine (h.life c).congr ?_ ?_ id
    · simp [setThread, setStack, Sync.Thread.closePre]
    · simp [setThread, setStack, Sync.Thread.closePre]
  · intro hclosing
    exact .inr ⟨hclosing, rfl⟩

/-- `close_post` moves the `jthread` out, on another thread than the one that it is. -/
theorem Inv.movesOut {worker : Option ℕ} (h : s.Inv)
    (hstack : s.stack t = .close c destroys .stopping :: rest)
    (hopen : (s.thread c).closing = false) (hthread : (s.thread c).thread = some worker)
    (hother : t ≠ .channel c) :
    ((s.setThread c (s.thread c).moveOut).setStack t
      (.close c destroys (.joins worker) :: rest)).Inv := by
  have hworker : worker = some c := by
    cases worker with
    | none => exact absurd hthread ((h.life c).full hopen)
    | some w => rw [(h.life c).own w hthread]
  refine Inv.closes [.close c destroys (.joins worker)] h hstack rfl rfl rfl rfl ?_ ?_
    nofun ?_
  · intro f hf
    obtain rfl := List.mem_singleton.mp hf
    exact ⟨hworker, hother⟩
  · have hmoved : ((s.setThread c (s.thread c).moveOut).setStack t
        (.close c destroys (.joins worker) :: rest)).thread c = (s.thread c).moveOut :=
      Function.update_self _ _ _
    refine ⟨?_, ?_, ?_⟩
    · intro w hw
      rw [hmoved] at hw
      cases hw
    · intro hclosing
      rw [hmoved] at hclosing
      cases hclosing
    · intro _
      exact .inl (by rw [hmoved]; rfl)
  · intro _
    exact .inl ⟨_, List.mem_singleton_self _, rfl⟩

theorem Inv.joined {worker : Option ℕ} (h : s.Inv)
    (hstack : s.stack t = .close c destroys (.joins worker) :: rest)
    (hdone : ∀ w, worker = some w → s.worker w = .exited) :
    (s.setStack t (.close c destroys .resets :: rest)).Inv := by
  obtain ⟨hworker, -⟩ := h.frames t _ (hstack ▸ List.mem_cons_self)
  refine Inv.closes [.close c destroys .resets] h hstack
    (Function.update_eq_self c s.thread).symm rfl rfl rfl ?_ ((h.life c).congr rfl rfl id) ?_ ?_
  · intro f hf
    obtain rfl := List.mem_singleton.mp hf
    exact hdone c hworker
  · intro c' hc'
    exact (Option.some.inj hc').symm
  · intro _
    exact .inl ⟨_, List.mem_singleton_self _, rfl⟩

theorem Inv.resets (h : s.Inv) (hstack : s.stack t = .close c destroys .resets :: rest) :
    ((s.setThread c (s.thread c).reset).finish t c destroys rest).Inv := by
  have hexited : s.worker c = .exited :=
    h.frames t (.close c destroys .resets) (hstack ▸ List.mem_cons_self)
  refine Inv.closes [] h hstack rfl rfl rfl rfl nofun ?_ ?_ nofun
  · have hreset : ((s.setThread c (s.thread c).reset).finish t c destroys rest).thread c =
        (s.thread c).reset := Function.update_self _ _ _
    refine ⟨?_, ?_, ?_⟩
    · intro w hw
      rw [hreset] at hw
      cases hw
    · intro _ hnone
      rw [hreset] at hnone
      cases hnone
    · intro hexecuting
      exact absurd hexited hexecuting.2
  · intro c' hc'
    exact (Option.some.inj hc').symm

variable {a : CallAct α}

/-- **A step keeps the invariant** when a receive thread that enters `close_post` of its own channel
    in it finds a shutdown under way. -/
theorem inv_step (h : s.Inv) (hok : s.FindsClosing a) (hstep : s.step a = some s') : s'.Inv := by
  cases stepped_of_step hstep with
  | stays a s' hsame hstack => exact h.stays hsame hstack
  | shifts a s' t frames hsame hstack hframes hpost hcall =>
    exact h.shifts hsame hstack hframes hpost hcall
  | works c act pc s' hempty hexecuting hborn hthread hworker hcreated hstack =>
    exact h.works hempty hexecuting hthread hworker hcreated hstack
  | connects => exact h.connects
  | requests t c destroys rest hstack => exact h.requests hstack
  | movesOut t c destroys rest worker hstack halive hopen hthread =>
    refine h.movesOut hstack hopen hthread ?_
    rintro rfl
    have hclosing := hok c (ownEntry_eq_some hstack halive)
    rw [hopen] at hclosing
    cases hclosing
  | joined t c destroys rest worker hstack hdone => exact h.joined hstack hdone
  | joinsItself c destroys rest w hstack =>
    obtain ⟨hworker, hne⟩ := h.frames (.channel w) _ (hstack ▸ List.mem_cons_self)
    cases hworker
    exact absurd rfl hne
  | resets t c destroys rest hstack => exact h.resets hstack

/-- A receive thread that enters `close_post` of its own channel, and finds no shutdown under way,
    joins itself. -/
theorem not_sound_step (h : s.Inv) (hnot : ¬s.FindsClosing a) (hstep : s.step a = some s') :
    ¬s'.Sound := by
  rw [FindsClosing, not_forall] at hnot
  obtain ⟨c, hnot⟩ := hnot
  rw [Classical.not_imp, Bool.not_eq_true] at hnot
  obtain ⟨hentry, hopen⟩ := hnot
  obtain ⟨rfl, halive, destroys, rest, hstack⟩ := of_ownEntry hentry
  obtain ⟨inner, hcalling⟩ := h.calling c (by rw [hstack]; exact List.cons_ne_nil _ _)
  have hexecuting : s.Executing c := by
    rw [Executing, hcalling]
    exact ⟨fun hunborn => (by cases hunborn), fun hexited => (by cases hexited)⟩
  -- no one has moved it out, so that `thread_` is the caller itself
  have hthread : (s.thread c).thread = some (some c) := by
    rcases (h.life c).running hexecuting with hclosing | hthread
    · rw [hopen] at hclosing
      cases hclosing
    · exact hthread
  have hmoved : s' = (s.setThread c (s.thread c).moveOut).setStack (.channel c)
      (.close c destroys (.joins (some c)) :: rest) := by
    unfold step at hstep
    split at hstep
    · cases hstep
    · simp only [hstack, frameStep, closeStep, within, halive, closePost, hopen, hthread] at hstep
      cases hstep
      rfl
  intro hsound
  refine hsound.joins (.channel c) c destroys c ?_ rfl
  rw [hmoved]
  show _ ∈ Function.update s.stack (.channel c) _ (.channel c)
  rw [Function.update_self]
  exact List.mem_cons_self

/-- **No thread joins itself, and `closing_` is not left behind, exactly when a receive thread that
    gets to `close_post` of its own channel finds a shutdown under way there.** -/
theorem no_self_join_iff {acts : List (CallAct α)} {useEvent onAfterReceive : Bool}
    (hrun : (machine α useEvent onAfterReceive).run (initial α useEvent onAfterReceive) acts =
      some s) :
    (machine α useEvent onAfterReceive).Throughout Sound (initial α useEvent onAfterReceive) acts ↔
      (machine α useEvent onAfterReceive).Along FindsClosing (initial α useEvent onAfterReceive)
        acts :=
  Machine.throughout_iff_along (I := Inv) (fun _ h => h.sound)
    (fun _ _ _ h hok hstep => inv_step h hok hstep)
    (fun _ _ _ h hnot hstep => not_sound_step h hnot hstep)
    (inv_initial useEvent onAfterReceive) hrun

end Steps

/-- A client connects, and its first bytes are handed to the callback. -/
def callbackRun : List (CallAct ℕ) :=
  [.accept .next, .accept (.select 1), .next .accept, .next .accept, .accept (.accept (some true)),
    .accept .next, .accept .next, .accept .next, .channel 0 .enter, .channel 0 .recv]

/-- Another thread has begun to close the channel when a `send` of the callback fails. -/
theorem no_self_join_under_way :
    let acts : List (CallAct ℕ) := callbackRun ++
      [.call (.app 0) (.send 0 (-1)), .next (.app 0), .next (.app 0),
        .call (.channel 0) (.send 0 (-1)), .next (.channel 0), .next (.channel 0),
        .channel 0 .returns, .channel 0 .leave, .channel 0 .exit, .next (.app 0), .next (.app 0)]
    ∃ s, (machine ℕ false true).run (initial ℕ false true) acts = some s ∧
      (s.thread 0).closing = false ∧
      (machine ℕ false true).Throughout Sound (initial ℕ false true) acts := by
  intro acts
  exact ⟨_, rfl, by decide, (no_self_join_iff rfl).mpr (by decide)⟩

/-- A `send` of the callback fails: the receive thread gets into the join of itself, which
    terminates the process with `closing_` set. -/
theorem no_self_join_counterexample :
    let acts : List (CallAct ℕ) := callbackRun ++
      [.call (.channel 0) (.send 0 (-1)), .next (.channel 0), .next (.channel 0)]
    ∃ s s', (machine ℕ false true).run (initial ℕ false true) acts = some s ∧
      .close 0 false (.joins (some 0)) ∈ s.stack (.channel 0) ∧
      s.step (.next (.channel 0)) = some s' ∧ s'.terminated = true ∧
      (s'.thread 0).closing = true ∧
      ¬(machine ℕ false true).Throughout Sound (initial ℕ false true) acts := by
  intro acts
  refine ⟨_, _, rfl, by decide, rfl, by decide, by decide, ?_⟩
  intro h
  exact (h acts [] _ (by simp) rfl).joins (.channel 0) 0 false 0 (by decide) rfl

end CallSystem

end Pdk.Net
