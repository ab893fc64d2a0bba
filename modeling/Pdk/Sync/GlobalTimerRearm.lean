import Pdk.Sync.GlobalTimerDelivery

/-!
# No timer vanishes

The scan removes a record that is due before it calls `add_event`, and does not use the result of
the call. So a timer is gone without its event when the queue of its owner is full, and a monitor
that waits for the event waits for ever: nothing starts its timer again.

`Deliverable` is the condition on the steps of the scan under which this does not happen, and
`accounted_iff` says for one step that it is exact. Under it the records are `Placed`, which is as
much of `Registered` as holds without a bound on the numbers, and each monitor is `Tended`.
-/

namespace Pdk.Sync

open Foundation

namespace GlobalTimer

variable {O P : Type*} [DecidableEq O] [DecidableEq P]
variable {t : GlobalTimer O P} {obj : O} {nWhich : CInt} {p : P}

/-- Records of the list are live, and each is in the map at most once; the map has no others. -/
structure Placed (t : GlobalTimer O P) : Prop where
  nodup : t.timerList.Nodup
  listed : ∀ p ∈ t.timerList, ∃ spec, t.live.lookup p = some spec
  mapped : ∀ obj nWhich p, t.timerMap.value obj nWhich = some p → p ∈ t.timerList
  unique : ∀ obj nWhich obj' nWhich' p, t.timerMap.value obj nWhich = some p →
    t.timerMap.value obj' nWhich' = some p → (obj', nWhich') = (obj, nWhich)

theorem placed_new : (new : GlobalTimer O P).Placed := by
  have hnone : ∀ obj nWhich, (new : GlobalTimer O P).timerMap.value obj nWhich = none :=
    fun _ _ => rfl
  refine ⟨List.nodup_nil, ?_, ?_, ?_⟩
  · intro p hp
    cases hp
  · intro obj nWhich p hvalue
    rw [hnone] at hvalue
    cases hvalue
  · intro obj nWhich obj' nWhich' p hvalue
    rw [hnone] at hvalue
    cases hvalue

theorem Placed.add (h : t.Placed) (hnone : t.timerMap.value obj nWhich = none)
    (hfresh : t.live.lookup p = none) (msecs : CInt) (tv : TimeVal) :
    (t.addElement obj msecs nWhich tv p).2.Placed := by
  rw [addElement_new hnone]
  have hnotListed : p ∉ t.timerList := by
    intro hp
    obtain ⟨spec, hspec⟩ := h.listed p hp
    rw [hfresh] at hspec
    cases hspec
  -- an entry of the map is the new one, or an old one with another record
  have hentry : ∀ obj' nWhich' q, (t.timerMap.store obj nWhich p).value obj' nWhich' = some q →
      ((obj', nWhich') = (obj, nWhich) ∧ q = p) ∨
        (t.timerMap.value obj' nWhich' = some q ∧ q ≠ p) := by
    intro obj' nWhich' q hvalue
    rcases (OrderedMap.value_store_eq_some _).mp hvalue with hnew | ⟨-, hold⟩
    · exact .inl hnew
    · exact .inr ⟨hold, fun heq => hnotListed (heq ▸ h.mapped _ _ q hold)⟩
  refine ⟨?_, ?_, ?_, ?_⟩
  · exact h.nodup.append (List.nodup_singleton p) (by simpa using hnotListed)
  · intro q hq
    by_cases hqp : q = p
    · exact ⟨_, by rw [hqp]; exact OrderedMap.lookup_insert_self _⟩
    · have hold : q ∈ t.timerList := by
        rcases List.mem_append.mp hq with hold | hnew
        · exact hold
        · exact absurd (List.mem_singleton.mp hnew) hqp
      obtain ⟨spec, hspec⟩ := h.listed q hold
      exact ⟨spec, (OrderedMap.lookup_insert_of_ne _ hqp).trans hspec⟩
  · intro obj' nWhich' q hvalue
    rcases hentry obj' nWhich' q hvalue with ⟨-, rfl⟩ | ⟨hold, -⟩
    · exact List.mem_append_right _ (List.mem_singleton_self q)
    · exact List.mem_append_left _ (h.mapped obj' nWhich' q hold)
  · intro obj₁ nWhich₁ obj₂ nWhich₂ q hvalue₁ hvalue₂
    rcases hentry _ _ q hvalue₁ with ⟨hplace₁, hq₁⟩ | ⟨hold₁, hq₁⟩ <;>
      rcases hentry _ _ q hvalue₂ with ⟨hplace₂, hq₂⟩ | ⟨hold₂, hq₂⟩
    · rw [hplace₁, hplace₂]
    · exact absurd hq₁ hq₂
    · exact absurd hq₂ hq₁
    · exact h.unique _ _ _ _ q hold₁ hold₂

theorem Placed.drop (h : t.Placed) (hvalue : t.timerMap.value obj nWhich = some p) :
    (t.drop obj nWhich p).Placed := by
  -- what the map still has, it had, and it is another record
  have hentry : ∀ obj' nWhich' q, (t.timerMap.discard obj nWhich).value obj' nWhich' = some q →
      t.timerMap.value obj' nWhich' = some q ∧ q ≠ p := by
    intro obj' nWhich' q hq
    obtain ⟨hplace, hold⟩ := (OrderedMap.value_discard_eq_some _).mp hq
    exact ⟨hold, fun heq => hplace (h.unique _ _ _ _ p hvalue (heq ▸ hold))⟩
  refine ⟨h.nodup.filter _, ?_, ?_, ?_⟩
  · intro q hq
    obtain ⟨hlisted, hne⟩ := List.mem_filter.mp hq
    obtain ⟨spec, hspec⟩ := h.listed q hlisted
    exact ⟨spec, (OrderedMap.lookup_erase_of_ne _ (of_decide_eq_true hne)).trans hspec⟩
  · intro obj' nWhich' q hq
    obtain ⟨hold, hne⟩ := hentry obj' nWhich' q hq
    exact List.mem_filter.mpr ⟨h.mapped obj' nWhich' q hold, decide_eq_true hne⟩
  · intro obj₁ nWhich₁ obj₂ nWhich₂ q hq₁ hq₂
    exact h.unique _ _ _ _ q (hentry _ _ q hq₁).1 (hentry _ _ q hq₂).1

/-- Erasing at the iterator is removing the record. -/
theorem eraseIdx_eq_filter {l : List P} {it : ℕ} (hnodup : l.Nodup) (hit : l[it]? = some p) :
    l.eraseIdx it = l.filter (· ≠ p) := by
  obtain ⟨hlt, hget⟩ := List.getElem?_eq_some_iff.mp hit
  have hsplit : l = l.take it ++ p :: l.drop (it + 1) := by
    rw [← hget, List.getElem_cons_drop, List.take_append_drop]
  have hfilter := filter_ne_middle (hsplit ▸ hnodup)
  rw [← hsplit] at hfilter
  rw [hfilter, List.eraseIdx_eq_take_drop_succ]

end GlobalTimer

namespace Delivery

variable {O P : Type*} [DecidableEq O] [DecidableEq P]
variable {s s' : Delivery O P} {a : DeliveryAct O P} {acts : List (DeliveryAct O P)}

/-! ## Why a timer leaves -/

/-- The record leaves the list or a place of the map. -/
def Leaves (s s' : Delivery O P) (p : P) : Prop :=
  (p ∈ s.timer.timerList ∧ p ∉ s'.timer.timerList) ∨
    ∃ obj nWhich, s.timer.timerMap.value obj nWhich = some p ∧
      s'.timer.timerMap.value obj nWhich ≠ some p

/-- The scan stands at the record, and its event was accepted by the owner's queue. -/
def Delivers (s s' : Delivery O P) (p : P) : Prop :=
  ∃ pass spec, s.pass = some pass ∧ s.timer.timerList[pass.it]? = some p ∧
    s.timer.live.lookup p = some spec ∧
    (s'.queue spec.obj).q = (s.queue spec.obj).q ++ [timerEvent spec pass.ntv]

/-- A record that leaves in a step was stopped in it, or was delivered in it. -/
def Accounted (s : Delivery O P) (a : DeliveryAct O P) (s' : Delivery O P) : Prop :=
  ∀ p, Leaves s s' p →
    (∃ obj nWhich, a = .stopTimer obj nWhich ∧ s.timer.timerMap.value obj nWhich = some p) ∨
      (a = .scanNext ∧ Delivers s s' p)

/-- The record that the next step of the scan ends. -/
def expiring (s : Delivery O P) : Option (P × TimeSpec O) :=
  match s.pass with
  | none => none
  | some pass =>
    match s.timer.timerList[pass.it]? with
    | none => none
    | some p =>
      match s.timer.live.lookup p with
      | none => none
      | some spec =>
        if (s.timer.timerMap.value spec.obj (ofUint8 spec.nWhich)).isSome ∧ spec.Elapsed pass.ntv
        then some (p, spec)
        else none

/-- When the scan is about to end a timer, the map has the timer under the number that its record
    holds, and the owner's queue is open and not full. -/
def Deliverable (s : Delivery O P) (a : DeliveryAct O P) : Prop :=
  a = .scanNext → ∀ e ∈ s.expiring,
    s.timer.timerMap.value e.2.obj (ofUint8 e.2.nWhich) = some e.1 ∧
      (s.queue e.2.obj).closed = false ∧
      ((s.queue e.2.obj).q.length : ℤ) < (s.queue e.2.obj).max

instance (s : Delivery O P) (a : DeliveryAct O P) : Decidable (s.Deliverable a) :=
  inferInstanceAs (Decidable (_ → _))

theorem expiring_eq_some {p : P} {spec : TimeSpec O} :
    s.expiring = some (p, spec) ↔
      ∃ pass q, s.pass = some pass ∧ s.timer.timerList[pass.it]? = some p ∧
        s.timer.live.lookup p = some spec ∧
        s.timer.timerMap.value spec.obj (ofUint8 spec.nWhich) = some q ∧ spec.Elapsed pass.ntv := by
  unfold expiring
  constructor
  · intro h
    split at h
    · cases h
    · rename_i pass hpass
      split at h
      · cases h
      · rename_i p' hit
        split at h
        · cases h
        · rename_i spec' hspec
          split at h
          · rename_i hends
            cases h
            obtain ⟨q, hvalue⟩ := Option.isSome_iff_exists.mp hends.1
            exact ⟨pass, q, hpass, hit, hspec, hvalue, hends.2⟩
          · cases h
  · rintro ⟨pass, q, hpass, hit, hspec, hvalue, hdue⟩
    simp only [hpass, hit, hspec, hvalue, Option.isSome_some, true_and, if_pos hdue]

/-- The condition at a step of the scan that ends a timer. -/
theorem Deliverable.ends {pass : ScanPass} {p q : P} {spec : TimeSpec O}
    (h : s.Deliverable .scanNext) (hpass : s.pass = some pass)
    (hit : s.timer.timerList[pass.it]? = some p) (hspec : s.timer.live.lookup p = some spec)
    (hvalue : s.timer.timerMap.value spec.obj (ofUint8 spec.nWhich) = some q)
    (hdue : spec.Elapsed pass.ntv) :
    s.timer.timerMap.value spec.obj (ofUint8 spec.nWhich) = some p ∧
      (s.queue spec.obj).closed = false ∧
      ((s.queue spec.obj).q.length : ℤ) < (s.queue spec.obj).max :=
  h rfl (p, spec) (expiring_eq_some.mpr ⟨pass, q, hpass, hit, hspec, hvalue, hdue⟩)

omit [DecidableEq P] in
/-- `add_event` on an open queue with room. -/
theorem queue_post {obj : O} (hopen : (s.queue obj).closed = false)
    (hroom : ((s.queue obj).q.length : ℤ) < (s.queue obj).max) (event : EventInfo) :
    ((s.post obj event).queue obj).q = (s.queue obj).q ++ [event] := by
  rw [post, queue_setQueue_self]
  rcases Queue.put_cases (s.queue obj) event with ⟨hput, -⟩ | ⟨-, hclosed | hfull⟩
  · rw [hput]
  · rw [hopen] at hclosed
    cases hclosed
  · omega

omit [DecidableEq P] in
/-- Events that are in a queue stay in it when another is added. -/
theorem mem_queue_post {obj : O} {e : EventInfo} (h : e ∈ (s.queue obj).q) (obj' : O)
    (event : EventInfo) : e ∈ ((s.post obj' event).queue obj).q := by
  by_cases hobj : obj = obj'
  · subst hobj
    rw [post, queue_setQueue_self]
    rcases Queue.put_cases (s.queue obj) event with ⟨hput, -⟩ | ⟨hput, -⟩
    · rw [hput]
      exact List.mem_append_left _ h
    · rw [hput]
      exact h
  · rw [post, queue_setQueue_of_ne s hobj]
    exact h

/-- A step of the scan that ends a timer is accounted for only if the timer could be delivered. -/
theorem deliverable_of_accounted {pass : ScanPass} {p q : P} {spec : TimeSpec O}
    (hpass : s.pass = some pass) (hit : s.timer.timerList[pass.it]? = some p)
    (hspec : s.timer.live.lookup p = some spec)
    (hvalue : s.timer.timerMap.value spec.obj (ofUint8 spec.nWhich) = some q)
    (hdue : spec.Elapsed pass.ntv) (hstep : s.scanNext = some s')
    (haccounted : Accounted s .scanNext s') :
    s.timer.timerMap.value spec.obj (ofUint8 spec.nWhich) = some p ∧
      (s.queue spec.obj).closed = false ∧
      ((s.queue spec.obj).q.length : ℤ) < (s.queue spec.obj).max := by
  have hscan := GlobalTimer.scanSpec_eq pass.ntv hspec hvalue
  rw [if_pos hdue] at hscan
  simp only [scanNext, hpass, hit, hscan] at hstep
  cases hstep
  -- the record that the map had under the number has left it
  have hleft := haccounted q (.inr ⟨spec.obj, ofUint8 spec.nWhich, hvalue, by
    intro hstill
    have hgone : (s.timer.timerMap.discard spec.obj (ofUint8 spec.nWhich)).value spec.obj
        (ofUint8 spec.nWhich) = some q := hstill
    rw [OrderedMap.value_discard_self] at hgone
    cases hgone⟩)
  rcases hleft with ⟨obj, nWhich, hstop, -⟩ | ⟨-, pass', spec', hpass', hit', hspec', hqueue⟩
  · cases hstop
  · rw [hpass] at hpass'
    cases hpass'
    rw [hit] at hit'
    cases hit'
    rw [hspec] at hspec'
    cases hspec'
    refine ⟨hvalue, ?_⟩
    rw [post, queue_setQueue_self] at hqueue
    rcases Queue.put_cases (s.queue spec.obj) (timerEvent spec pass.ntv) with
      ⟨-, hopen, hroom⟩ | ⟨hput, -⟩
    · exact ⟨hopen, hroom⟩
    · -- a queue that rejects the event is not longer behind it
      have hlength := congrArg List.length hqueue
      rw [hput, List.length_append, List.length_singleton] at hlength
      simp at hlength

/-- Nothing leaves in a step that keeps the list and the map. -/
theorem Accounted.of_kept (hlist : ∀ p ∈ s.timer.timerList, p ∈ s'.timer.timerList)
    (hmap : ∀ obj nWhich p, s.timer.timerMap.value obj nWhich = some p →
      s'.timer.timerMap.value obj nWhich = some p) : Accounted s a s' := by
  intro p hleaves
  rcases hleaves with ⟨hin, hout⟩ | ⟨obj, nWhich, hin, hout⟩
  · exact absurd (hlist p hin) hout
  · exact absurd (hmap obj nWhich p hin) hout

/-- A step that does not touch the timers. -/
theorem Accounted.of_timer_eq (h : s'.timer = s.timer) : Accounted s a s' := by
  refine .of_kept ?_ ?_
  · intro p hp
    rw [h]
    exact hp
  · intro obj nWhich p hvalue
    rw [h]
    exact hvalue

/-- A timer that starts is one more. -/
theorem Accounted.of_started {obj : O} {nWhich : CInt}
    (hnone : s.timer.timerMap.value obj nWhich = none) {msecs : CInt} {tv : TimeVal} {p : P}
    (h : s'.timer = (s.timer.addElement obj msecs nWhich tv p).2) : Accounted s a s' := by
  rw [GlobalTimer.addElement_new hnone] at h
  refine .of_kept ?_ ?_
  · intro q hq
    rw [h]
    exact List.mem_append_left _ hq
  · intro obj' nWhich' q hvalue
    have hplace : (obj', nWhich') ≠ (obj, nWhich) := by
      intro heq
      obtain ⟨rfl, rfl⟩ := Prod.mk.inj heq
      rw [hnone] at hvalue
      cases hvalue
    rw [h]
    exact (OrderedMap.value_store_of_ne _ hplace).trans hvalue

/-- `stop_timer` accounts for the record that it removes. -/
theorem Accounted.of_stopped {obj : O} {nWhich : CInt} {p : P}
    (hvalue : s.timer.timerMap.value obj nWhich = some p)
    (h : s'.timer = s.timer.drop obj nWhich p) : Accounted s (.stopTimer obj nWhich) s' := by
  intro q hleaves
  have hq : q = p := by
    rcases hleaves with ⟨hin, hout⟩ | ⟨obj', nWhich', hin, hout⟩
    · by_contra hne
      rw [h] at hout
      exact hout (List.mem_filter.mpr ⟨hin, decide_eq_true hne⟩)
    · rw [h] at hout
      exact OrderedMap.eq_of_value_discard_ne _ hvalue hin hout
  exact .inl ⟨obj, nWhich, rfl, hq ▸ hvalue⟩

/-- **A step accounts for the timers that leave in it exactly when the timer that it ends, if it
    ends one, can be delivered.** -/
theorem accounted_iff (hstep : s.step a = some s') : Accounted s a s' ↔ s.Deliverable a := by
  obtain ⟨hstepped, hdefined⟩ := stepped_of_step hstep
  constructor
  · rintro haccounted rfl ⟨p, spec⟩ hexpiring
    obtain ⟨pass, q, hpass, hit, hspec, hvalue, hdue⟩ := expiring_eq_some.mp hexpiring
    have hscan : s.scanNext = some s' := by
      simpa only [step, hdefined, Bool.false_eq_true, if_false] using hstep
    exact deliverable_of_accounted hpass hit hspec hvalue hdue hscan haccounted
  · intro hok
    cases hstepped with
    | started obj msecs nWhich tv p hnone hfresh => exact .of_started hnone rfl
    | armed obj interval tv p hnone hfresh => exact .of_started hnone rfl
    | stopped obj nWhich p hvalue => exact .of_stopped hvalue rfl
    | scanEnds pass p q spec hpass hit hspec hvalue hdue =>
      obtain ⟨hown, hopen, hroom⟩ := hok.ends hpass hit hspec hvalue hdue
      intro r hleaves
      have hr : r = p := by
        rcases hleaves with ⟨hin, hout⟩ | ⟨obj', nWhich', hin, hout⟩
        · -- what the list has elsewhere stays in it
          by_contra hne
          obtain ⟨i, hi⟩ := List.mem_iff_getElem?.mp hin
          refine hout (List.mem_eraseIdx_iff_getElem?.mpr ⟨i, ?_, hi⟩)
          rintro rfl
          rw [hit] at hi
          exact hne (Option.some.inj hi).symm
        · exact OrderedMap.eq_of_value_discard_ne _ hown hin hout
      subst hr
      exact .inr ⟨rfl, pass, spec, hpass, hit, hspec, queue_post hopen hroom _⟩
    | _ => exact .of_timer_eq rfl

/-! ## Records are used while they are live -/

/-- The records are in their places, and none was used after it was deleted. -/
def Sound (s : Delivery O P) : Prop :=
  s.timer.Placed ∧ s.undefined = false

theorem sound_initial (bufferLen : O → ℤ) : (initial bufferLen : Delivery O P).Sound :=
  ⟨GlobalTimer.placed_new, rfl⟩

theorem sound_step (h : s.Sound) (hok : s.Deliverable a) (hstep : s.step a = some s') :
    s'.Sound := by
  obtain ⟨hplaced, hdefined⟩ := h
  obtain ⟨hstepped, -⟩ := stepped_of_step hstep
  cases hstepped with
  | started obj msecs nWhich tv p hnone hfresh => exact ⟨hplaced.add hnone hfresh msecs tv, hdefined⟩
  | armed obj interval tv p hnone hfresh => exact ⟨hplaced.add hnone hfresh interval tv, hdefined⟩
  | stopped obj nWhich p hvalue => exact ⟨hplaced.drop hvalue, hdefined⟩
  | stoppedDeleted obj nWhich p hvalue hdeleted =>
    obtain ⟨spec, hspec⟩ := hplaced.listed p (hplaced.mapped obj nWhich p hvalue)
    rw [hdeleted] at hspec
    cases hspec
  | scanDeleted pass p hpass hit hdeleted =>
    obtain ⟨spec, hspec⟩ := hplaced.listed p (List.mem_of_getElem? hit)
    rw [hdeleted] at hspec
    cases hspec
  | scanEnds pass p q spec hpass hit hspec hvalue hdue =>
    obtain ⟨hown, -⟩ := hok.ends hpass hit hspec hvalue hdue
    refine ⟨?_, hdefined⟩
    have hdropped := hplaced.drop hown
    rw [GlobalTimer.drop, ← GlobalTimer.eraseIdx_eq_filter hplaced.nodup hit] at hdropped
    exact hdropped
  | _ => exact ⟨hplaced, hdefined⟩

/-! ## Monitors -/

/-- The event of a monitor's timer is in the monitor's queue. -/
def Queued (s : Delivery O P) (obj : O) : Prop :=
  ∃ e ∈ (s.queue obj).q, e.type = ciTimerDone ∧ (e.subtype : ℤ) = monitorWhich.val

/-- The timer of a monitor is pending, or its event is in the monitor's queue. -/
def Armed (s : Delivery O P) (obj : O) : Prop :=
  (s.timer.timerMap.value obj monitorWhich).isSome ∨ s.Queued obj

/-- A monitor that is in its loop is armed, or handles an event. -/
def Tended (s : Delivery O P) (obj : O) : Prop :=
  s.monitor obj = .idle ∨ s.monitor obj = .starts ∨ s.monitor obj = .handles ∨ s.Armed obj

omit [DecidableEq P] in
theorem Tended.of_armed {obj : O} (h : s.Armed obj) : s.Tended obj :=
  .inr (.inr (.inr h))

omit [DecidableEq P] in
theorem Tended.armed {obj : O} (h : s.Tended obj)
    (hpc : s.monitor obj = .checks ∨ s.monitor obj = .removes) : s.Armed obj := by
  rcases h with h | h | h | h
  · rcases hpc with hpc | hpc <;> · rw [h] at hpc; cases hpc
  · rcases hpc with hpc | hpc <;> · rw [h] at hpc; cases hpc
  · rcases hpc with hpc | hpc <;> · rw [h] at hpc; cases hpc
  · exact h

omit [DecidableEq P] in
/-- A step that keeps the timer of a monitor and the events in its queue keeps it armed. -/
theorem Armed.mono {obj : O} (h : s.Armed obj)
    (hvalue : (s.timer.timerMap.value obj monitorWhich).isSome →
      (s'.timer.timerMap.value obj monitorWhich).isSome)
    (hqueue : ∀ e ∈ (s.queue obj).q, e ∈ (s'.queue obj).q) : s'.Armed obj := by
  rcases h with hpending | ⟨e, he, hdone⟩
  · exact .inl (hvalue hpending)
  · exact .inr ⟨e, hqueue e he, hdone⟩

omit [DecidableEq P] in
theorem Tended.mono {obj : O} (h : s.Tended obj) (hpc : s'.monitor obj = s.monitor obj)
    (harmed : s.Armed obj → s'.Armed obj) : s'.Tended obj := by
  rcases h with hidle | hstarts | hhandles | h
  · exact .inl (hpc.trans hidle)
  · exact .inr (.inl (hpc.trans hstarts))
  · exact .inr (.inr (.inl (hpc.trans hhandles)))
  · exact .of_armed (harmed h)

omit [DecidableEq P] in
/-- The step of another monitor. -/
theorem Tended.moveTo_of_ne {obj obj' : O} (h : s.Tended obj) (hobj : obj ≠ obj')
    (pc : MonitorPc) : (s.moveTo obj' pc).Tended obj :=
  h.mono (monitor_moveTo_of_ne s hobj pc) id

omit [DecidableEq P] in
/-- A monitor, this one or another, leaves its loop or gets to its beginning. -/
theorem Tended.moveTo_outside {obj : O} (h : s.Tended obj) (obj' : O) {pc : MonitorPc}
    (hpc : pc = .idle ∨ pc = .starts) : (s.moveTo obj' pc).Tended obj := by
  by_cases hobj : obj = obj'
  · subst hobj
    rcases hpc with rfl | rfl
    · exact .inl (monitor_moveTo_self s obj _)
    · exact .inr (.inl (monitor_moveTo_self s obj _))
  · exact h.moveTo_of_ne hobj _

omit [DecidableEq P] in
/-- The queue of another owner. -/
theorem Tended.setQueue_of_ne {obj obj' : O} (h : s.Tended obj) (hobj : obj ≠ obj')
    (queue : Queue EventInfo) : (s.setQueue obj' queue).Tended obj := by
  refine h.mono rfl fun harmed => harmed.mono id ?_
  intro e he
  rw [queue_setQueue_of_ne s hobj]
  exact he

/-- Starting a timer does not end one. -/
theorem isSome_value_addElement {obj obj' : O} {msecs nWhich nWhich' : CInt} {tv : TimeVal} {p : P}
    (hnone : s.timer.timerMap.value obj' nWhich' = none)
    (h : (s.timer.timerMap.value obj nWhich).isSome) :
    ((s.timer.addElement obj' msecs nWhich' tv p).2.timerMap.value obj nWhich).isSome := by
  rw [GlobalTimer.addElement_new hnone]
  have hplace : (obj, nWhich) ≠ (obj', nWhich') := by
    intro heq
    obtain ⟨rfl, rfl⟩ := Prod.mk.inj heq
    rw [hnone] at h
    cases h
  show ((s.timer.timerMap.store obj' nWhich' p).value obj nWhich).isSome
  rw [OrderedMap.value_store_of_ne _ hplace]
  exact h

/-- The scan ends a timer that can be delivered: it ends the timer of the monitor with its event
    in the queue, or another one. -/
theorem Armed.scanEnds {obj : O} {pass : ScanPass} {p : P} {spec : TimeSpec O} (h : s.Armed obj)
    (hopen : (s.queue spec.obj).closed = false)
    (hroom : ((s.queue spec.obj).q.length : ℤ) < (s.queue spec.obj).max) :
    (post
      { s with
        timer := ⟨s.timer.timerMap.discard spec.obj (ofUint8 spec.nWhich),
          s.timer.timerList.eraseIdx pass.it, s.timer.live.erase p⟩ }
      spec.obj (timerEvent spec pass.ntv)).Armed obj := by
  by_cases hplace : (obj, monitorWhich) = (spec.obj, ofUint8 spec.nWhich)
  · obtain ⟨rfl, hwhich⟩ := Prod.mk.inj hplace
    refine .inr ⟨timerEvent spec pass.ntv, ?_, rfl, (congrArg Subtype.val hwhich).symm⟩
    have hposted := queue_post hopen hroom (timerEvent spec pass.ntv)
    exact hposted ▸ List.mem_append_right _ (List.mem_singleton_self _)
  · refine h.mono ?_ fun e he => mem_queue_post he spec.obj _
    intro hpending
    show ((s.timer.timerMap.discard spec.obj (ofUint8 spec.nWhich)).value obj monitorWhich).isSome
    rw [OrderedMap.value_discard_of_ne _ hplace]
    exact hpending

omit [DecidableEq P] in
/-- The monitor takes an event that is not `CI_TIMER_DONE`: it was not the one of its timer. -/
theorem Armed.removed {obj : O} {event : EventInfo} {rest : List EventInfo} (h : s.Armed obj)
    (hq : (s.queue obj).q = event :: rest) (hother : event.type ≠ ciTimerDone) :
    (s.setQueue obj { s.queue obj with q := rest }).Armed obj := by
  rcases h with hpending | ⟨e, he, htype, hwhich⟩
  · exact .inl hpending
  · refine .inr ⟨e, ?_, htype, hwhich⟩
    rw [hq] at he
    rcases List.mem_cons.mp he with rfl | hrest
    · exact absurd htype hother
    · rw [queue_setQueue_self]
      exact hrest

/-- **A monitor stays tended** in each step that is not the `stop_timer` of its timer. -/
theorem tended_step {obj : O} (h : s.Tended obj) (hok : s.Deliverable a)
    (hstop : a ≠ .stopTimer obj monitorWhich) (hstep : s.step a = some s') : s'.Tended obj := by
  obtain ⟨hstepped, -⟩ := stepped_of_step hstep
  cases hstepped with
  | running obj' msecs nWhich tv p q hvalue => exact h
  | started obj' msecs nWhich tv p hnone hfresh =>
    exact h.mono rfl fun harmed => harmed.mono (isSome_value_addElement hnone) fun _ => id
  | armedRunning obj' interval tv p q hvalue =>
    by_cases hobj : obj = obj'
    · subst hobj
      exact .of_armed (.inl (by simp [moveTo, hvalue]))
    · exact h.moveTo_of_ne hobj _
  | armed obj' interval tv p hnone hfresh =>
    by_cases hobj : obj = obj'
    · subst hobj
      refine .of_armed (.inl ?_)
      rw [GlobalTimer.addElement_new hnone]
      show ((s.timer.timerMap.store obj monitorWhich p).value obj monitorWhich).isSome
      rw [OrderedMap.value_store_self]
      rfl
    · refine Tended.moveTo_of_ne ?_ hobj _
      exact h.mono rfl fun harmed => harmed.mono (isSome_value_addElement hnone) fun _ => id
  | notRunning obj' nWhich => exact h
  | stopped obj' nWhich p hvalue =>
    -- another timer than the monitor's
    have hplace : (obj, monitorWhich) ≠ (obj', nWhich) := by
      intro heq
      obtain ⟨rfl, rfl⟩ := Prod.mk.inj heq
      exact hstop rfl
    refine h.mono rfl fun harmed => harmed.mono ?_ fun _ => id
    intro hpending
    show ((s.timer.timerMap.discard obj' nWhich).value obj monitorWhich).isSome
    rw [OrderedMap.value_discard_of_ne _ hplace]
    exact hpending
  | stoppedDeleted obj' nWhich p hvalue hdeleted => exact h
  | scanBegun ntv => exact h
  | scanDone => exact h
  | scanDeleted pass p hpass hit hdeleted => exact h
  | scanPasses pass p spec hpass hit hspec hnot => exact h
  | scanEnds pass p q spec hpass hit hspec hvalue hdue =>
    obtain ⟨-, hopen, hroom⟩ := hok.ends hpass hit hspec hvalue hdue
    exact h.mono rfl fun harmed => harmed.scanEnds hopen hroom
  | added obj' event =>
    exact h.mono rfl fun harmed => harmed.mono id fun e he => mem_queue_post he obj' event
  | consumed obj' queue hpc =>
    by_cases hobj : obj = obj'
    · subst hobj
      exact .inl hpc
    · exact h.setQueue_of_ne hobj _
  | launched obj' => exact h.moveTo_outside obj' (.inr rfl)
  | exits obj' => exact h.moveTo_outside obj' (.inl rfl)
  | stays obj' hpc =>
    by_cases hobj : obj = obj'
    · subst hobj
      exact .of_armed (h.armed (.inl hpc))
    · exact h.moveTo_of_ne hobj _
  | removedNull obj' => exact h.moveTo_outside obj' (.inl rfl)
  | removed obj' event rest hpc hq =>
    by_cases hobj : obj = obj'
    · subst hobj
      by_cases hdone : event.type = ciTimerDone
      · rw [if_pos hdone]
        exact .inr (.inr (.inl (monitor_moveTo_self _ obj _)))
      · exact .of_armed ((h.armed (.inr hpc)).removed hq hdone)
    · exact (h.setQueue_of_ne hobj _).moveTo_of_ne hobj _

/-! ## Runs -/

/-- What a run owes to the owners of timers. -/
structure Delivered (bufferLen : O → ℤ) (acts : List (DeliveryAct O P)) : Prop where
  -- a timer leaves because it is stopped, or because its event was accepted
  accounted : (machine bufferLen).Along
    (fun s a => ∀ s', (machine bufferLen).step s a = some s' → Accounted s a s')
    (initial bufferLen) acts
  -- a monitor whose timer is not stopped from outside is always tended
  tended : ∀ obj, (∀ a ∈ acts, a ≠ .stopTimer obj monitorWhich) →
    (machine bufferLen).Throughout (Tended · obj) (initial bufferLen) acts
  -- no record is used after it was deleted
  live : (machine bufferLen).Throughout (·.undefined = false) (initial bufferLen) acts

/-- **No timer vanishes in a run exactly when each timer that the scan ends can be delivered.** -/
theorem timers_delivered_iff (bufferLen : O → ℤ)
    (hrun : (machine bufferLen).run (initial bufferLen) acts = some s) :
    Delivered bufferLen acts ↔
      (machine bufferLen).Along Deliverable (initial bufferLen) acts := by
  have hsteps : (machine bufferLen).Along
      (fun s a => ∀ s', (machine bufferLen).step s a = some s' → Accounted s a s')
      (initial bufferLen) acts ↔
      (machine bufferLen).Along Deliverable (initial bufferLen) acts := by
    refine Machine.along_congr ?_ hrun
    intro t a t' hstep
    rw [← accounted_iff hstep]
    constructor
    · intro h
      exact h t' hstep
    · intro h u hu
      rw [hstep] at hu
      cases hu
      exact h
  refine ⟨fun h => hsteps.mp h.accounted, fun hok => ⟨hsteps.mpr hok, ?_, ?_⟩⟩
  · intro obj hstop
    refine Machine.throughout_of_along (I := (Tended · obj)) (fun _ => id) ?_ (.inl rfl)
      (Machine.along_and hok (Machine.along_of_forall hstop (initial bufferLen)))
    intro t a t' ht hcond hstep
    exact tended_step ht hcond.1 hcond.2 hstep
  · refine Machine.throughout_of_along (I := Sound) (fun _ h => h.2) ?_ (sound_initial bufferLen) hok
    intro t a t' ht hcond hstep
    exact sound_step ht hcond hstep

/-- The timer of a monitor elapses, and the monitor takes the event and starts the timer again. -/
theorem timers_delivered_rearmed :
    let acts : List (DeliveryAct ℕ ℕ) :=
      [.launch 0, .arm 0 ⟨500, by decide⟩ ⟨0, 0⟩ 0, .check 0 false, .scanBegin ⟨1, 0⟩, .scanNext,
        .scanNext, .remove 0, .arm 0 ⟨500, by decide⟩ ⟨1, 0⟩ 1]
    ∃ s, (machine fun _ => 8).run (initial fun _ => 8) acts = some s ∧
      Delivered (fun _ => 8) acts := by
  intro acts
  exact ⟨_, rfl, (timers_delivered_iff (fun _ => 8) rfl).mpr (by decide)⟩

/-- The timer of a monitor elapses while an event of another kind fills the queue: the monitor is
    in its loop, and there is neither a timer nor an event. -/
theorem timers_delivered_counterexample :
    let acts : List (DeliveryAct ℕ ℕ) :=
      [.launch 0, .arm 0 ⟨500, by decide⟩ ⟨0, 0⟩ 0, .check 0 false, .add 0 (.build 1 0 []),
        .scanBegin ⟨1, 0⟩, .scanNext, .scanNext, .remove 0]
    ∃ s, (machine fun _ => 1).run (initial fun _ => 1) acts = some s ∧
      s.monitor 0 = .checks ∧ s.timer.timerMap.value 0 monitorWhich = none ∧ (s.queue 0).q = [] ∧
      ¬Delivered (fun _ => 1) acts := by
  intro acts
  refine ⟨_, rfl, by decide, by decide, by decide, ?_⟩
  intro h
  rcases h.tended 0 (by decide) acts [] _ (by simp) rfl with hpc | hpc | hpc | hpending | hqueued
  · exact absurd hpc (by decide)
  · exact absurd hpc (by decide)
  · exact absurd hpc (by decide)
  · exact absurd hpending (by decide)
  · obtain ⟨e, he, -⟩ := hqueued
    cases he

end Delivery

end Pdk.Sync
