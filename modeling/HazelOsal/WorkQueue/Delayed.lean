import HazelOsal.WorkQueue.Invariant

/-! # What becomes of an accepted schedule

Each schedule that `os_work_schedule_common` accepts with a delay is on the delayed list, or its
promotion is in flight, or it has exactly one fate. The fate `dropped` is that of a promotion
whose submission is refused: `os_work_promote_delayed` has cleared `OS_WORK_DELAYED` by then and
ignores the result. In runs whose promotions are admitted no schedule is dropped. The fate
`submitted` is that of a schedule with an accepted submission of its own. -/

namespace HazelOsal

open TransitionSystem

variable {Q W T : Type} [DecidableEq Q] [DecidableEq W]

/-- The true tick at which the current schedule of `d` comes due. -/
def Mem.currentDue (m : Mem Q W) (d : W) : Nat := m.hist.due d (m.hist.scheduled d)

/-- The deadline of a delayed item is the low half of the tick at which it comes due. -/
def DeadlineInv (m : Mem Q W) : Prop :=
  ∀ d, (m.work d).flags.delayed = true → (m.dwork d).deadline = UInt32.ofNat (m.currentDue d)

/-! ## Fates and promotions -/

/-- Schedule `j` of `d` is decided in one way: it is the current one of a delayed item, or it is
being promoted by one worker, or it has one fate, which is not `dropped`. `promotion` is the
schedule that each worker is promoting. -/
structure FateInv (m : Mem Q W) (promotion : Q → Option (W × Nat)) : Prop where
  delayed : ∀ d, (m.work d).flags.delayed = true → 0 < m.hist.scheduled d ∧
    m.hist.fates d (m.hist.scheduled d) = []
  future : ∀ d j, m.hist.scheduled d < j → m.hist.fates d j = []
  flight : ∀ q d j, promotion q = some (d, j) → 0 < j ∧ j ≤ m.hist.scheduled d ∧
    m.hist.fates d j = [] ∧ ((m.work d).flags.delayed = true → j < m.hist.scheduled d)
  unique : ∀ q q' x, promotion q = some x → promotion q' = some x → q = q'
  settled : ∀ d j, 0 < j → j ≤ m.hist.scheduled d →
    ((m.work d).flags.delayed = true → j < m.hist.scheduled d) →
    (∀ q, promotion q ≠ some (d, j)) → ∃ f, m.hist.fates d j = [f] ∧ f ≠ .dropped

section
variable {m m' : Mem Q W} {q : Q} {d : W} {pr : Q → Option (W × Nat)}

/-- The delayed items, their schedules and the fates are as before. -/
structure SameFates (m m' : Mem Q W) : Prop where
  flag : ∀ w, (m'.work w).flags.delayed = (m.work w).flags.delayed
  dwork : m'.dwork = m.dwork
  hist : m'.hist.scheduled = m.hist.scheduled ∧ m'.hist.due = m.hist.due ∧
    m'.hist.fates = m.hist.fates

section
omit [DecidableEq Q] [DecidableEq W]

theorem SameFates.currentDue (h : SameFates m m') (d : W) : m'.currentDue d = m.currentDue d := by
  rw [Mem.currentDue, h.hist.1, h.hist.2.1]; rfl

theorem FateInv.sameFates (h : FateInv m pr) (hs : SameFates m m') : FateInv m' pr := by
  obtain ⟨hflag, -, hsch, -, hfates⟩ := hs
  refine ⟨?_, ?_, ?_, h.unique, ?_⟩
  · intro d; rw [hflag, hsch, hfates]; exact h.delayed d
  · intro d j; rw [hsch, hfates]; exact h.future d j
  · intro q d j; rw [hflag, hsch, hfates]; exact h.flight q d j
  · intro d j; rw [hflag, hsch, hfates]; exact h.settled d j

theorem Same.sameFates (h : Same m m') : SameFates m m' := by
  obtain ⟨jt, hj⟩ := h.hist
  exact ⟨fun w => by rw [h.flags], h.dwork, by rw [hj]; exact ⟨rfl, rfl, rfl⟩⟩

theorem SameDelay.sameFates (h : SameDelay m m')
    (hh : m'.hist.scheduled = m.hist.scheduled ∧ m'.hist.due = m.hist.due ∧
      m'.hist.fates = m.hist.fates) : SameFates m m' :=
  ⟨h.flag, h.dwork, hh⟩

end

theorem cancel_sameFates {w : W} (h : RunInv m) : SameFates m (osWorkCancelCritical m w).1 := by
  refine (cancel_sameDelay h).sameFates ?_
  rw [cancel_hist h]
  exact ⟨rfl, rfl, rfl⟩

/-! ### A new schedule -/

theorem ofNat_add_toNat (tick : Nat) (delay : UInt32) :
    UInt32.ofNat (tick + delay.toNat) = UInt32.ofNat tick + delay := by
  rw [UInt32.ofNat_add, UInt32.ofNat_toNat]

theorem arm_currentDue {delay : UInt32} {d' : W} : (osWorkArm m q d delay).currentDue d' =
    if d' = d then m.tick + delay.toNat else m.currentDue d' := by
  have hsch : (osWorkArm m q d delay).hist.scheduled =
      Function.update m.hist.scheduled d (m.hist.scheduled d + 1) := rfl
  have hdue : (osWorkArm m q d delay).hist.due = Function.update m.hist.due d
      (Function.update (m.hist.due d) (m.hist.scheduled d + 1) (m.tick + delay.toNat)) := rfl
  rw [Mem.currentDue, hsch, hdue]
  split
  case isTrue h => rw [h]; simp only [Function.update_self]
  case isFalse h => simp only [Function.update_of_ne h]; rfl

theorem FateInv.arm {delay : UInt32} (h : FateInv m pr)
    (hd : (m.work d).flags.delayed = false) : FateInv (osWorkArm m q d delay) pr := by
  have hsch (d' : W) : (osWorkArm m q d delay).hist.scheduled d' =
      if d' = d then m.hist.scheduled d + 1 else m.hist.scheduled d' := by
    simp only [osWorkArm, Function.update_apply]; rfl
  have hfates : (osWorkArm m q d delay).hist.fates = m.hist.fates := rfl
  refine ⟨?_, ?_, ?_, h.unique, ?_⟩
  · intro d' hd'
    rw [arm_work] at hd'
    rw [hsch, hfates]
    by_cases hdd : d' = d
    · subst hdd
      rw [if_pos rfl]
      exact ⟨Nat.succ_pos _, h.future d' _ (Nat.lt_succ_self _)⟩
    · rw [if_neg hdd] at hd' ⊢
      exact h.delayed d' hd'
  · intro d' j hj
    rw [hsch] at hj
    rw [hfates]
    refine h.future d' j ?_
    split at hj
    case isTrue hdd => subst hdd; omega
    case isFalse => exact hj
  · intro q' d' j hp
    obtain ⟨h0, hle, hf, hlt⟩ := h.flight q' d' j hp
    rw [hsch, arm_work, hfates]
    by_cases hdd : d' = d
    · subst hdd
      simp only [if_true]
      exact ⟨h0, Nat.le_succ_of_le hle, hf, fun _ => Nat.lt_succ_of_le hle⟩
    · simp only [hdd, if_false]
      exact ⟨h0, hle, hf, hlt⟩
  · intro d' j h0 hle hlt hp
    rw [hsch] at hle hlt
    rw [arm_work] at hlt
    rw [hfates]
    by_cases hdd : d' = d
    · subst hdd
      simp only [if_true] at hlt
      exact h.settled d' j h0 (Nat.lt_succ_iff.mp (hlt trivial)) (by simp [hd]) hp
    · rw [if_neg hdd] at hle hlt
      rw [if_neg hdd] at hlt
      exact h.settled d' j h0 hle hlt hp

/-! ### The current schedule is taken off the list -/

omit [DecidableEq Q] in
theorem FateInv.undelay {f : Fate} (h : FateInv m pr) (hd : (m.work d).flags.delayed = true)
    (hf : f ≠ .dropped) : FateInv (undelay m d f) pr := by
  have hfates (d' : W) (j : Nat) : (HazelOsal.undelay m d f).hist.fates d' j =
      if d' = d ∧ j = m.hist.scheduled d then m.hist.fates d j ++ [f]
      else m.hist.fates d' j := by
    have : (HazelOsal.undelay m d f).hist.fates = Function.update m.hist.fates d
        (Function.update (m.hist.fates d) (m.hist.scheduled d)
          (m.hist.fates d (m.hist.scheduled d) ++ [f])) := rfl
    rw [this]
    simp only [Function.update_apply]
    grind
  have hwork (d' : W) : ((HazelOsal.undelay m d f).work d').flags.delayed =
      if d' = d then false else (m.work d').flags.delayed := by
    rw [undelay_work, clearDelayed_work]; split <;> rfl
  have hsch : (HazelOsal.undelay m d f).hist.scheduled = m.hist.scheduled := rfl
  obtain ⟨hpos, hopen⟩ := h.delayed d hd
  refine ⟨?_, ?_, ?_, h.unique, ?_⟩
  · intro d' hd'
    rw [hwork] at hd'
    split at hd'
    · cases hd'
    case isFalse hdd =>
      rw [hsch, hfates, if_neg (fun h => hdd h.1)]
      exact h.delayed d' hd'
  · intro d' j hj
    rw [hsch] at hj
    rw [hfates, if_neg]
    · exact h.future d' j hj
    · rintro ⟨rfl, rfl⟩; exact absurd hj (Nat.lt_irrefl _)
  · intro q' d' j hp
    obtain ⟨h0, hle, hnil, hlt⟩ := h.flight q' d' j hp
    rw [hsch, hfates, hwork, if_neg]
    · refine ⟨h0, hle, hnil, fun hd' => hlt ?_⟩
      split at hd'
      · cases hd'
      · exact hd'
    · rintro ⟨rfl, rfl⟩; exact absurd (hlt hd) (Nat.lt_irrefl _)
  · intro d' j h0 hle hlt hp
    rw [hsch] at hle hlt
    rw [hwork] at hlt
    rw [hfates]
    by_cases hj : d' = d ∧ j = m.hist.scheduled d
    · obtain ⟨rfl, rfl⟩ := hj
      rw [if_pos ⟨rfl, rfl⟩, hopen]
      exact ⟨f, rfl, hf⟩
    · rw [if_neg hj]
      refine h.settled d' j h0 hle (fun hd' => ?_) hp
      by_cases hdd : d' = d
      · subst hdd
        exact Nat.lt_of_le_of_ne hle fun hj' => hj ⟨rfl, hj'⟩
      · exact hlt (by rw [if_neg hdd]; exact hd')

/-! ### Promotion -/

theorem FateInv.promote (h : FateInv m pr) (hd : (m.work d).flags.delayed = true)
    (hq : pr q = none) :
    FateInv (clearDelayed m d) (Function.update pr q (some (d, m.hist.scheduled d))) := by
  have hwork (d' : W) : ((clearDelayed m d).work d').flags.delayed =
      if d' = d then false else (m.work d').flags.delayed := by
    rw [clearDelayed_work]; split <;> rfl
  have hhist : (clearDelayed m d).hist = m.hist := rfl
  obtain ⟨hpos, hopen⟩ := h.delayed d hd
  -- the schedule was the current one of a delayed item, so no other worker is promoting it
  have hfree (q' : Q) : pr q' ≠ some (d, m.hist.scheduled d) := fun hp =>
    absurd ((h.flight q' d _ hp).2.2.2 hd) (Nat.lt_irrefl _)
  refine ⟨?_, ?_, ?_, ?_, ?_⟩
  · intro d' hd'
    rw [hwork] at hd'
    split at hd'
    · cases hd'
    · rw [hhist]; exact h.delayed d' hd'
  · rw [hhist]; exact h.future
  · intro q' d' j hp
    rw [Function.update_apply] at hp
    rw [hwork, hhist]
    split at hp
    case isTrue =>
      cases hp
      exact ⟨hpos, Nat.le_refl _, hopen, by simp⟩
    case isFalse =>
      obtain ⟨h0, hle, hnil, hlt⟩ := h.flight q' d' j hp
      refine ⟨h0, hle, hnil, fun hd' => hlt ?_⟩
      split at hd'
      · cases hd'
      · exact hd'
  · intro q₁ q₂ x h₁ h₂
    rw [Function.update_apply] at h₁ h₂
    split at h₁ <;> split at h₂
    · simp_all
    · cases h₁; exact absurd h₂ (hfree q₂)
    · cases h₂; exact absurd h₁ (hfree q₁)
    · exact h.unique q₁ q₂ x h₁ h₂
  · intro d' j h0 hle hlt hp
    rw [hhist] at hle hlt
    rw [hwork] at hlt
    rw [hhist]
    have hself := hp q
    rw [Function.update_self] at hself
    refine h.settled d' j h0 hle (fun hd' => ?_) (fun q' hp' => ?_)
    · by_cases hdd : d' = d
      · subst hdd
        exact Nat.lt_of_le_of_ne hle fun hj => hself (by rw [hj])
      · exact hlt (by rw [if_neg hdd]; exact hd')
    · by_cases hqq : q' = q
      · subst hqq; rw [hq] at hp'; cases hp'
      · exact hp q' (by rw [Function.update_of_ne hqq]; exact hp')

theorem FateInv.settle {j : Nat} {f : Fate} (h : FateInv m pr) (hq : pr q = some (d, j))
    (hf : f ≠ .dropped) : FateInv (m.settle d j f) (Function.update pr q none) := by
  have hfates (d' : W) (i : Nat) : (m.settle d j f).hist.fates d' i =
      if d' = d ∧ i = j then m.hist.fates d j ++ [f] else m.hist.fates d' i := by
    simp only [Mem.settle, Function.update_apply]; grind
  have hsame : (m.settle d j f).work = m.work ∧
      (m.settle d j f).hist.scheduled = m.hist.scheduled := ⟨rfl, rfl⟩
  obtain ⟨hw, hsch⟩ := hsame
  obtain ⟨hj0, hjle, hnil, hjlt⟩ := h.flight q d j hq
  refine ⟨?_, ?_, ?_, ?_, ?_⟩
  · intro d' hd'
    rw [hw] at hd'
    rw [hsch, hfates, if_neg]
    · exact h.delayed d' hd'
    · rintro ⟨rfl, hj⟩; exact absurd (hjlt hd') (by omega)
  · intro d' i hi
    rw [hsch] at hi
    rw [hfates, if_neg]
    · exact h.future d' i hi
    · rintro ⟨rfl, rfl⟩; omega
  · intro q' d' i hp
    rw [Function.update_apply] at hp
    split at hp
    · cases hp
    case isFalse hqq =>
      rw [hw, hsch, hfates, if_neg]
      · exact h.flight q' d' i hp
      · rintro ⟨rfl, rfl⟩; exact hqq (h.unique q' q _ hp hq)
  · intro q₁ q₂ x h₁ h₂
    rw [Function.update_apply] at h₁ h₂
    split at h₁ <;> split at h₂
    · simp_all
    · cases h₁
    · cases h₂
    · exact h.unique q₁ q₂ x h₁ h₂
  · intro d' i h0 hle hlt hp
    rw [hsch] at hle hlt
    rw [hw] at hlt
    rw [hfates]
    by_cases hi : d' = d ∧ i = j
    · obtain ⟨rfl, rfl⟩ := hi
      rw [if_pos ⟨rfl, rfl⟩, hnil]
      exact ⟨f, rfl, hf⟩
    · rw [if_neg hi]
      refine h.settled d' i h0 hle hlt (fun q' hp' => ?_)
      by_cases hqq : q' = q
      · subst hqq
        rw [hq] at hp'
        cases hp'
        exact hi ⟨rfl, rfl⟩
      · exact hp q' (by rw [Function.update_of_ne hqq]; exact hp')

end

/-! ## Steps that make a schedule -/

/-- `new` is the schedule that the step makes, with its delay. Every other item that is delayed has
been so before, for the same schedule. -/
structure ScheduleStep (new : Option (W × UInt32)) (m m' : Mem Q W) : Prop where
  tick : m'.tick = m.tick
  makes : ∀ d delay, new = some (d, delay) →
    (m'.dwork d).deadline = osTickGet m + delay ∧ m'.currentDue d = m.tick + delay.toNat
  keeps : ∀ d, (∀ delay, new ≠ some (d, delay)) → (m'.work d).flags.delayed = true →
    (m.work d).flags.delayed = true ∧ m'.dwork d = m.dwork d ∧ m'.currentDue d = m.currentDue d

section
variable {c : Ctx Q T} {m m' m₁ : Mem Q W} {q : Q} {w d : W} {new : Option (W × UInt32)}

omit [DecidableEq Q] [DecidableEq W] in
theorem SameFates.scheduleStep (h : SameFates m m') (ht : m'.tick = m.tick) :
    ScheduleStep none m m' := by
  refine ⟨ht, fun d delay he => (by cases he), fun d _ hd => ?_⟩
  rw [h.flag] at hd
  exact ⟨hd, by rw [h.dwork], h.currentDue d⟩

omit [DecidableEq Q] [DecidableEq W] in
theorem ScheduleStep.after (h : ScheduleStep new m₁ m') (h' : ScheduleStep none m m₁) :
    ScheduleStep new m m' := by
  refine ⟨h.tick.trans h'.tick, fun d delay he => ?_, fun d hne hd => ?_⟩
  · have := h.makes d delay he
    rwa [osTickGet, h'.tick] at this
  · obtain ⟨hd, hdw, hdue⟩ := h.keeps d hne hd
    obtain ⟨hd', hdw', hdue'⟩ := h'.keeps d (fun _ he => by cases he) hd
    exact ⟨hd', hdw.trans hdw', hdue.trans hdue'⟩

omit [DecidableEq Q] in
theorem clearDelayed_scheduleStep : ScheduleStep none m (clearDelayed m d) := by
  refine ⟨rfl, fun d delay he => (by cases he), fun d' _ hd => ?_⟩
  rw [clearDelayed_work] at hd
  split at hd
  · cases hd
  · exact ⟨hd, rfl, rfl⟩

omit [DecidableEq Q] in
theorem undelay_scheduleStep {f : Fate} : ScheduleStep none m (undelay m d f) := by
  obtain ⟨ht, hm, hk⟩ := clearDelayed_scheduleStep (m := m) (d := d)
  exact ⟨ht, hm, hk⟩

theorem arm_scheduleStep {delay : UInt32} :
    ScheduleStep (some (d, delay)) m (osWorkArm m q d delay) := by
  refine ⟨rfl, fun d' delay' he => ?_, fun d' hne hd => ?_⟩
  · cases he
    rw [arm_dwork, arm_currentDue, if_pos rfl, if_pos rfl]
    exact ⟨rfl, rfl⟩
  · have hdd : d' ≠ d := fun he => hne delay (by rw [he])
    rw [arm_work, if_neg hdd] at hd
    rw [arm_dwork, arm_currentDue, if_neg hdd, if_neg hdd]
    exact ⟨hd, rfl, rfl⟩

theorem CallSame.tick {p p' : Pc Q W} (h : CallSame c m p m' p') : m'.tick = m.tick := by
  cases h with
  | takeSync _ _ hm => obtain ⟨sync, -, rfl⟩ := Option.map_eq_some_iff.mp hm; rfl
  | notify => simp only [Mem.osWorkNotify]; split <;> rfl
  | drainCheck => simp only [osWorkQueueDrainCheck]; split <;> rfl
  | unplug => simp only [osWorkQueueUnplugCritical]; split <;> rfl
  | joinError => simp only [Mem.recordJoin]; split <;> rfl
  | _ => rfl

theorem WorkerSame.tick {p p' : WorkerPc Q W} (h : WorkerSame m q p m' p') :
    m'.tick = m.tick := by
  cases h with
  | takeItems _ hm => obtain ⟨items, -, rfl⟩ := Option.map_eq_some_iff.mp hm; rfl
  | notify => simp only [Mem.osWorkNotify]; split <;> rfl
  | _ => rfl

theorem cancel_tick : (osWorkCancelCritical m w).1.tick = m.tick := by
  simp only [osWorkCancelCritical, osWorkCancelMark]
  split <;> split <;> rfl

/-- The delay that the critical section of `os_work_schedule_common` is about to use. -/
def Pc.delay : Pc Q W → Option UInt32
  | .scheduleLock _ _ delay _ => some delay
  | _ => none

theorem CallEffect.schedules {p p' : Pc Q W} (he : CallEffect c m p m' p') (hm : MemInv m) :
    ∃ new, ScheduleStep new m m' ∧ ∀ d delay, new = some (d, delay) → p.delay = some delay := by
  have hnone (h : ScheduleStep none m m') : ∃ new, ScheduleStep new m m' ∧
      ∀ d delay, new = some (d, delay) → p.delay = some delay :=
    ⟨none, h, fun d delay he => by cases he⟩
  cases he with
  | same he => exact hnone (he.same.sameFates.scheduleStep he.tick)
  | enqueue =>
    exact hnone ((enqueue_sameDelay.sameFates ⟨rfl, rfl, rfl⟩).scheduleStep rfl)
  | cancel => exact hnone ((cancel_sameFates hm.toRunInv).scheduleStep cancel_tick)
  | arm => exact ⟨_, arm_scheduleStep, fun d delay he => by cases he; rfl⟩
  | rearm =>
    exact ⟨_, arm_scheduleStep.after undelay_scheduleStep, fun d delay he => by cases he; rfl⟩
  | unschedule | cancelDelayable | flushDelayable | purge => exact hnone undelay_scheduleStep
  | markStop | zero =>
    refine hnone (SameFates.scheduleStep (SameDelay.sameFates ?_ ⟨rfl, rfl, rfl⟩) rfl)
    exact setQueue_sameDelay rfl

theorem WorkerEffect.schedules {p p' : WorkerPc Q W} (he : WorkerEffect m q p m' p') :
    ScheduleStep none m m' := by
  cases he with
  | same he => exact he.same.sameFates.scheduleStep he.tick
  | refuse => exact ⟨rfl, fun d delay he => (by cases he), fun d _ hd => ⟨hd, rfl, rfl⟩⟩
  | enqueue =>
    obtain ⟨ht, hm, hk⟩ :=
      (enqueue_sameDelay.sameFates ⟨rfl, rfl, rfl⟩).scheduleStep (rfl : _ = m.tick)
    exact ⟨ht, hm, hk⟩
  | promote => exact clearDelayed_scheduleStep
  | block => exact undelay_scheduleStep
  | stop =>
    refine SameFates.scheduleStep (SameDelay.sameFates ?_ ⟨rfl, rfl, rfl⟩) rfl
    exact setQueue_sameDelay rfl
  | start => exact (start_sameDelay.sameFates ⟨rfl, rfl, rfl⟩).scheduleStep rfl
  | complete => exact (complete_sameDelay.sameFates ⟨rfl, rfl, rfl⟩).scheduleStep rfl

omit [DecidableEq Q] [DecidableEq W] in
theorem DeadlineInv.scheduleStep (h : DeadlineInv m) (hs : ScheduleStep new m m') :
    DeadlineInv m' := by
  intro d hd
  by_cases hnew : ∃ delay, new = some (d, delay)
  · obtain ⟨delay, he⟩ := hnew
    obtain ⟨hdl, hdue⟩ := hs.makes d delay he
    rw [hdl, hdue]
    exact (ofNat_add_toNat ..).symm
  · obtain ⟨hd', hdw, hdue⟩ := hs.keeps d (fun delay he => hnew ⟨delay, he⟩) hd
    rw [hdw, hdue]
    exact h d hd'

end

/-! ## Promotions that are admitted -/

/-- The tests of `os_work_submit_to_queue` that the worker's own submission must pass for its
result not to be an error. -/
def SubmitPc.admitted (m : Mem Q W) : SubmitPc Q W → Bool
  | .enter queue w => (m.work w).handler && queue.any fun q => (m.queue q).started
  | .lock q w =>
    !(m.queue q).stopping && !(m.work w).flags.canceling &&
      if (m.work w).flags.queued then (m.work w).queue = some q
      else
        (!(m.work w).flags.running || (m.work w).queue = some q) &&
          (m.queue q).fifo.count < UINT16_MAX
  | .give .. => true

section
variable {m : Mem Q W} {q : Q} {w : W}

/-- The tests by which the critical section of `os_work_submit_to_queue` returns an error. -/
theorem critical_neg {caller : Option Q} : (osWorkSubmitToQueueCritical caller m q w).2 < 0 ↔
    ((m.queue q).stopping ||
      (((m.queue q).draining || (m.queue q).plugged) && caller != some q) ||
      (m.work w).flags.canceling) = true ∨
    if (m.work w).flags.queued then (m.work w).queue ≠ some q
    else
      ((m.work w).flags.running = true ∧ (m.work w).queue ≠ some q) ∨
        UINT16_MAX ≤ (m.queue q).fifo.count := by
  have hbusy : -EBUSY < (0 : Int) := by decide
  have hnospc : -ENOSPC < (0 : Int) := by decide
  simp only [osWorkSubmitToQueueCritical]
  split
  case isTrue hb => exact ⟨fun _ => .inl hb, fun _ => hbusy⟩
  case isFalse hb =>
    split
    case isTrue hq => split <;> simp_all
    case isFalse hq =>
      split
      case isTrue hr => simp_all
      case isFalse hr =>
        split
        case isTrue hc => simp_all
        case isFalse hc =>
          have hpos : ¬ (if (m.work w).flags.running then 2 else 1 : Int) < 0 := by
            split <;> decide
          refine ⟨fun h => absurd h hpos, ?_⟩
          rintro (h | ⟨hrun, hne⟩ | hcount)
          · exact absurd h hb
          · simp [hrun, hne] at hr
          · exact absurd hcount hc

theorem critical_nonneg : 0 ≤ (osWorkSubmitToQueueCritical (some q) m q w).2 ↔
    (SubmitPc.lock q w).admitted m = true := by
  rw [← Int.not_lt, critical_neg]
  simp only [SubmitPc.admitted]
  cases (m.work w).flags.running <;> split <;> simp [not_or, and_assoc]

theorem enter_admitted {r : Int} (hi : InitInv m)
    (h : (SubmitPc.enter (some q) w).step (some q) m = (m, .inr r)) :
    r < 0 ∧ (SubmitPc.enter (some q) w).admitted m = false := by
  simp only [SubmitPc.step, hi.magic w, hi.syncInitialized w, Option.some_or] at h
  simp only [SubmitPc.admitted, Option.any_some]
  split at h
  case isTrue hh => cases h; exact ⟨by decide, by simp_all⟩
  case isFalse hh =>
    split at h
    · cases h
    case isFalse hs => cases h; exact ⟨by decide, by simp_all⟩

/-- A promotion whose submission does not queue the item is admitted exactly when the item was
queued already, and else dropped. -/
theorem promotion_fate {p : SubmitPc Q W} {r : Int} (hi : InitInv m)
    (ht : p.target = some q) (hu : p.undecided = true) (h : p.step (some q) m = (m, .inr r)) :
    Fate.ofSubmit r = if p.admitted m then .coalesced else .dropped := by
  cases p with
  | give => cases hu
  | enter queue w =>
    cases ht
    obtain ⟨hr, ha⟩ := enter_admitted hi h
    simp only [Fate.ofSubmit, ha]
    rw [if_neg (by omega), if_neg (by omega), if_neg (by decide)]
  | lock q' w =>
    cases ht
    have hr : (osWorkSubmitToQueueCritical (some q) m q w).2 = r ∧ r ≤ 0 := by
      simp only [SubmitPc.step, Prod.mk.injEq] at h
      obtain ⟨-, h⟩ := h
      split at h
      · cases h
      case isFalse hn => cases h; exact ⟨rfl, Int.not_lt.mp hn⟩
    have hiff := @critical_nonneg _ _ _ _ m q w
    rw [hr.1] at hiff
    simp only [Fate.ofSubmit]
    rw [if_neg (by omega)]
    by_cases h0 : r = 0
    · rw [if_pos h0, if_pos (hiff.mp (by omega))]
    · rw [if_neg h0, if_neg fun ha => h0 (by have := hiff.mpr ha; omega)]

end

/-- The promotion that the step decides is admitted. -/
def promotionAdmitted (s : State Q W T) : Act Q W T → Bool
  | .worker q =>
    match s.worker q with
    | .promoteSubmit _ _ p => p.admitted s.mem
    | _ => true
  | _ => true

/-! ## Every reachable state -/

section
variable {c : Ctx Q T} {m m' : Mem Q W} {q : Q} {pr : Q → Option (W × Nat)}

theorem CallEffect.fates {p p' : Pc Q W} (he : CallEffect c m p m' p') (h : FateInv m pr)
    (hm : MemInv m) : FateInv m' pr := by
  cases he with
  | same he => exact h.sameFates he.same.sameFates
  | enqueue => exact h.sameFates (enqueue_sameDelay.sameFates ⟨rfl, rfl, rfl⟩)
  | cancel => exact h.sameFates (cancel_sameFates hm.toRunInv)
  | arm _ hd _ => exact h.arm hd
  | rearm _ hd _ =>
    refine (h.undelay hd (by decide)).arm ?_
    rw [undelay_work, clearDelayed_work, if_pos rfl]
  | unschedule _ hd => exact h.undelay hd (by decide)
  | cancelDelayable hd | flushDelayable hd => exact h.undelay hd (by decide)
  | markStop | zero =>
    refine h.sameFates (SameDelay.sameFates ?_ ⟨rfl, rfl, rfl⟩)
    exact setQueue_sameDelay rfl
  | @purge q d ds hl =>
    have hmem : d ∈ (m.queue q).delayed := by rw [hl]; exact List.mem_cons_self
    exact h.undelay (hm.delay.delayed_of_mem hmem).1 (by decide)

theorem WorkerEffect.fates {p p' : WorkerPc Q W} (he : WorkerEffect m q p m' p')
    (h : FateInv m pr) (hm : MemInv m) (hp : p.promotesTo q) (hpr : pr q = p.promotion)
    (hok : ∀ d j p₁, p = .promoteSubmit d j p₁ → p₁.admitted m = true) :
    FateInv m' (Function.update pr q p'.promotion) := by
  have hsame (hpp : p'.promotion = p.promotion) : Function.update pr q p'.promotion = pr := by
    rw [hpp, ← hpr, Function.update_eq_self]
  cases he with
  | same he _ hpp => rw [hsame hpp]; exact h.sameFates he.same.sameFates
  | refuse hu hstep hr =>
    rw [promotion_fate hm.toInitInv hp.1 hu hstep, if_pos (hok _ _ _ rfl)]
    refine h.settle ?_ (by decide)
    rw [hpr]
    simp only [WorkerPc.promotion, hu, if_true]
  | @enqueue q' w r d j ha hr =>
    have h' := h.sameFates (enqueue_sameDelay (q := q') (w := w).sameFates ⟨rfl, rfl, rfl⟩)
    exact h'.settle hpr (by decide)
  | promote hd => exact h.promote (hm.delay.delayed_of_mem hd).1 hpr
  | block hd => rw [hsame rfl]; exact h.undelay (hm.delay.delayed_of_mem hd).1 (by decide)
  | stop =>
    rw [hsame rfl]
    refine h.sameFates (SameDelay.sameFates ?_ ⟨rfl, rfl, rfl⟩)
    exact setQueue_sameDelay rfl
  | start => rw [hsame rfl]; exact h.sameFates (start_sameDelay.sameFates ⟨rfl, rfl, rfl⟩)
  | complete => rw [hsame rfl]; exact h.sameFates (complete_sameDelay.sameFates ⟨rfl, rfl, rfl⟩)

end

variable [DecidableEq T]

theorem deadlineInv_of_reachable {s : State Q W T} (h : Reachable (workQueueSystem Q W T) s) :
    DeadlineInv s.mem := by
  refine ReachableVia.invariant (I := fun s => DeadlineInv s.mem) ?_ ?_ h
  · intro s hs d hd
    rw [hs.flags] at hd
    cases hd
  · intro s a t hr hi _ hs
    cases step_effect hs with
    | call | expire | workerExpire | tick => exact hi
    | step hstep he =>
      obtain ⟨new, hnew, -⟩ := he.schedules (stateInv_of_reachable hr).mem
      exact hi.scheduleStep hnew
    | worker hfree hstep he => exact hi.scheduleStep he.schedules

/-- The schedules that the workers are promoting. -/
def State.promotions (s : State Q W T) (q : Q) : Option (W × Nat) := (s.worker q).promotion

omit [DecidableEq Q] [DecidableEq W] [DecidableEq T] in
theorem FateInv.init {s : State Q W T} (h : Init s) : FateInv s.mem s.promotions := by
  have hpr (q : Q) : s.promotions q = none := by rw [State.promotions, h.worker]; rfl
  have hw (w : W) : (s.mem.work w).flags.delayed = false := by rw [h.flags]; rfl
  refine ⟨?_, ?_, ?_, ?_, ?_⟩
  · intro d hd; rw [hw] at hd; cases hd
  · intro d j _; rw [h.hist]; rfl
  · intro q d j hp; rw [hpr] at hp; cases hp
  · intro q q' x hp; rw [hpr] at hp; cases hp
  · intro d j h0 hle
    rw [h.hist] at hle
    exact absurd h0 (Nat.not_lt.mpr hle)

theorem FateInv.step {s t : State Q W T} {a : Act Q W T} (h : FateInv s.mem s.promotions)
    (hi : StateInv s) (hok : promotionAdmitted s a = true) (hs : HazelOsal.step s a = some t) :
    FateInv t.mem t.promotions := by
  have hupdate {q : Q} {m : Mem Q W} {p : WorkerPc Q W} :
      (s.setWorker q m p).promotions = Function.update s.promotions q p.promotion := by
    funext q'
    simp only [State.promotions, State.setWorker_worker, Function.update_apply]
    split <;> rfl
  cases step_effect hs with
  | call | expire => exact h
  | step hstep he => exact he.fates h hi.mem
  | @worker q m p hfree hstep he =>
    rw [hupdate, State.setWorker_mem]
    refine he.fates h hi.mem (hi.promotes q) rfl fun d j p₁ hp => ?_
    simpa only [promotionAdmitted, hp] using hok
  | @workerExpire q e hp =>
    rw [hupdate, State.setWorker_mem]
    have : (.promote : WorkerPc Q W).promotion = s.promotions q := by
      rw [State.promotions, hp]; rfl
    rw [this, Function.update_eq_self]
    exact h
  | tick => exact h.sameFates Same.tick.sameFates

theorem fateInv_of_reachable {s : State Q W T}
    (h : ReachableVia (workQueueSystem Q W T) (fun s a => promotionAdmitted s a) s) :
    FateInv s.mem s.promotions :=
  ReachableVia.invariant (I := fun s => FateInv s.mem s.promotions) (fun _ => FateInv.init)
    (fun _ _ _ hr hi hok hs => hi.step (stateInv_of_reachable hr) hok hs) h

/-! ## Schedules that are submitted -/

/-- The step submits the schedule `new`, if any: a queue accepts a submission of its item. -/
structure Submits (new : Option (W × Nat)) (m m' : Mem Q W) : Prop where
  fates : ∀ d j, .submitted ∈ m'.hist.fates d j →
    .submitted ∈ m.hist.fates d j ∨ new = some (d, j)
  submitted : ∀ d, m.hist.submitted d ≤ m'.hist.submitted d
  accepted : ∀ q, m.hist.accepted q ⊆ m'.hist.accepted q
  accepts : ∀ d j, new = some (d, j) → m'.hist.submitted d = m.hist.submitted d + 1 ∧
    ∃ q, m'.hist.accepted q = m.hist.accepted q ++ [(d, m'.hist.submitted d)]

section
variable {c : Ctx Q T} {m m' : Mem Q W} {q : Q} {w d : W} {j : Nat} {f : Fate}

omit [DecidableEq Q] [DecidableEq W] in
theorem Submits.of_hist (hfates : m'.hist.fates = m.hist.fates)
    (hsub : m'.hist.submitted = m.hist.submitted) (hacc : m'.hist.accepted = m.hist.accepted) :
    Submits none m m' := by
  refine ⟨fun d j h => .inl ?_, fun d => ?_, fun q => ?_, fun _ _ he => by cases he⟩
  · rwa [hfates] at h
  · rw [hsub]
  · rw [hacc]; exact List.Subset.refl _

omit [DecidableEq Q] [DecidableEq W] in
theorem Same.submits (h : Same m m') : Submits none m m' := by
  obtain ⟨jt, hj⟩ := h.hist
  apply Submits.of_hist <;> rw [hj]

omit [DecidableEq Q] in
theorem mem_settle_fates {g : Fate} {d' : W} {i : Nat} (h : g ∈ (m.settle d j f).hist.fates d' i) :
    g ∈ m.hist.fates d' i ∨ (d', i) = (d, j) ∧ g = f := by
  simp only [Mem.settle, Function.update_apply] at h
  split at h
  case isTrue hd =>
    subst hd
    rw [Function.update_apply] at h
    split at h
    case isTrue hi =>
      subst hi
      rcases List.mem_append.mp h with h | h
      · exact .inl h
      · exact .inr ⟨rfl, List.mem_singleton.mp h⟩
    case isFalse => exact .inl h
  case isFalse => exact .inl h

omit [DecidableEq Q] in
theorem settle_submits (hf : f ≠ .submitted) : Submits none m (m.settle d j f) := by
  refine ⟨fun d' i h => ?_, fun _ => Nat.le_refl _, fun _ => List.Subset.refl _,
    fun _ _ he => by cases he⟩
  rcases mem_settle_fates h with h | ⟨-, h⟩
  · exact .inl h
  · exact absurd h.symm hf

omit [DecidableEq Q] in
theorem undelay_submits (hf : f ≠ .submitted) : Submits none m (undelay m d f) := by
  obtain ⟨hfates, hsub, hacc, haccepts⟩ := settle_submits (m := clearDelayed m d) (d := d)
    (j := m.hist.scheduled d) hf
  exact ⟨hfates, hsub, hacc, haccepts⟩

theorem enqueue_submitted {d' : W} : (osWorkEnqueue m q w).hist.submitted d' =
    if d' = w then m.hist.submitted w + 1 else m.hist.submitted d' :=
  Function.update_apply ..

theorem enqueue_accepted {q' : Q} : (osWorkEnqueue m q w).hist.accepted q' =
    if q' = q then m.hist.accepted q ++ [(w, m.hist.submitted w + 1)] else m.hist.accepted q' :=
  Function.update_apply ..

theorem enqueue_submits : Submits none m (osWorkEnqueue m q w) := by
  refine ⟨fun _ _ h => .inl h, fun d => ?_, fun q' => ?_, fun _ _ he => by cases he⟩
  · rw [enqueue_submitted]
    split
    case isTrue h => exact h ▸ Nat.le_succ _
    case isFalse => exact Nat.le_refl _
  · rw [enqueue_accepted]
    split
    case isTrue h => exact h ▸ List.subset_append_left ..
    case isFalse => exact List.Subset.refl _

/-- The submission that a promotion makes. -/
theorem promote_submits :
    Submits (some (w, j)) m ((osWorkEnqueue m q w).settle w j .submitted) := by
  obtain ⟨hfates, hsub, hacc, -⟩ := enqueue_submits (m := m) (q := q) (w := w)
  refine ⟨fun d' i h => ?_, hsub, hacc, fun d' i he => ?_⟩
  · rcases mem_settle_fates h with h | ⟨h, -⟩
    · exact .inl ((hfates d' i h).resolve_right (by simp))
    · exact .inr (congrArg some h.symm)
  · cases he
    have hnew : ((osWorkEnqueue m q w).settle w j .submitted).hist.submitted w =
        m.hist.submitted w + 1 := enqueue_submitted.trans (if_pos rfl)
    exact ⟨hnew, q, hnew ▸ enqueue_accepted.trans (if_pos rfl)⟩

omit [DecidableEq T] in
theorem CallEffect.submits {p p' : Pc Q W} (he : CallEffect c m p m' p') (hm : MemInv m) :
    Submits none m m' := by
  cases he with
  | same he => exact he.same.submits
  | enqueue => exact enqueue_submits
  | cancel => apply Submits.of_hist <;> rw [cancel_hist hm.toRunInv]
  | arm => exact .of_hist rfl rfl rfl
  | @rearm q d reschedule delay =>
    obtain ⟨hfates, hsub, hacc, haccepts⟩ :=
      undelay_submits (m := m) (d := d) (f := .replaced) (by decide)
    exact ⟨hfates, hsub, hacc, haccepts⟩
  | unschedule | cancelDelayable | flushDelayable | purge => exact undelay_submits (by decide)
  | markStop | zero => exact .of_hist rfl rfl rfl

theorem WorkerEffect.submits {p p' : WorkerPc Q W} (he : WorkerEffect m q p m' p')
    (hp : p.promotesTo q) : ∃ new, Submits new m m' := by
  cases he with
  | same he => exact ⟨none, he.same.submits⟩
  | @refuse p r d j _ _ hr =>
    refine ⟨none, settle_submits ?_⟩
    rw [Fate.ofSubmit, if_neg (Int.not_lt.mpr hr)]
    split <;> decide
  | enqueue =>
    obtain ⟨-, rfl⟩ := hp
    exact ⟨_, promote_submits⟩
  | promote => exact ⟨none, .of_hist rfl rfl rfl⟩
  | block => exact ⟨none, undelay_submits (by decide)⟩
  | stop | start | complete => exact ⟨none, .of_hist rfl rfl rfl⟩

/-- Each submitted schedule has a submission of its own among those that the queues have
accepted. -/
structure Numbers (m : Mem Q W) (number : W → Nat → Nat) : Prop where
  accepted : ∀ d j, .submitted ∈ m.hist.fates d j → number d j ≤ m.hist.submitted d ∧
    ∃ q, (d, number d j) ∈ m.hist.accepted q
  unique : ∀ d j j', .submitted ∈ m.hist.fates d j → .submitted ∈ m.hist.fates d j' →
    number d j = number d j' → j = j'

omit [DecidableEq Q] in
theorem Numbers.submits {new : Option (W × Nat)} {number : W → Nat → Nat} (h : Numbers m number)
    (hs : Submits new m m') : ∃ number', Numbers m' number' := by
  have hold {d : W} {j : Nat} (hnew : new ≠ some (d, j)) (hf : .submitted ∈ m'.hist.fates d j) :
      .submitted ∈ m.hist.fates d j := (hs.fates d j hf).resolve_right hnew
  have hkeep {d : W} {j : Nat} (hf : .submitted ∈ m.hist.fates d j) :
      number d j ≤ m'.hist.submitted d ∧ ∃ q, (d, number d j) ∈ m'.hist.accepted q := by
    obtain ⟨hle, q, hq⟩ := h.accepted d j hf
    exact ⟨Nat.le_trans hle (hs.submitted d), q, hs.accepted q hq⟩
  cases new with
  | none =>
    exact ⟨number, fun d j hf => hkeep (hold (by simp) hf),
      fun d j j' hf hf' => h.unique d j j' (hold (by simp) hf) (hold (by simp) hf')⟩
  | some x =>
    obtain ⟨d₀, j₀⟩ := x
    obtain ⟨hsub, q, hq⟩ := hs.accepts d₀ j₀ rfl
    -- the submission of the new schedule is later than all the others
    have hlater {j : Nat} (hf : .submitted ∈ m.hist.fates d₀ j) :
        number d₀ j ≠ m'.hist.submitted d₀ := by
      have hle := (h.accepted d₀ j hf).1
      omega
    have hne {d : W} {j : Nat} (hdj : ¬(d = d₀ ∧ j = j₀)) : some (d₀, j₀) ≠ some (d, j) := by
      rintro ⟨⟩
      exact hdj ⟨rfl, rfl⟩
    refine ⟨fun d j => if d = d₀ ∧ j = j₀ then m'.hist.submitted d₀ else number d j,
      fun d j hf => ?_, fun d j j' hf hf' => ?_⟩
    · split
      case isTrue hdj =>
        obtain ⟨rfl, rfl⟩ := hdj
        exact ⟨Nat.le_refl _, q, hq ▸ List.mem_append_right _ (List.mem_singleton_self _)⟩
      case isFalse hdj => exact hkeep (hold (hne hdj) hf)
    · intro he
      split at he <;> split at he
      case isTrue.isTrue hdj hdj' => exact hdj.2.trans hdj'.2.symm
      case isTrue.isFalse hdj hdj' =>
        obtain ⟨rfl, -⟩ := hdj
        exact absurd he.symm (hlater (hold (hne hdj') hf'))
      case isFalse.isTrue hdj hdj' =>
        obtain ⟨rfl, -⟩ := hdj'
        exact absurd he (hlater (hold (hne hdj) hf))
      case isFalse.isFalse hdj hdj' =>
        exact h.unique d j j' (hold (hne hdj) hf) (hold (hne hdj') hf') he

end

/-- **The fate `submitted` is that of an accepted submission**: each schedule that has it has a
submission of its own, which some queue has accepted. -/
theorem submitted_accepted {s : State Q W T} (h : Reachable (workQueueSystem Q W T) s) :
    ∃ number, Numbers s.mem number := by
  refine ReachableVia.invariant (I := fun s => ∃ number, Numbers s.mem number) ?_ ?_ h
  · intro s hs
    refine ⟨fun _ _ => 0, fun d j hf => ?_, fun d j j' hf => ?_⟩
    all_goals
      rw [hs.hist] at hf
      cases hf
  · intro s a t hr hi _ hs
    obtain ⟨number, hi⟩ := hi
    have hinv := stateInv_of_reachable hr
    cases step_effect hs with
    | call | expire | workerExpire => exact ⟨number, hi⟩
    | step hstep he => exact hi.submits (he.submits hinv.mem)
    | @worker q m p hfree hstep he =>
      obtain ⟨new, hnew⟩ := he.submits (hinv.promotes q)
      exact hi.submits hnew
    | tick => exact hi.submits Same.tick.submits

/-- Item `d` is still delayed, for its schedule `j`, with the deadline of that schedule. -/
structure StillDelayed (m : Mem Q W) (d : W) (j : Nat) : Prop where
  delayed : (m.work d).flags.delayed = true
  current : j = m.hist.scheduled d
  deadline : (m.dwork d).deadline = UInt32.ofNat (m.hist.due d j)

/-- **Accepted delayed work is accounted for**, in every run whose promotions are admitted: a
schedule that no worker is promoting is either still on the delayed list with its deadline, or it
has exactly one fate, which is not that it was dropped. -/
theorem schedule_accounted_for {s : State Q W T} {d : W} {j : Nat}
    (h : ReachableVia (workQueueSystem Q W T) (fun s a => promotionAdmitted s a) s)
    (h0 : 0 < j) (hj : j ≤ s.mem.hist.scheduled d)
    (hp : ∀ q, (s.worker q).promotion ≠ some (d, j)) :
    (StillDelayed s.mem d j ∧ s.mem.hist.fates d j = []) ∨
    (¬ StillDelayed s.mem d j ∧ ∃ f, f ≠ .dropped ∧ s.mem.hist.fates d j = [f]) := by
  have hi := fateInv_of_reachable h
  by_cases hd : (s.mem.work d).flags.delayed = true ∧ j = s.mem.hist.scheduled d
  · obtain ⟨hd, rfl⟩ := hd
    exact .inl ⟨⟨hd, rfl, deadlineInv_of_reachable h.reachable d hd⟩, (hi.delayed d hd).2⟩
  · obtain ⟨f, hf, hne⟩ := hi.settled d j h0 hj
      (fun hd' => Nat.lt_of_le_of_ne hj fun hj' => hd ⟨hd', hj'⟩) hp
    exact .inr ⟨fun hs => hd ⟨hs.delayed, hs.current⟩, f, hne, hf⟩

/-- A thread schedules item 0 for two ticks; it comes due and is submitted. -/
def dueRun : List (Act Unit Nat Nat) :=
  [.call (.thread 0) (.scheduleForQueue () 0 2), .step (.thread 0), .step (.thread 0),
    .step (.thread 0), .tick, .tick, .worker (), .worker (), .worker (), .worker (), .worker ()]

theorem schedule_accounted_for_submitted : ∃ s : State Unit Nat Nat,
    exec (workQueueSystem Unit Nat Nat) .initial dueRun = some s ∧
    s.mem.hist.fates 0 1 = [.submitted] ∧
    ((StillDelayed s.mem 0 1 ∧ s.mem.hist.fates 0 1 = []) ∨
      (¬ StillDelayed s.mem 0 1 ∧ ∃ f, f ≠ .dropped ∧ s.mem.hist.fates 0 1 = [f])) := by
  refine ⟨_, rfl, rfl, schedule_accounted_for (reachableVia_of_execOk dueRun (fun _ _ h => h)
    State.init_initial rfl rfl) Nat.one_pos (Nat.le_refl 1) fun q => ?_⟩
  cases q
  decide

/-- Item 0 runs on one queue when a thread schedules it on the other; it comes due there while the
handler is still running. -/
def droppedRun : List (Act Bool Nat Nat) :=
  [.call (.thread 0) (.submitToQueue (some false) 0), .step (.thread 0), .step (.thread 0),
    .step (.thread 0), .worker false, .worker false, .worker false, .worker false,
    .call (.thread 0) (.scheduleForQueue true 0 1), .step (.thread 0), .step (.thread 0),
    .step (.thread 0), .tick, .worker true, .worker true, .worker true, .worker true]

/-- The schedule returned 1; it is lost though no promotion is in flight any more. -/
theorem schedule_dropped : ∃ s : State Bool Nat Nat,
    exec (workQueueSystem Bool Nat Nat) .initial droppedRun = some s ∧
    s.call (.thread 0) = .done (.int 1) ∧ s.mem.hist.scheduled 0 = 1 ∧ NoPromotion s ∧
    ¬ StillDelayed s.mem 0 1 ∧ s.mem.hist.fates 0 1 = [.dropped] ∧
    (s.mem.queue true).plugged = false ∧ (s.mem.queue true).stopping = false ∧
    (s.mem.work 0).flags.queued = false ∧ s.mem.hist.accepted true = [] := by
  refine ⟨_, rfl, rfl, rfl, ?_, fun h => absurd h.delayed (by decide), rfl, rfl, rfl, rfl, rfl⟩
  rintro q ⟨d, j, p, hp⟩
  cases q <;> cases hp

end HazelOsal
