import HazelOsal.WorkQueue.Delayed

/-! # A schedule that is refused

`os_work_schedule_common` tests the queue and the item in one critical section, in which it also
takes the old schedule off its list. Where the delay is zero it then calls
`os_work_submit_to_queue`, whose tests are not the same. A reschedule that passes the first tests
and not the second returns an error, and the old schedule is gone. -/

namespace HazelOsal

open TransitionSystem

variable {Q W T : Type} [DecidableEq Q] [DecidableEq W] [DecidableEq T]

/-! ## A call that runs alone -/

/-- Only the call of `c` makes steps. -/
def alone (c : Ctx Q T) (_ : State Q W T) (a : Act Q W T) : Prop := a = .step c

/-- The call of `c`, at `p`, returns `r` when no other thread steps in between, and leaves `m'`. -/
inductive Returns (c : Ctx Q T) : Mem Q W → Pc Q W → Mem Q W → Ret → Prop
  | done : Returns c m (.done r) m r
  | step : callStep c m p = some (m₁, p₁) → Returns c m₁ p₁ m' r → Returns c m p m' r

section
variable {c : Ctx Q T} {m m' m₁ : Mem Q W} {p p₁ : Pc Q W} {r r' : Ret}

omit [DecidableEq T] in
@[simp] theorem returns_done : Returns c m (.done r') m' r ↔ m' = m ∧ r = r' := by
  constructor
  · intro h
    cases h with
    | done => exact ⟨rfl, rfl⟩
    | step hs => cases hs
  · rintro ⟨rfl, rfl⟩
    exact .done

omit [DecidableEq T] in
theorem returns_step (h : callStep c m p = some (m₁, p₁)) :
    Returns c m p m' r ↔ Returns c m₁ p₁ m' r := by
  constructor
  · intro hr
    cases hr with
    | done => cases h
    | step hs hr =>
      rw [h] at hs
      cases hs
      exact hr
  · exact .step h

theorem Returns.run {s : State Q W T} (h : Returns c m p m' r) :
    Run (workQueueSystem Q W T) (alone c) (s.setCall c m p) (s.setCall c m' (.done r)) := by
  induction h with
  | done => exact .refl
  | step hs _ ih =>
    refine Run.trans ?_ ih
    exact .tail .refl rfl (step_setCall hs)

theorem returns_of_run {s t : State Q W T} (h : Run (workQueueSystem Q W T) (alone c) s t)
    (ht : t.call c = .done r) : Returns c s.mem (s.call c) t.mem r := by
  suffices hs : ∀ m' r, Returns c t.mem (t.call c) m' r → Returns c s.mem (s.call c) m' r from
    hs _ _ (ht ▸ .done)
  clear ht
  induction h with
  | refl => exact fun _ _ h => h
  | tail _ hok hs ih =>
    cases hok
    intro m' r hr
    refine ih m' r ?_
    obtain ⟨⟨m₁, p₁⟩, hstep, rfl⟩ := Option.map_eq_some_iff.mp hs
    refine .step hstep ?_
    rwa [State.setCall_mem, State.setCall_call_self] at hr

end

/-! ## The submission behind a zero delay -/

/-- `os_work_submit_to_queue` refuses the item by a test that `os_work_schedule_common` does not
make. -/
def refusedBySubmit (m : Mem Q W) (q : Q) (w : W) : Bool :=
  !(m.work w).handler || !(m.work w).syncInitialized ||
    if (m.work w).flags.queued then (m.work w).queue != some q
    else
      ((m.work w).flags.running && (m.work w).queue != some q) ||
        decide (UINT16_MAX ≤ (m.queue q).fifo.count)

section
variable {c : Ctx Q T} {m m' : Mem Q W} {q : Q} {d w : W} {reschedule : Bool}

omit [DecidableEq T] in
/-- A submission alone returns, and an error leaves everything alone. It is one of the tests of
`refusedBySubmit` that fails where those of the schedule have succeeded. -/
theorem submit_alone (c : Ctx Q T) (m : Mem Q W) (q : Q) (w : W) (reschedule : Bool) : ∃ m₁ r₁,
    (∀ m' r, Returns c m (.submit (.enter (some q) w) .ret) m' r ↔ m' = m₁ ∧ r = .int r₁) ∧
    (r₁ < 0 → m₁ = m) ∧
    ((m.work w).magic = OS_WORK_MAGIC → (m.queue q).started = true →
      ScheduleAccepts c.caller m q w reschedule → (r₁ < 0 ↔ refusedBySubmit m q w = true)) := by
  by_cases hitem : ((m.work w).magic != OS_WORK_MAGIC || !(m.work w).handler ||
      !(m.work w).syncInitialized) = true
  · have henter : callStep c m (.submit (.enter (some q) w) .ret) =
        some (m, .done (.int (-EINVAL))) := by
      simp only [callStep, SubmitPc.step, hitem, if_true]; rfl
    refine ⟨m, -EINVAL, fun m' r => by rw [returns_step henter, returns_done], fun _ => rfl, ?_⟩
    intro hm _ _
    simp only [hm, bne_self_eq_false, Bool.false_or] at hitem
    have hr : refusedBySubmit m q w = true := by rw [refusedBySubmit, hitem, Bool.true_or]
    exact ⟨fun _ => hr, fun _ => by decide⟩
  · by_cases hstarted : (m.queue q).started = true
    · have henter : callStep c m (.submit (.enter (some q) w) .ret) =
          some (m, .submit (.lock q w) .ret) := by
        simp only [callStep, SubmitPc.step, hitem, Option.some_or, hstarted, if_true]; rfl
      have hneg : (osWorkSubmitToQueueCritical c.caller m q w).2 < 0 →
          (osWorkSubmitToQueueCritical c.caller m q w).1 = m := by
        rcases submit_cases c.caller m q w with ⟨-, hc⟩ | ⟨-, r, -, hc⟩ <;> rw [hc]
        · have hpos : ¬ (if (m.work w).flags.running then 2 else 1 : Int) < 0 := by
            split <;> decide
          exact fun h => absurd h hpos
        · exact fun _ => rfl
      have hiff (ha : ScheduleAccepts c.caller m q w reschedule) :
          (osWorkSubmitToQueueCritical c.caller m q w).2 < 0 ↔ refusedBySubmit m q w = true := by
        have hh : (!(m.work w).handler || !(m.work w).syncInitialized) = false := by simp_all
        have hgate : ((m.queue q).stopping ||
            (((m.queue q).draining || (m.queue q).plugged) && c.caller != some q) ||
            (m.work w).flags.canceling) = false := by
          rcases ha.gate with hg | hg <;> simp [ha.stopping, ha.canceling, hg]
        rw [critical_neg, hgate, refusedBySubmit, hh, Bool.false_or]
        split <;> simp
      cases hcrit : osWorkSubmitToQueueCritical c.caller m q w with
      | mk m₁ r₁ =>
        rw [hcrit] at hneg hiff
        by_cases hpos : 0 < r₁
        · have hlock : callStep c m (.submit (.lock q w) .ret) =
              some (m₁, .submit (.give q w r₁) .ret) := by
            simp only [callStep, SubmitPc.step, hcrit, hpos, if_true]
          have hgive : callStep c m₁ (.submit (.give q w r₁) .ret) =
              some (m₁.giveItems q, .done (.int r₁)) := rfl
          refine ⟨m₁.giveItems q, r₁, fun m' r => ?_, fun h => absurd h (by omega), fun _ _ => hiff⟩
          rw [returns_step henter, returns_step hlock, returns_step hgive, returns_done]
        · have hlock : callStep c m (.submit (.lock q w) .ret) = some (m₁, .done (.int r₁)) := by
            simp only [callStep, SubmitPc.step, hcrit, hpos, if_false]; rfl
          refine ⟨m₁, r₁, fun m' r => ?_, hneg, fun _ _ => hiff⟩
          rw [returns_step henter, returns_step hlock, returns_done]
    · have henter : callStep c m (.submit (.enter (some q) w) .ret) =
          some (m, .done (.int (-ENODEV))) := by
        simp only [callStep, SubmitPc.step, hitem, Option.some_or, hstarted]; rfl
      refine ⟨m, -ENODEV, fun m' r => by rw [returns_step henter, returns_done], fun _ => rfl, ?_⟩
      exact fun _ hs => absurd hs hstarted

end

/-! ## The schedule -/

/-- The flags of `d`, its places on the lists, its queues and its deadline are as before. -/
structure Untouched (m m' : Mem Q W) (d : W) : Prop where
  flags : (m'.work d).flags = (m.work d).flags
  queue : (m'.work d).queue = (m.work d).queue
  dwork : m'.dwork d = m.dwork d
  delayed : ∀ q, (m'.queue q).delayed = (m.queue q).delayed
  list : ∀ q, (m'.queue q).fifo.list = (m.queue q).fifo.list

/-- A reschedule of a delayed item, with no delay, passes the tests of `os_work_schedule_common` and
not those of `os_work_submit_to_queue`. -/
structure LosesSchedule (c : Ctx Q T) (m : Mem Q W) (q : Q) (d : W) (delay : UInt32)
    (reschedule : Bool) : Prop where
  again : reschedule = true
  atOnce : delay = 0
  delayed : (m.work d).flags.delayed = true
  magic : (m.work d).magic = OS_WORK_MAGIC
  started : (m.queue q).started = true
  accepts : ScheduleAccepts c.caller m q d reschedule
  refused : refusedBySubmit m q d = true

/-- `os_sem_give(&old_queue->fifo.items)`, if there is an old queue. -/
def giveOld (m : Mem Q W) : Option Q → Mem Q W
  | some old => m.giveItems old
  | none => m

section
variable {c : Ctx Q T} {m m' : Mem Q W} {q : Q} {d : W} {delay : UInt32} {reschedule : Bool}
omit [DecidableEq T]
variable {old : Option Q} {r : Ret}

theorem unschedule_returns : Returns c m (unscheduleNext old q d) m' r ↔
    Returns c (giveOld m old) (.submit (.enter (some q) d) .ret) m' r := by
  cases old with
  | none => exact Iff.rfl
  | some old =>
    have h : callStep c m (.scheduleGiveSubmit old q d) =
        some (m.giveItems old, .submit (.enter (some q) d) .ret) := rfl
    exact returns_step h

/-- A schedule that is made returns 1. -/
theorem rearm_returns (h : Returns c m (rearmNext old q) m' r) : r = .int 1 := by
  have hgive {m : Mem Q W} (h : Returns c m (.scheduleGive q) m' r) : r = .int 1 := by
    have hs : callStep c m (.scheduleGive q) = some (m.giveItems q, .done (.int 1)) := rfl
    rw [returns_step hs, returns_done] at h
    exact h.2
  cases old with
  | none => exact hgive h
  | some old =>
    simp only [rearmNext] at h
    split at h
    · exact hgive h
    · have hs : callStep c m (.scheduleGiveOld old q) =
          some (m.giveItems old, .scheduleGive q) := rfl
      rw [returns_step hs] at h
      exact hgive h

/-- What `os_work_submit_to_queue` tests is as it was when the schedule was tested. -/
theorem unscheduled_tests (f : Fate) (old : Option Q) :
    ((giveOld (undelay m d f) old).work d).magic = (m.work d).magic ∧
    ((giveOld (undelay m d f) old).queue q).started = (m.queue q).started ∧
    refusedBySubmit (giveOld (undelay m d f) old) q d = refusedBySubmit m q d ∧
    (ScheduleAccepts c.caller m q d true →
      ScheduleAccepts c.caller (giveOld (undelay m d f) old) q d true) ∧
    ((giveOld (undelay m d f) old).work d).flags.delayed = false := by
  have hwork : (giveOld (undelay m d f) old).work d =
      { m.work d with flags := { (m.work d).flags with delayed := false } } := by
    cases old <;> simp [giveOld, Mem.giveItems, Mem.setQueue, undelay_work, clearDelayed_work]
  have hqueue : ∃ items delayed, (giveOld (undelay m d f) old).queue q =
      { m.queue q with fifo := { (m.queue q).fifo with items }, delayed } := by
    cases old with
    | none => exact ⟨_, _, rfl⟩
    | some old =>
      simp only [giveOld, Mem.giveItems, Mem.setQueue_queue]
      split
      case isTrue h => subst h; exact ⟨_, _, rfl⟩
      case isFalse => exact ⟨_, _, rfl⟩
  obtain ⟨items, delayed, hqueue⟩ := hqueue
  refine ⟨by rw [hwork], by rw [hqueue], by rw [refusedBySubmit, hwork, hqueue]; rfl, ?_,
    by rw [hwork]⟩
  intro h
  constructor
  · rw [hwork]; exact h.canceling
  · rw [hqueue]; exact h.stopping
  · rw [hqueue]; exact h.gate
  · exact .inl rfl

theorem scheduleEnter_step (hmagic : (m.work d).magic = OS_WORK_MAGIC)
    (hdelay : ¬ INT32_MAX < delay) (hstarted : (m.queue q).started = true) :
    callStep c m (.scheduleEnter q d delay reschedule) =
      some (m, .scheduleLock q d delay reschedule) := by
  simp [callStep, hmagic, hdelay, hstarted]

theorem scheduleLock_unschedule (h : osWorkScheduleCritical c.caller m q d delay reschedule =
      (undelay m d .replaced, .submit (m.dwork d).queue)) :
    callStep c m (.scheduleLock q d delay reschedule) =
      some (undelay m d .replaced, unscheduleNext (m.dwork d).queue q d) := by
  simp only [callStep, h]
  cases (m.dwork d).queue <;> rfl

/-- An error leaves everything alone, or the schedule is lost. -/
theorem schedule_returns {r : Int} (hr : r < 0)
    (h : Returns c m (.scheduleEnter q d delay reschedule) m' (.int r)) :
    m' = m ∨ LosesSchedule c m q d delay reschedule := by
  have hone (h : Ret.int r = .int 1) : m' = m ∨ LosesSchedule c m q d delay reschedule := by
    cases h
    exact absurd hr (by decide)
  by_cases hitem : ((m.work d).magic != OS_WORK_MAGIC || INT32_MAX < delay) = true
  · have henter : callStep c m (.scheduleEnter q d delay reschedule) =
        some (m, .done (.int (-EINVAL))) := by
      simp only [callStep, hitem, if_true]
    rw [returns_step henter, returns_done] at h
    exact .inl h.1
  obtain ⟨hmagic, hdelay⟩ : (m.work d).magic = OS_WORK_MAGIC ∧ ¬ INT32_MAX < delay := by
    simpa using hitem
  by_cases hstarted : (m.queue q).started = true
  case neg =>
    have henter : callStep c m (.scheduleEnter q d delay reschedule) =
        some (m, .done (.int (-ENODEV))) := by
      simp [callStep, hmagic, hdelay, hstarted]
    rw [returns_step henter, returns_done] at h
    exact .inl h.1
  rw [returns_step (scheduleEnter_step hmagic hdelay hstarted)] at h
  rcases schedule_cases c.caller m q d delay reschedule with ⟨r', hc⟩ | ⟨-, hd, hc⟩ | ⟨ha, hd, hc⟩
  · have hlock : callStep c m (.scheduleLock q d delay reschedule) =
        some (m, .done (.int r')) := by
      simp only [callStep, hc]
    rw [returns_step hlock, returns_done] at h
    exact .inl h.1
  · by_cases h0 : delay = 0
    · rw [if_pos h0] at hc
      have hlock : callStep c m (.scheduleLock q d delay reschedule) =
          some (m, .submit (.enter (some q) d) .ret) := by
        simp only [callStep, hc]
      obtain ⟨m₁, r₁, hret, hkeep, -⟩ := submit_alone c m q d true
      rw [returns_step hlock, hret] at h
      obtain ⟨rfl, he⟩ := h
      cases he
      exact .inl (hkeep hr)
    · rw [if_neg h0] at hc
      have hlock : callStep c m (.scheduleLock q d delay reschedule) =
          some (osWorkArm m q d delay, rearmNext none q) := by
        simp only [callStep, hc]; rfl
      rw [returns_step hlock] at h
      exact hone (rearm_returns h)
  · by_cases h0 : delay = 0
    · rw [if_pos h0] at hc
      have hlock := scheduleLock_unschedule hc
      obtain ⟨m₁, r₁, hret, -, hrefused⟩ :=
        submit_alone c (giveOld (undelay m d .replaced) (m.dwork d).queue) q d true
      rw [returns_step hlock, unschedule_returns, hret] at h
      obtain ⟨rfl, he⟩ := h
      cases he
      obtain ⟨hm, hs, href, hacc, -⟩ := unscheduled_tests (c := c) (m := m) (q := q) (d := d)
        .replaced (m.dwork d).queue
      have hagain : reschedule = true := ha.free.resolve_right fun hf => by simp [hf.1] at hd
      subst hagain
      refine .inr ⟨rfl, h0, hd, hmagic, hstarted, ha, ?_⟩
      rw [← href]
      exact (hrefused (hm.trans hmagic) (hs.trans hstarted) (hacc ha)).mp hr
    · rw [if_neg h0] at hc
      have hlock : callStep c m (.scheduleLock q d delay reschedule) =
          some (osWorkArm (undelay m d .replaced) q d delay, rearmNext (m.dwork d).queue q) := by
        simp only [callStep, hc]
        cases (m.dwork d).queue <;> rfl
      rw [returns_step hlock] at h
      exact hone (rearm_returns h)

theorem LosesSchedule.returns (h : LosesSchedule c m q d delay reschedule) :
    ∃ m' r, Returns c m (.scheduleEnter q d delay reschedule) m' (.int r) ∧ r < 0 ∧
      (m'.work d).flags.delayed = false := by
  obtain ⟨rfl, rfl, hd, hmagic, hstarted, ha, hrefused⟩ := h
  have hgate : ((m.work d).flags.canceling || (m.queue q).stopping ||
      (((m.queue q).draining || (m.queue q).plugged) && c.caller != some q)) = false := by
    rcases ha.gate with hg | hg <;> simp [ha.stopping, ha.canceling, hg]
  have hlock : callStep c m (.scheduleLock q d 0 true) =
      some (undelay m d .replaced, unscheduleNext (m.dwork d).queue q d) :=
    scheduleLock_unschedule (by simp [osWorkScheduleCritical, hgate, hd])
  obtain ⟨m₁, r₁, hret, hkeep, hrefuse⟩ :=
    submit_alone c (giveOld (undelay m d .replaced) (m.dwork d).queue) q d true
  obtain ⟨hm, hs, href, hacc, hflag⟩ := unscheduled_tests (c := c) (m := m) (q := q) (d := d)
    .replaced (m.dwork d).queue
  have hneg : r₁ < 0 := by
    refine (hrefuse (hm.trans hmagic) (hs.trans hstarted) (hacc ha)).mpr ?_
    rw [href]
    exact hrefused
  refine ⟨m₁, r₁, ?_, hneg, by rw [hkeep hneg]; exact hflag⟩
  rw [returns_step (scheduleEnter_step hmagic (by decide) hstarted), returns_step hlock,
    unschedule_returns, hret]
  exact ⟨rfl, rfl⟩

end

/-- **A refused schedule or reschedule changes nothing**, with no other thread stepping in between,
exactly where the call is not one that loses the schedule. The calls begin at `.scheduleEnter`:
those of `os_work_schedule_for_queue` with `false`, those of `os_work_reschedule_for_queue` with
`true`. -/
theorem refused_schedule_untouched (c : Ctx Q T) (s : State Q W T) (q : Q) (d : W) (delay : UInt32)
    (reschedule : Bool) :
    (∀ t r, Run (workQueueSystem Q W T) (alone c)
      (s.setCall c s.mem (.scheduleEnter q d delay reschedule)) t →
      t.call c = .done (.int r) → r < 0 → Untouched s.mem t.mem d) ↔
    ¬ LosesSchedule c s.mem q d delay reschedule := by
  constructor
  · intro h hl
    obtain ⟨m', r, hret, hr, hd⟩ := hl.returns
    have hu := h _ r hret.run State.setCall_call_self hr
    have hflags := hu.flags
    rw [State.setCall_mem] at hflags
    rw [hflags, hl.delayed] at hd
    cases hd
  · intro hl t r hrun ht hr
    have hret := returns_of_run hrun ht
    rw [State.setCall_mem, State.setCall_call_self] at hret
    rw [(schedule_returns hr hret).resolve_right hl]
    exact ⟨rfl, rfl, rfl, fun _ => rfl, fun _ => rfl⟩

/-- Item 0 runs on one queue when a thread schedules it on the other. -/
def runningRun : List (Act Bool Nat Nat) :=
  [.call (.thread 0) (.submitToQueue (some false) 0), .step (.thread 0), .step (.thread 0),
    .step (.thread 0), .worker false, .worker false, .worker false, .worker false,
    .call (.thread 0) (.scheduleForQueue true 0 5), .step (.thread 0), .step (.thread 0),
    .step (.thread 0)]

/-- The thread asks for it to run on that queue at once. -/
def rescheduleRun : List (Act Bool Nat Nat) :=
  .call (.thread 0) (.rescheduleForQueue true 0 0) :: List.replicate 5 (.step (.thread 0))

/-- The reschedule returns an error, and the item is not on the delayed list any more. -/
theorem refused_reschedule_loses : ∃ s t : State Bool Nat Nat,
    exec (workQueueSystem Bool Nat Nat) .initial runningRun = some s ∧
    s.call (.thread 0) = .done (.int 1) ∧ (s.mem.queue true).delayed = [0] ∧
    exec (workQueueSystem Bool Nat Nat) s rescheduleRun = some t ∧
    t.call (.thread 0) = .done (.int (-EBUSY)) ∧ (t.mem.queue true).delayed = [] ∧
    ¬ Untouched s.mem t.mem 0 := by
  refine ⟨_, _, rfl, rfl, rfl, rfl, rfl, rfl, fun h => ?_⟩
  exact absurd (h.delayed true) (by decide)

end HazelOsal
