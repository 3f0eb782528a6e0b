import HazelOsal.WorkQueue.System

/-! # What a step does to the shared memory

The inversion of `callStep` and `workerStep`, made once: a step either leaves the lists, the
counters, the flags and the identifiers alone (`Same`), or it is one of the critical sections
listed in `CallEffect` and `WorkerEffect`, whose tests have succeeded. Every invariant of the
lists and the items is derived from these. -/

namespace HazelOsal

variable {Q W T : Type} [DecidableEq Q] [DecidableEq W] [DecidableEq T]

section
variable {m m' : Mem Q W} {q : Q} {w : W}

/-! ## Steps that leave the lists and the items alone -/

/-- The lists, their counters, `current`, `stopping` and the items are as before; the tokens of
the semaphores, the thread objects and the other flags of the queues need not be. -/
structure SameCore (m m' : Mem Q W) : Prop where
  list : ∀ q, (m'.queue q).fifo.list = (m.queue q).fifo.list
  count : ∀ q, (m'.queue q).fifo.count = (m.queue q).fifo.count
  delayed : ∀ q, (m'.queue q).delayed = (m.queue q).delayed
  current : ∀ q, (m'.queue q).current = (m.queue q).current
  stopping : ∀ q, (m'.queue q).stopping = (m.queue q).stopping
  work : ∀ w, m'.work w = { m.work w with sync := (m'.work w).sync }
  sync : ∀ w, (m'.work w).sync.handle = (m.work w).sync.handle
  dwork : m'.dwork = m.dwork

/-- The history is as before, too, but for `joinTimeouts`. -/
structure Same (m m' : Mem Q W) : Prop extends SameCore m m' where
  hist : ∃ joinTimeouts, m'.hist = { m.hist with joinTimeouts }

omit [DecidableEq Q] [DecidableEq W] in
theorem SameCore.flags (h : SameCore m m') (w : W) : (m'.work w).flags = (m.work w).flags := by
  rw [h.work w]

omit [DecidableEq Q] in
theorem SameCore.settle {j : Nat} {f : Fate} : SameCore m (m.settle d j f) := by
  constructor <;> intros <;> rfl

namespace Same

omit [DecidableEq Q] [DecidableEq W] in
theorem refl (m : Mem Q W) : Same m m := by
  constructor
  · constructor <;> intros <;> rfl
  · exact ⟨_, rfl⟩

omit [DecidableEq W] in
theorem setQueue {v : OsWorkQueue W} (hl : v.fifo.list = (m.queue q).fifo.list)
    (hc : v.fifo.count = (m.queue q).fifo.count) (hd : v.delayed = (m.queue q).delayed)
    (hr : v.current = (m.queue q).current) (hs : v.stopping = (m.queue q).stopping) :
    Same m (m.setQueue q v) := by
  constructor
  · constructor <;> intros <;> simp only [Mem.setQueue, Function.update_apply]
    all_goals split <;> simp_all
  · exact ⟨_, rfl⟩

omit [DecidableEq Q] in
theorem setSync {sem : OsSem 1} (h : sem.handle = (m.work w).sync.handle) :
    Same m (m.setWork w { m.work w with sync := sem }) := by
  constructor
  · constructor <;> intros <;> try rfl
    all_goals simp only [Mem.setWork, Function.update_apply]; split <;> simp_all
  · exact ⟨_, rfl⟩

section
omit [DecidableEq W]

theorem giveItems : Same m (m.giveItems q) := setQueue rfl rfl rfl rfl rfl

theorem trytakeItems : Same m (m.trytakeItems q) := setQueue rfl rfl rfl rfl rfl

theorem setThread {t : OsThread} : Same m (m.setThread q t) := setQueue rfl rfl rfl rfl rfl

theorem recordJoin {r : Int} (h : Same m m') : Same m (m'.recordJoin q r) := by
  simp only [Mem.recordJoin]
  split
  · obtain ⟨jt, hj⟩ := h.hist
    constructor
    · exact ⟨h.list, h.count, h.delayed, h.current, h.stopping, h.work, h.sync, h.dwork⟩
    · exact ⟨Function.update jt q (jt q + 1), by simp only [hj]⟩
  · exact h

omit [DecidableEq Q] in
theorem tick : Same m { m with tick := m.tick + 1 } := by
  constructor
  · constructor <;> intros <;> rfl
  · exact ⟨_, rfl⟩

end

omit [DecidableEq Q] in
theorem osWorkNotify : Same m (m.osWorkNotify w) := by
  simp only [Mem.osWorkNotify]
  split
  · exact setSync (OsSem.give_handle _)
  · exact refl m

omit [DecidableEq W] in
theorem takeItems? (h : m.takeItems? q = some m') : Same m m' := by
  obtain ⟨items, _, rfl⟩ := Option.map_eq_some_iff.mp h
  exact setQueue rfl rfl rfl rfl rfl

omit [DecidableEq Q] in
theorem takeSync? (h : m.takeSync? w = some m') : Same m m' := by
  obtain ⟨sync, hs, rfl⟩ := Option.map_eq_some_iff.mp h
  exact setSync (OsSem.tryTake_eq_some hs).1

omit [DecidableEq W] in
theorem drainBegin {plug : Bool} : Same m (osWorkQueueDrainBegin m q plug).1 :=
  setQueue rfl rfl rfl rfl rfl

omit [DecidableEq W] in
theorem drainCheck : Same m (osWorkQueueDrainCheck m q).1 := by
  simp only [osWorkQueueDrainCheck]
  split
  · exact setQueue rfl rfl rfl rfl rfl
  · exact refl m

omit [DecidableEq W] in
theorem unplug : Same m (osWorkQueueUnplugCritical m q).1 := by
  simp only [osWorkQueueUnplugCritical]
  split
  · exact setQueue rfl rfl rfl rfl rfl
  · exact refl m

end Same

/-! ## The tests of the critical sections -/

/-- The tests of `os_work_submit_to_queue` that must succeed for the item to be queued. -/
structure SubmitAccepts (caller : Option Q) (m : Mem Q W) (q : Q) (w : W) : Prop where
  stopping : (m.queue q).stopping = false
  gate : ((m.queue q).draining || (m.queue q).plugged) = false ∨ caller = some q
  canceling : (m.work w).flags.canceling = false
  queued : (m.work w).flags.queued = false
  running : (m.work w).flags.running = true → (m.work w).queue = some q
  space : (m.queue q).fifo.count < UINT16_MAX

/-- Either the item is queued, or the call is refused without a change. -/
theorem submit_cases (caller : Option Q) (m : Mem Q W) (q : Q) (w : W) :
    (SubmitAccepts caller m q w ∧ osWorkSubmitToQueueCritical caller m q w =
      (osWorkEnqueue m q w, if (m.work w).flags.running then 2 else 1)) ∨
    (¬ SubmitAccepts caller m q w ∧
      ∃ r ≤ 0, osWorkSubmitToQueueCritical caller m q w = (m, r)) := by
  simp only [osWorkSubmitToQueueCritical]
  split
  case isTrue h =>
    refine .inr ⟨fun ha => ?_, _, by decide, rfl⟩
    obtain ⟨hs, hg, hc, -⟩ := ha
    rcases hg with hg | hg <;> simp_all
  case isFalse h =>
    split
    case isTrue hq =>
      refine .inr ⟨fun ha => by simp [ha.queued] at hq, _, ?_, rfl⟩
      split <;> decide
    case isFalse hq =>
      split
      case isTrue hr =>
        refine .inr ⟨fun ha => ?_, _, by decide, rfl⟩
        have := ha.running
        simp_all
      case isFalse hr =>
        split
        case isTrue hc =>
          exact .inr ⟨fun ha => absurd ha.space (UInt32.not_lt.mpr hc), _, by decide, rfl⟩
        case isFalse hc =>
          refine .inl ⟨?_, rfl⟩
          have hg : ((m.queue q).draining || (m.queue q).plugged) = false ∨ caller = some q := by
            by_cases hg : ((m.queue q).draining || (m.queue q).plugged) = true
            · exact .inr (by simp_all)
            · exact .inl (by simpa using hg)
          exact ⟨by simp_all, hg, by simp_all, by simp_all, fun _ => by simp_all,
            UInt32.not_le.mp hc⟩

/-- The tests of `os_work_schedule_common` that must succeed for the schedule to be changed. -/
structure ScheduleAccepts (caller : Option Q) (m : Mem Q W) (q : Q) (d : W) (reschedule : Bool) :
    Prop where
  canceling : (m.work d).flags.canceling = false
  stopping : (m.queue q).stopping = false
  gate : ((m.queue q).draining || (m.queue q).plugged) = false ∨ caller = some q
  free : reschedule = true ∨ (m.work d).flags.delayed = false ∧ (m.work d).flags.queued = false

/-- The schedule is refused without a change, or an old one is taken off, or a new one is made,
or both. -/
theorem schedule_cases (caller : Option Q) (m : Mem Q W) (q : Q) (d : W) (delay : UInt32)
    (reschedule : Bool) :
    (∃ r, osWorkScheduleCritical caller m q d delay reschedule = (m, .ret r)) ∨
    (ScheduleAccepts caller m q d reschedule ∧ (m.work d).flags.delayed = false ∧
      osWorkScheduleCritical caller m q d delay reschedule =
        if delay = 0 then (m, .submit none) else (osWorkArm m q d delay, .arm none)) ∨
    (ScheduleAccepts caller m q d reschedule ∧ (m.work d).flags.delayed = true ∧
      osWorkScheduleCritical caller m q d delay reschedule =
        if delay = 0 then (undelay m d .replaced, .submit (m.dwork d).queue)
        else (osWorkArm (undelay m d .replaced) q d delay, .arm (m.dwork d).queue)) := by
  simp only [osWorkScheduleCritical]
  split
  case isTrue h => exact .inl ⟨_, rfl⟩
  case isFalse h =>
    split
    case isTrue hf => exact .inl ⟨_, rfl⟩
    case isFalse hf =>
      have ha : ScheduleAccepts caller m q d reschedule := by
        constructor
        · simp_all
        · simp_all
        · simp only [Bool.or_eq_true, Bool.and_eq_true, not_or, not_and] at h
          by_cases hg : ((m.queue q).draining || (m.queue q).plugged) = true
          · exact .inr (by simpa using h.2 (by simpa using hg))
          · exact .inl (by simpa using hg)
        · cases reschedule <;> simp_all
      cases hd : (m.work d).flags.delayed with
      | false => exact .inr (.inl ⟨ha, rfl, by simp⟩)
      | true => exact .inr (.inr ⟨ha, rfl, by simp⟩)

end

/-! ## The steps of calls -/

/-- The queue whose items semaphore the next step gives. -/
def Pc.giving : Pc Q W → Option Q
  | .submit (.give q _ _) _ | .scheduleGiveSubmit q _ _ | .scheduleGiveOld q _ | .scheduleGive q
  | .cancelDelayableGive q _ _ | .flushDelayableGive q _ | .stopGive q _ => some q
  | _ => none

/-- The item that the next step notifies. -/
def Pc.notifying : Pc Q W → Option W
  | .cancelNotify w _ _ | .purgeNotify _ w => some w
  | _ => none

/-- The item whose synchronous semaphore the call takes or waits for. -/
def Pc.awaiting : Pc Q W → Option W
  | .busyTake _ w _ | .flushTake w _ _ _ => some w
  | _ => none

/-- The item whose synchronous semaphore the call has just taken. -/
def Pc.woken : Pc Q W → Option W
  | .busyCheck _ w _ true | .flushCheck w _ _ true _ => some w
  | _ => none

/-- The queue whose thread object the next step may change. -/
def Pc.joining : Pc Q W → Option Q
  | .joinEnter q _ | .joinTake q _ | .joinWait q _ _ | .joinAbandon q _ | .joinReap q => some q
  | _ => none

/-- The steps that leave the lists and the items alone. -/
inductive CallSame (c : Ctx Q T) (m : Mem Q W) : Pc Q W → Mem Q W → Pc Q W → Prop
  | move : CallSame c m p m p'
  | giveItems : p.giving = some q → CallSame c m p (m.giveItems q) p'
  | trytakeItems : CallSame c m (.cancelTrytake q w flags k) (m.trytakeItems q)
      (.cancelNotify w flags k)
  | takeSync : c.inIsr = false → p.awaiting = some w → m.takeSync? w = some m' →
    p'.woken = some w → CallSame c m p m' p'
  | notify : p.notifying = some w → CallSame c m p (m.osWorkNotify w) p'
  | drainBegin : CallSame c m (.drainLock q plug) (osWorkQueueDrainBegin m q plug).1 p'
  | drainCheck : CallSame c m (.drainCheck q plug waited) (osWorkQueueDrainCheck m q).1 p'
  | unplug : CallSame c m (.unplugLock q) (osWorkQueueUnplugCritical m q).1 p'
  | thread : p.joining = some q → CallSame c m p (m.setThread q t) p'
  | joinError : p.joining = some q → CallSame c m p ((m.setThread q t).recordJoin q r) p'
  | deinitSem : CallSame c m (.deinitSem q)
      (m.setQueue q
        { m.queue q with
          fifo := { (m.queue q).fifo with items := (m.queue q).fifo.items.deinit } })
      (.deinitZero q)
  | finish : CallSame c m (.stopFinish q) (m.setQueue q { m.queue q with started := false })
      (.done (.int 0))

omit [DecidableEq T] in
theorem CallSame.same {c : Ctx Q T} {m m' : Mem Q W} {p p' : Pc Q W}
    (h : CallSame c m p m' p') : Same m m' := by
  cases h with
  | move => exact .refl m
  | giveItems => exact .giveItems
  | trytakeItems => exact .trytakeItems
  | takeSync _ _ hm => exact .takeSync? hm
  | notify => exact .osWorkNotify
  | drainBegin => exact .drainBegin
  | drainCheck => exact .drainCheck
  | unplug => exact .unplug
  | thread => exact .setThread
  | joinError => exact Same.setThread.recordJoin
  | deinitSem | finish => exact .setQueue rfl rfl rfl rfl rfl

/-- The unlocked checks of `os_work_submit_to_queue` change nothing. -/
theorem submit_enter_cases (caller : Option Q) (m : Mem Q W) (queue : Option Q) (w : W) :
    (∃ r ≤ 0, SubmitPc.step caller m (.enter queue w) = (m, .inr r)) ∨
    ∃ q, SubmitPc.step caller m (.enter queue w) = (m, .inl (.lock q w)) := by
  simp only [SubmitPc.step]
  split
  · exact .inl ⟨_, by decide, rfl⟩
  · split
    · exact .inl ⟨_, by decide, rfl⟩
    · split
      · exact .inr ⟨_, rfl⟩
      · exact .inl ⟨_, by decide, rfl⟩

/-- The point after the critical section of `os_work_cancel`. -/
def cancelNext (m : Mem Q W) (w : W) (k : CancelCont Q) : Pc Q W :=
  match osWorkCancelCritical m w with
  | (_, some q, flags) => .cancelTrytake q w flags k
  | (_, none, flags) => .cancelNotify w flags k

/-- The point after a rescheduling critical section that took the item off queue `old`. -/
def rearmNext (old : Option Q) (q : Q) : Pc Q W :=
  match old with
  | some old => if old = q then .scheduleGive q else .scheduleGiveOld old q
  | none => .scheduleGive q

def unscheduleNext (old : Option Q) (q : Q) (d : W) : Pc Q W :=
  match old with
  | some old => .scheduleGiveSubmit old q d
  | none => .submit (.enter (some q) d) .ret

def cancelDelayableNext (old : Option Q) (d : W) (k : DelayableCont) : Pc Q W :=
  match old with
  | some q => .cancelDelayableGive q d k
  | none => .cancelEnter d (.delayable none k)

def flushDelayableNext (old : Option Q) (d : W) : Pc Q W :=
  match old with
  | some q => .flushDelayableGive q d
  | none => .submit (.enter none d) .flushDelayable

/-- What a step of context `c` does: from the memory `m` and a point to those after it. -/
inductive CallEffect (c : Ctx Q T) (m : Mem Q W) : Pc Q W → Mem Q W → Pc Q W → Prop
  | same : CallSame c m p m' p' → CallEffect c m p m' p'
  | enqueue : SubmitAccepts c.caller m q w → 0 < r →
    CallEffect c m (.submit (.lock q w) k) (osWorkEnqueue m q w) (.submit (.give q w r) k)
  | cancel : CallEffect c m (.cancelLock w k) (osWorkCancelCritical m w).1 (cancelNext m w k)
  | arm : ScheduleAccepts c.caller m q d reschedule → (m.work d).flags.delayed = false →
    delay ≠ 0 → CallEffect c m (.scheduleLock q d delay reschedule) (osWorkArm m q d delay)
      (.scheduleGive q)
  | rearm : ScheduleAccepts c.caller m q d reschedule → (m.work d).flags.delayed = true →
    delay ≠ 0 → CallEffect c m (.scheduleLock q d delay reschedule)
      (osWorkArm (undelay m d .replaced) q d delay) (rearmNext (m.dwork d).queue q)
  | unschedule : ScheduleAccepts c.caller m q d reschedule → (m.work d).flags.delayed = true →
    CallEffect c m (.scheduleLock q d 0 reschedule) (undelay m d .replaced)
      (unscheduleNext (m.dwork d).queue q d)
  | cancelDelayable : (m.work d).flags.delayed = true →
    CallEffect c m (.cancelDelayableLock d k) (undelay m d .canceled)
      (cancelDelayableNext (m.dwork d).queue d k)
  | flushDelayable : (m.work d).flags.delayed = true →
    CallEffect c m (.flushDelayableLock d) (undelay m d .flushed)
      (flushDelayableNext (m.dwork d).queue d)
  | markStop : (m.queue q).plugged = true → (m.queue q).fifo.count = 0 →
    (m.queue q).current = none →
    CallEffect c m (.stopLock q timeout) (osWorkQueueMarkStop m q) (.stopGive q timeout)
  | purge : (m.queue q).delayed = d :: ds →
    CallEffect c m (.purgeLock q) (undelay m d .stopped) (.purgeNotify q d)
  | zero : CallEffect c m (.deinitZero q)
      (m.setQueue q { m.queue q with fifo := osFifoZero (m.queue q).fifo }) (.stopFinish q)

section
variable {c : Ctx Q T} {m m' : Mem Q W} {q : Q} {d : W} {p p' : Pc Q W}

attribute [local simp] callStep

section
omit [DecidableEq T]

private theorem submitStep_effect {p : SubmitPc Q W} {k : SubmitCont}
    (h : callStep c m (.submit p k) = some (m', p')) : CallEffect c m (.submit p k) m' p' := by
  cases p with
  | enter queue w =>
    simp only [callStep] at h
    rcases submit_enter_cases c.caller m queue w with ⟨r, -, hp⟩ | ⟨q', hp⟩
    all_goals rw [hp] at h; cases h; exact .same .move
  | lock q w =>
    simp only [callStep, SubmitPc.step] at h
    rcases submit_cases c.caller m q w with ⟨ha, hc⟩ | ⟨-, r, hr, hc⟩
    · have hr : (0 : Int) < if (m.work w).flags.running then 2 else 1 := by split <;> decide
      rw [hc] at h
      simp only [hr, if_true] at h
      cases h; exact .enqueue ha hr
    · rw [hc] at h
      cases h; exact .same .move
  | give q w r => cases h; exact .same (.giveItems rfl)

theorem callStep_cancelLock {w : W} {k : CancelCont Q}
    (h : callStep c m (.cancelLock w k) = some (m', p')) :
    m' = (osWorkCancelCritical m w).1 ∧ p' = cancelNext m w k := by
  simp only [callStep, Option.some.injEq, Prod.mk.injEq] at h
  obtain ⟨rfl, hp⟩ := h
  refine ⟨rfl, ?_⟩
  rw [← hp, cancelNext]
  rcases osWorkCancelCritical m w with ⟨_, _ | q, flags⟩ <;> rfl

private theorem scheduleStep_effect {delay : UInt32} {reschedule : Bool}
    (h : callStep c m (.scheduleLock q d delay reschedule) = some (m', p')) :
    CallEffect c m (.scheduleLock q d delay reschedule) m' p' := by
  simp only [callStep] at h
  rcases schedule_cases c.caller m q d delay reschedule with ⟨r, hc⟩ | ⟨ha, hd, hc⟩ | ⟨ha, hd, hc⟩
  · rw [hc] at h
    cases h; exact .same .move
  · rw [hc] at h
    by_cases h0 : delay = 0
    · simp only [h0, if_true] at h
      cases h; exact .same .move
    · simp only [h0, if_false] at h
      cases h; exact .arm ha hd h0
  · rw [hc] at h
    by_cases h0 : delay = 0
    · subst h0
      simp only [if_true] at h
      cases hq : (m.dwork d).queue <;> rw [hq] at h <;> cases h
      all_goals have := CallEffect.unschedule (c := c) ha hd; rwa [hq] at this
    · simp only [h0, if_false] at h
      cases hq : (m.dwork d).queue <;> rw [hq] at h <;> cases h
      all_goals have := CallEffect.rearm (c := c) ha hd h0; rwa [hq] at this

private theorem cancelDelayableStep_effect {k : DelayableCont}
    (h : callStep c m (.cancelDelayableLock d k) = some (m', p')) :
    CallEffect c m (.cancelDelayableLock d k) m' p' := by
  simp only [callStep, osWorkCancelDelayableCritical] at h
  by_cases hd : (m.work d).flags.delayed = true
  · simp only [hd, if_true] at h
    cases hq : (m.dwork d).queue <;> rw [hq] at h <;> cases h
    all_goals have := CallEffect.cancelDelayable (c := c) (k := k) hd; rwa [hq] at this
  · simp only [hd] at h
    cases h; exact .same .move

private theorem flushDelayableStep_effect
    (h : callStep c m (.flushDelayableLock d) = some (m', p')) :
    CallEffect c m (.flushDelayableLock d) m' p' := by
  simp only [callStep, osWorkCancelDelayableCritical] at h
  by_cases hd : (m.work d).flags.delayed = true
  · simp only [hd, if_true] at h
    cases hq : (m.dwork d).queue <;> rw [hq] at h <;> cases h
    all_goals have := CallEffect.flushDelayable (c := c) hd; rwa [hq] at this
  · simp only [hd] at h
    cases h; exact .same .move

private theorem stopStep_effect {timeout : UInt32}
    (h : callStep c m (.stopLock q timeout) = some (m', p')) :
    CallEffect c m (.stopLock q timeout) m' p' := by
  simp only [callStep, osWorkQueueStopCritical] at h
  by_cases hs : (!(m.queue q).plugged || (m.queue q).fifo.count != 0 ||
      (m.queue q).current.isSome) = true
  · simp only [hs, if_true] at h
    cases h; exact .same .move
  · simp only [hs] at h
    cases h; exact .markStop (by simp_all) (by simp_all) (by simp_all)

private theorem purgeStep_effect (h : callStep c m (.purgeLock q) = some (m', p')) :
    CallEffect c m (.purgeLock q) m' p' := by
  simp only [callStep, osWorkQueueStopPurge] at h
  cases hd : (m.queue q).delayed with
  | nil => rw [hd] at h; cases h; exact .same .move
  | cons d ds => rw [hd] at h; cases h; exact .purge hd

private theorem joinStep_effect {timeout : UInt32}
    (hp : p = .joinEnter q timeout ∨ p = .joinTake q timeout)
    (h : callStep c m p = some (m', p')) : CallSame c m p m' p' := by
  rcases hp with rfl | rfl
  · simp only [callStep] at h
    split at h
    · cases h; exact .move
    · split at h
      · cases h; exact .thread rfl
      · split at h
        · cases h; exact .thread rfl
        · cases h; exact .joinError rfl
  · simp only [callStep] at h
    split at h
    · cases h; exact .thread rfl
    · split at h <;> cases h <;> exact .move

private theorem deinitStep_effect (hp : p = .deinitLock q ∨ p = .deinitSem q)
    (h : callStep c m p = some (m', p')) : CallSame c m p m' p' := by
  rcases hp with rfl | rfl
  · simp only [callStep] at h
    split at h
    · cases h; exact .move
    · split at h <;> cases h <;> exact .move
  · simp only [callStep] at h
    split at h
    · cases h; exact .move
    · split at h
      · cases h; exact .move
      · cases h; exact .deinitSem

/-- **The inversion of `callStep`.** -/
theorem callStep_effect (h : callStep c m p = some (m', p')) : CallEffect c m p m' p' := by
  cases p with
  | submit p k => exact submitStep_effect h
  | cancelLock w k =>
    obtain ⟨rfl, rfl⟩ := callStep_cancelLock h
    exact .cancel
  | scheduleLock q d delay reschedule => exact scheduleStep_effect h
  | cancelDelayableLock d k => exact cancelDelayableStep_effect h
  | flushDelayableLock d => exact flushDelayableStep_effect h
  | stopLock q timeout => exact stopStep_effect h
  | purgeLock q => exact purgeStep_effect h
  | deinitZero q => cases h; exact .zero
  | joinEnter q timeout => exact .same (joinStep_effect (.inl rfl) h)
  | joinTake q timeout => exact .same (joinStep_effect (.inr rfl) h)
  | deinitLock q => exact .same (deinitStep_effect (.inl rfl) h)
  | deinitSem q => exact .same (deinitStep_effect (.inr rfl) h)
  | cancelTrytake q w flags k => cases h; exact .same .trytakeItems
  | cancelNotify w flags k | purgeNotify q d => cases h; exact .same (.notify rfl)
  | scheduleGiveSubmit old q d | scheduleGiveOld old q | scheduleGive q
  | cancelDelayableGive q d k | flushDelayableGive q d | stopGive q timeout =>
    cases h; exact .same (.giveItems rfl)
  | drainLock q plug => cases h; exact .same .drainBegin
  | drainCheck q plug waited => cases h; exact .same .drainCheck
  | unplugLock q => cases h; exact .same .unplug
  | joinAbandon q timeout => cases h; exact .same (.joinError rfl)
  | joinReap q => cases h; exact .same (.thread rfl)
  | stopFinish q => cases h; exact .same .finish
  | joinWait q timeout expiry =>
    obtain ⟨t, -, h⟩ := Option.map_eq_some_iff.mp h
    cases h; exact .same (.thread rfl)
  | busyTake op w wasPending | flushTake w target waited k =>
    simp only [callStep] at h
    split at h
    case isTrue => cases h; exact .same .move
    case isFalse hc =>
      obtain ⟨m₁, hm, h⟩ := Option.map_eq_some_iff.mp h
      cases h; exact .same (.takeSync (by simp_all) rfl hm rfl)
  | idle | done r => cases h
  | cancelSyncPending w | flushTarget w k | cancelDelayableSyncPending d
  | drainDelay q plug waited => cases h; exact .same .move
  | cancelEnter w k | cancelSyncEnter w | busyCheck op w wasPending woken | flushEnter w k
  | flushCheck w target waited woken k | cancelDelayableEnter d k | flushDelayableEnter d
  | unplugEnter q =>
    simp only [callStep] at h
    split at h <;> cases h <;> exact .same .move
  | scheduleEnter q d delay reschedule | drainEnter q plug | stopEnter q timeout =>
    simp only [callStep] at h
    split at h
    · cases h; exact .same .move
    · split at h <;> cases h <;> exact .same .move

end

end

/-! ## The steps of workers -/

/-- The item whose handler the worker runs, from its critical section before to the one after. -/
def WorkerPc.item : WorkerPc Q W → Option W
  | .run w | .complete w => some w
  | _ => none

/-- The submission is not decided yet. -/
def SubmitPc.undecided : SubmitPc Q W → Bool
  | .give .. => false
  | _ => true

/-- The schedule that a promotion has taken off the delayed list and not yet submitted. -/
def WorkerPc.promotion : WorkerPc Q W → Option (W × Nat)
  | .promoteSubmit d j p => if p.undecided then some (d, j) else none
  | _ => none

/-- The item that the next step notifies. -/
def WorkerPc.notifying : WorkerPc Q W → Option W
  | .promoteNotify w | .notify w => some w
  | _ => none

/-- The worker is at `os_sem_take` on its items semaphore. -/
def WorkerPc.taking : WorkerPc Q W → Bool
  | .take .. | .blocked _ => true
  | _ => false

/-- The worker has taken the stop marker. -/
def WorkerPc.exited : WorkerPc Q W → Bool
  | .exitComplete | .exitGive | .exitSignal | .terminated => true
  | _ => false

/-- The steps of the worker of `q` that leave the lists and the items alone. -/
inductive WorkerSame (m : Mem Q W) (q : Q) : WorkerPc Q W → Mem Q W → WorkerPc Q W → Prop
  | move : WorkerSame m q p m p'
  | giveItems : WorkerSame m q (.promoteSubmit d j (.give q' w r)) (m.giveItems q') .promote
  | takeItems : p.taking = true → m.takeItems? q = some m' → WorkerSame m q p m' .pop
  | notify : p.notifying = some w → WorkerSame m q p (m.osWorkNotify w) p'
  | thread : p.exited = true → WorkerSame m q p (m.setThread q t) p'

theorem WorkerSame.same {m m' : Mem Q W} {q : Q} {p p' : WorkerPc Q W}
    (h : WorkerSame m q p m' p') : Same m m' := by
  cases h with
  | move => exact .refl m
  | giveItems => exact .giveItems
  | takeItems _ hm => exact .takeItems? hm
  | notify => exact .osWorkNotify
  | thread => exact .setThread

/-- What a step of the worker of `q` does. -/
inductive WorkerEffect (m : Mem Q W) (q : Q) : WorkerPc Q W → Mem Q W → WorkerPc Q W → Prop
  | same : WorkerSame m q p m' p' → p'.item = p.item → p'.promotion = p.promotion →
    WorkerEffect m q p m' p'
  | refuse : p.undecided = true → p.step (some q) m = (m, .inr r) → r ≤ 0 →
    WorkerEffect m q (.promoteSubmit d j p) (m.settle d j (.ofSubmit r)) .promote
  | enqueue : SubmitAccepts (some q) m q' w → 0 < r →
    WorkerEffect m q (.promoteSubmit d j (.lock q' w))
      ((osWorkEnqueue m q' w).settle d j .submitted) (.promoteSubmit d j (.give q' w r))
  | promote : d ∈ (m.queue q).delayed → (m.queue q).plugged = false →
    (m.queue q).stopping = false →
    WorkerEffect m q (.promoteLock sampled) (clearDelayed m d)
      (.promoteSubmit d (m.hist.scheduled d) (.enter (some q) d))
  | block : d ∈ (m.queue q).delayed → ((m.queue q).plugged || (m.queue q).stopping) = true →
    WorkerEffect m q (.promoteLock sampled) (undelay m d .blocked) (.promoteNotify d)
  | stop : (m.queue q).fifo.list = .stop :: rest →
    WorkerEffect m q .pop
      (m.setQueue q { popped (m.queue q) rest with stopNodeQueued := false }) .exitComplete
  | start : (m.queue q).fifo.list = .work w :: rest →
    WorkerEffect m q .pop (osWorkQueueEntryStart m q w rest) (.run w)
  | complete : WorkerEffect m q (.complete w) (osWorkQueueEntryComplete m q w) (.notify w)

omit [DecidableEq W] in
/-- The item that the scan finds is one of those scanned, and its remaining time is zero. -/
theorem promoteScan_some {deadline : W → UInt32} {now timeout t : UInt32} {ds : List W} {d : W}
    (h : promoteScan deadline now ds timeout = (some d, t)) :
    d ∈ ds ∧ osWorkDeadlineRemaining (deadline d) now = 0 := by
  induction ds generalizing timeout with
  | nil => cases h
  | cons e ds ih =>
    simp only [promoteScan] at h
    split at h
    case isTrue h0 => cases h; exact ⟨List.mem_cons_self, h0⟩
    case isFalse => exact ⟨List.mem_cons_of_mem _ (ih h).1, (ih h).2⟩

section
variable {m m' : Mem Q W} {q : Q} {p p' : WorkerPc Q W}

attribute [local simp] workerStep

private theorem promoteLock_effect {sampled : Nat}
    (h : workerStep m q (.promoteLock sampled) = some (m', p')) :
    WorkerEffect m q (.promoteLock sampled) m' p' := by
  simp only [workerStep, osWorkPromoteDelayedCritical] at h
  cases hs : promoteScan (fun d => (m.dwork d).deadline) (UInt32.ofNat sampled)
      (m.queue q).delayed OS_WAIT_FOREVER with
  | mk due timeout =>
    rw [hs] at h
    cases due with
    | none => cases h; exact .same .move rfl rfl
    | some d =>
      have hd := (promoteScan_some hs).1
      by_cases hb : ((m.queue q).plugged || (m.queue q).stopping) = true
      · simp only [hb, if_true] at h
        cases h; exact .block hd hb
      · simp only [hb] at h
        cases h; exact .promote hd (by simp_all) (by simp_all)

private theorem promoteSubmit_effect {d : W} {j : Nat} {p : SubmitPc Q W}
    (h : workerStep m q (.promoteSubmit d j p) = some (m', p')) :
    WorkerEffect m q (.promoteSubmit d j p) m' p' := by
  cases p with
  | give q' w r => cases h; exact .same .giveItems rfl rfl
  | lock q' w =>
    simp only [workerStep, SubmitPc.step] at h
    rcases submit_cases (some q) m q' w with ⟨ha, hc⟩ | ⟨-, r, hr, hc⟩
    · have hr : (0 : Int) < if (m.work w).flags.running then 2 else 1 := by split <;> decide
      have hf : Fate.ofSubmit (if (m.work w).flags.running then 2 else 1) = .submitted := by
        simp only [Fate.ofSubmit, hr, if_true]
      rw [hc] at h
      simp only [hr, if_true, settleSubmit, hf] at h
      cases h; exact .enqueue ha hr
    · have hp : SubmitPc.step (some q) m (.lock q' w) = (m, .inr r) := by
        simp only [SubmitPc.step, hc, Int.not_lt.mpr hr, if_false]
      rw [hc] at h
      simp only [Int.not_lt.mpr hr, if_false, settleSubmit] at h
      cases h; exact .refuse rfl hp hr
  | enter queue w =>
    simp only [workerStep] at h
    rcases submit_enter_cases (some q) m queue w with ⟨r, hr, hp⟩ | ⟨q', hp⟩
    · rw [hp] at h
      cases h; exact .refuse rfl hp hr
    · rw [hp] at h
      cases h; exact .same .move rfl rfl

private theorem pop_effect (h : workerStep m q .pop = some (m', p')) :
    WorkerEffect m q .pop m' p' := by
  simp only [workerStep, osWorkQueueEntryPop] at h
  cases hl : (m.queue q).fifo.list with
  | nil => rw [hl] at h; cases h; exact .same .move rfl rfl
  | cons node rest =>
    cases node with
    | stop => rw [hl] at h; cases h; exact .stop hl
    | work w => rw [hl] at h; cases h; exact .start hl

/-- **The inversion of `workerStep`.** -/
theorem workerStep_effect (h : workerStep m q p = some (m', p')) : WorkerEffect m q p m' p' := by
  cases p with
  | promoteLock sampled => exact promoteLock_effect h
  | promoteSubmit d j p => exact promoteSubmit_effect h
  | pop => exact pop_effect h
  | complete w => cases h; exact .complete
  | take timeout sampled =>
    simp only [workerStep] at h
    split at h
    · cases h; exact .same .move rfl rfl
    · split at h
      case h_1 hm => cases h; exact .same (.takeItems rfl hm) rfl rfl
      case h_2 => split at h <;> cases h <;> exact .same .move rfl rfl
  | blocked expiry =>
    obtain ⟨m₁, hm, h⟩ := Option.map_eq_some_iff.mp h
    cases h; exact .same (.takeItems rfl hm) rfl rfl
  | promoteNotify w => cases h; exact .same (.notify rfl) rfl rfl
  | notify w =>
    simp only [workerStep, Option.some.injEq, Prod.mk.injEq] at h
    obtain ⟨rfl, rfl⟩ := h
    exact .same (.notify rfl) (by split <;> rfl) (by split <;> rfl)
  | promote | run w | yield => cases h; exact .same .move rfl rfl
  | exitComplete | exitGive | exitSignal => cases h; exact .same (.thread rfl) rfl rfl
  | terminated => cases h

end

/-! ## The steps of the system -/

namespace State

variable {s : State Q W T} {c c' : Ctx Q T} {q q' : Q} {m : Mem Q W}
omit [DecidableEq W]

@[simp] theorem setCall_mem {p : Pc Q W} : (s.setCall c m p).mem = m := rfl
@[simp] theorem setCall_worker {p : Pc Q W} : (s.setCall c m p).worker = s.worker := rfl
omit [DecidableEq T] in
@[simp] theorem setWorker_mem {p : WorkerPc Q W} : (s.setWorker q m p).mem = m := rfl
omit [DecidableEq T] in
@[simp] theorem setWorker_call {p : WorkerPc Q W} : (s.setWorker q m p).call = s.call := rfl

theorem setCall_call {p : Pc Q W} :
    (s.setCall c m p).call c' = if c' = c then p else s.call c' := by
  simp only [setCall, Function.update_apply]

omit [DecidableEq T] in
theorem setWorker_worker {p : WorkerPc Q W} :
    (s.setWorker q m p).worker q' = if q' = q then p else s.worker q' := by
  simp only [setWorker, Function.update_apply]

@[simp] theorem setCall_call_self {p : Pc Q W} : (s.setCall c m p).call c = p := by
  simp only [setCall_call, if_true]

@[simp] theorem setCall_setCall {m' : Mem Q W} {p p' : Pc Q W} :
    (s.setCall c m p).setCall c m' p' = s.setCall c m' p' := by
  simp only [setCall, Function.update_idem]

omit [DecidableEq T] in
@[simp] theorem setWorker_worker_self {p : WorkerPc Q W} : (s.setWorker q m p).worker q = p := by
  simp only [setWorker_worker, if_true]

end State

theorem step_setCall {s : State Q W T} {c : Ctx Q T} {m m' : Mem Q W} {p p' : Pc Q W}
    (h : callStep c m p = some (m', p')) :
    step (s.setCall c m p) (.step c) = some (s.setCall c m' p') := by
  simp only [step, State.setCall_mem, State.setCall_call_self, h, Option.map_some,
    State.setCall_setCall]

/-- What a step of the system does. -/
inductive StepEffect (s : State Q W T) : Act Q W T → State Q W T → Prop
  | call : s.mayCall c = true → StepEffect s (.call c op) (s.setCall c s.mem op.entry)
  | step : callStep c s.mem (s.call c) = some (m, p) → CallEffect c s.mem (s.call c) m p →
    StepEffect s (.step c) (s.setCall c m p)
  | expire : s.call c = .joinWait q timeout (some expiry) → expiry ≤ s.mem.tick →
    StepEffect s (.expire c) (s.setCall c s.mem (.joinAbandon q timeout))
  | worker : ((s.worker q).handling = true → (s.call (.handler q)).free = true) →
    workerStep s.mem q (s.worker q) = some (m, p) → WorkerEffect s.mem q (s.worker q) m p →
    StepEffect s (.worker q) (s.setWorker q m p)
  | workerExpire : s.worker q = .blocked (some expiry) → expiry ≤ s.mem.tick →
    StepEffect s (.workerExpire q) (s.setWorker q s.mem .promote)
  | tick : StepEffect s .tick { s with mem := { s.mem with tick := s.mem.tick + 1 } }

/-- **The inversion of `step`.** -/
theorem step_effect {s t : State Q W T} {a : Act Q W T} (h : step s a = some t) :
    StepEffect s a t := by
  cases a with
  | call c op =>
    simp only [step] at h
    split at h
    case isTrue hc => cases h; exact .call hc
    case isFalse => cases h
  | step c =>
    obtain ⟨⟨m, p⟩, hs, h⟩ := Option.map_eq_some_iff.mp h
    cases h; exact .step hs (callStep_effect hs)
  | expire c =>
    obtain ⟨p, hs, h⟩ := Option.map_eq_some_iff.mp h
    cases h
    revert hs
    cases hp : s.call c with
    | joinWait q timeout expiry =>
      cases expiry with
      | none => intro hs; cases hs
      | some e =>
        intro hs
        simp only [callExpire] at hs
        split at hs
        case isTrue he => cases hs; exact .expire hp he
        case isFalse => cases hs
    | _ => intro hs; cases hs
  | worker q =>
    simp only [step] at h
    split at h
    · cases h
    case isFalse hb =>
      obtain ⟨⟨m, p⟩, hs, h⟩ := Option.map_eq_some_iff.mp h
      cases h; exact .worker (by simpa using hb) hs (workerStep_effect hs)
  | workerExpire q =>
    obtain ⟨p, hs, h⟩ := Option.map_eq_some_iff.mp h
    cases h
    revert hs
    cases hp : s.worker q with
    | blocked expiry =>
      cases expiry with
      | none => intro hs; cases hs
      | some e =>
        intro hs
        simp only [workerExpire] at hs
        split at hs
        case isTrue he => cases hs; exact .workerExpire hp he
        case isFalse => cases hs
    | _ => intro hs; cases hs
  | tick => cases h; exact .tick

end HazelOsal
