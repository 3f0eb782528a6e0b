import HazelOsal.WorkQueue.Invariant

/-! # Waiting for a work item

All threads that wait for an item in `os_work_flush` or in one of the synchronous cancels share its
binary semaphore: a token wakes one of them, who tests its own condition and gives nothing back.
What makes a condition true announces it with `os_work_notify`, but for the steps that clear
`OS_WORK_DELAYED` on the way to a submission. So a waiter whose condition holds is served (there is
a token, or an announcement still to come) until another thread takes the only token. -/

namespace HazelOsal

open TransitionSystem

variable {Q W T : Type} [DecidableEq Q] [DecidableEq W] [DecidableEq T]

/-! ## Waiters and announcements -/

/-- What a thread in `os_sem_take(&work->sync, …)` waits for. -/
inductive Awaited where
  | idle
  | completed (target : UInt32)
  deriving DecidableEq

/-- The condition holds. -/
def Awaited.holds (work : OsWork Q) : Awaited → Prop
  | .idle => work.flags = .none
  | .completed target => work.completionId = target

instance {work : OsWork Q} : (a : Awaited) → Decidable (a.holds work)
  | .idle => inferInstanceAs (Decidable (work.flags = .none))
  | .completed target => inferInstanceAs (Decidable (work.completionId = target))

/-- What the call waits for on the semaphore of `w`. -/
def Pc.awaits (w : W) : Pc Q W → Option Awaited
  | .busyTake _ w' _ => if w' = w then some .idle else none
  | .flushTake w' target _ _ => if w' = w then some (.completed target) else none
  | _ => none

/-- The call has still to execute the `os_work_notify` of `w` for a critical section that it has
left. -/
def Pc.announces (w : W) : Pc Q W → Bool
  | .cancelTrytake _ w' _ _ | .cancelNotify w' _ _ | .purgeNotify _ w' | .cancelDelayableGive _ w' _
  | .cancelEnter w' (.delayable (some _) _) | .cancelLock w' (.delayable (some _) _) => w' = w
  | _ => false

/-- The waiters of `w` are served: there is a token, or somebody is to notify them. -/
def State.served (s : State Q W T) (w : W) : Prop :=
  0 < (s.mem.work w).sync.count ∨ (∃ c, (s.call c).announces w = true) ∨
    ∃ q, (s.worker q).notifying = some w

/-- Thread `c` is blocked on the semaphore of `w` though what it waits for holds, once it gets a
token. -/
def State.ready (s : State Q W T) (w : W) (c : Ctx Q T) (a : Awaited) : Prop :=
  c.inIsr = false ∧ (s.call c).awaits w = some a ∧ a.holds (s.mem.work w)

/-- The flags of an item that is delayed and nothing else. -/
def WorkFlags.onlyDelayed : WorkFlags := ⟨false, false, false, true⟩

/-- The tokens of `w` are as before, unless `takes` holds, and no condition has become true, unless
`silent` holds and the item was only delayed. -/
def LeavesWaiters (m m' : Mem Q W) (w : W) (takes silent : Prop) : Prop :=
  ((m'.work w).sync = (m.work w).sync ∨ takes) ∧
    ∀ a : Awaited, a.holds (m'.work w) →
      a.holds (m.work w) ∨ a = .idle ∧ silent ∧ (m.work w).flags = .onlyDelayed

omit [DecidableEq Q] [DecidableEq W] in
theorem leavesWaiters_of_eq {m m' : Mem Q W} {w : W} {takes silent : Prop}
    (h : m'.work w = m.work w) : LeavesWaiters m m' w takes silent := by
  rw [LeavesWaiters, h]
  exact ⟨.inl rfl, fun _ ha => .inl ha⟩

/-! ## The steps of calls -/

section
variable {c : Ctx Q T} {m m' : Mem Q W} {q : Q} {w d : W} {p p' : Pc Q W} {a : Awaited}
omit [DecidableEq T]

omit [DecidableEq Q] [DecidableEq W] in
/-- Where `os_work_cancel` returns to. -/
theorem CancelCont.resume_cases (k : CancelCont Q) (w : W) (r : Int) :
    (∃ v, (k.resume w r : Pc Q W) = .done v) ∨
    ∃ op wasPending, (k.resume w r : Pc Q W) = .busyCheck op w wasPending false := by
  cases k with
  | ret => exact .inl ⟨_, rfl⟩
  | sync b => exact .inr ⟨_, _, rfl⟩
  | delayable q k =>
    cases k with
    | ret => exact .inl ⟨_, rfl⟩
    | sync b => exact .inr ⟨_, _, rfl⟩

omit [DecidableEq Q] in
@[simp] theorem CancelCont.resume_awaits {k : CancelCont Q} {w' : W} {r : Int} :
    (k.resume w' r : Pc Q W).awaits w = none := by
  rcases k.resume_cases w' r with ⟨v, h⟩ | ⟨op, b, h⟩ <;> rw [h] <;> rfl

omit [DecidableEq Q] in
@[simp] theorem DelayableCont.resume_awaits {k : DelayableCont} {w' : W} {r : Int} :
    (k.resume w' r : Pc Q W).awaits w = none := by cases k <;> rfl

omit [DecidableEq Q] in
@[simp] theorem SubmitCont.resume_awaits {k : SubmitCont} {w' : W} {r : Int} :
    (k.resume w' r : Pc Q W).awaits w = none := by cases k <;> rfl

/-- A call that starts to wait has found that its condition does not hold. -/
theorem callStep_awaits (h : callStep c m p = some (m', p')) (hm : InitInv m)
    (ha : p'.awaits w = some a) : m' = m ∧ ¬ a.holds (m.work w) := by
  cases p with
  | busyCheck op w' wasPending woken =>
    simp only [callStep, osWorkBusyGet, hm.magic w', if_true] at h
    split at h
    case isTrue => cases h; cases ha
    case isFalse hf =>
      cases h
      simp only [Pc.awaits, Option.ite_none_right_eq_some, Option.some.injEq] at ha
      obtain ⟨rfl, rfl⟩ := ha
      exact ⟨rfl, hf⟩
  | flushCheck w' target waited woken k =>
    simp only [callStep] at h
    split at h
    case isTrue => cases h; cases ha
    case isFalse hf =>
      cases h
      simp only [Pc.awaits, Option.ite_none_right_eq_some, Option.some.injEq] at ha
      obtain ⟨rfl, rfl⟩ := ha
      exact ⟨rfl, hf⟩
  | submit p k =>
    obtain ⟨-, ⟨p₁, -, rfl⟩ | ⟨r, -, rfl⟩⟩ := callStep_submit h
    · cases ha
    · simp at ha
  | _ =>
    simp only [callStep] at h
    grind [Pc.awaits, Option.map_eq_some_iff, CancelCont.resume_awaits,
      DelayableCont.resume_awaits]

omit [DecidableEq Q] in
theorem notify_count (hm : InitInv m) : 0 < ((m.osWorkNotify w).work w).sync.count := by
  rw [Mem.osWorkNotify, if_pos (hm.syncInitialized w), Mem.setWork_work, if_pos rfl]
  simp only [OsSem.give_count_of_handle (hm.handle w)]
  omega

theorem cancelNext_announces {k : CancelCont Q} :
    (cancelNext m w k : Pc Q W).announces w = true := by
  rw [cancelNext]
  rcases osWorkCancelCritical m w with ⟨_, _ | q, flags⟩ <;> simp [Pc.announces]

/-- An announcement leads to a token. -/
theorem callStep_announces (h : callStep c m p = some (m', p')) (hm : InitInv m)
    (hp : p.announces w = true) :
    0 < (m'.work w).sync.count ∨ p'.announces w = true := by
  cases p with
  | cancelTrytake q w' flags k =>
    cases of_decide_eq_true hp
    cases h
    exact .inr hp
  | cancelNotify w' flags k =>
    cases of_decide_eq_true hp
    cases h
    exact .inl (notify_count hm)
  | purgeNotify q w' =>
    cases of_decide_eq_true hp
    cases h
    exact .inl (notify_count hm)
  | cancelDelayableGive q w' k =>
    cases h
    exact .inr hp
  | cancelEnter w' k =>
    simp only [callStep, hm.magic w', hm.syncInitialized w', bne_self_eq_false, Bool.not_true,
      Bool.or_self, Bool.false_eq_true, if_false] at h
    cases h
    rcases k with _ | _ | ⟨_ | q, k⟩
    · cases hp
    · cases hp
    · cases hp
    · exact .inr hp
  | cancelLock w' k =>
    obtain ⟨-, rfl⟩ := callStep_cancelLock h
    have hw : w' = w := by
      rcases k with _ | _ | ⟨_ | q, k⟩
      · cases hp
      · cases hp
      · cases hp
      · exact of_decide_eq_true hp
    rw [hw]
    exact .inr cancelNext_announces
  | _ => cases hp

omit [DecidableEq Q] in
theorem not_idle_of_delayed {work : OsWork Q} (h : work.flags.delayed = true) :
    ¬ Awaited.idle.holds work := by
  intro hi
  have : work.flags.delayed = false := congrArg WorkFlags.delayed hi
  rw [h] at this
  cases this

omit [DecidableEq Q] in
theorem not_idle_of_queued {work : OsWork Q} (h : work.flags.queued = true) :
    ¬ Awaited.idle.holds work := by
  intro hi
  have : work.flags.queued = false := congrArg WorkFlags.queued hi
  rw [h] at this
  cases this

omit [DecidableEq Q] in
theorem not_idle_of_running {work : OsWork Q} (h : work.flags.running = true) :
    ¬ Awaited.idle.holds work := by
  intro hi
  have : work.flags.running = false := congrArg WorkFlags.running hi
  rw [h] at this
  cases this

theorem arm_holds {delay : UInt32} (ha : a.holds ((osWorkArm m q d delay).work w)) :
    a.holds (m.work w) := by
  rw [arm_work] at ha
  split at ha
  case isTrue hw =>
    subst hw
    cases a with
    | idle => exact absurd ha (not_idle_of_delayed rfl)
    | completed target => exact ha
  case isFalse => exact ha

theorem enqueue_holds {w' : W} (ha : a.holds ((osWorkEnqueue m q w').work w)) :
    a.holds (m.work w) := by
  rw [enqueue_work] at ha
  split at ha
  case isTrue hw =>
    subst hw
    cases a with
    | idle => exact absurd ha (not_idle_of_queued rfl)
    | completed target => exact ha
  case isFalse => exact ha

omit [DecidableEq Q] in
theorem clearDelayed_holds (ha : a.holds ((clearDelayed m d).work w)) :
    a.holds (m.work w) ∨ a = .idle ∧ d = w ∧ (m.work w).flags = .onlyDelayed := by
  rw [clearDelayed_work] at ha
  split at ha
  case isFalse => exact .inl ha
  case isTrue hw =>
    subst hw
    cases a with
    | completed target => exact .inl ha
    | idle =>
      have hf : { (m.work w).flags with delayed := false } = WorkFlags.none := ha
      cases hfl : (m.work w).flags with
      | mk r c q dl =>
        rw [hfl] at hf
        cases hf
        cases dl with
        | false => exact .inl hfl
        | true => exact .inr ⟨rfl, rfl, rfl⟩

theorem CallSame.work_eq (he : CallSame c m p m' p') (hn : p.announces w = false)
    (ha : p.awaiting ≠ some w) : m'.work w = m.work w := by
  cases he with
  | takeSync _ hw hm =>
    obtain ⟨sync, -, rfl⟩ := Option.map_eq_some_iff.mp hm
    rw [Mem.setWork_work, if_neg]
    rintro rfl
    exact ha hw
  | notify hw =>
    simp only [Mem.osWorkNotify]
    split
    · rw [Mem.setWork_work, if_neg]
      rintro rfl
      revert hw hn
      cases p <;> simp [Pc.notifying, Pc.announces]
    · rfl
  | joinError => simp only [Mem.recordJoin]; split <;> rfl
  | drainCheck => simp only [osWorkQueueDrainCheck]; split <;> rfl
  | unplug => simp only [osWorkQueueUnplugCritical]; split <;> rfl
  | move | giveItems | trytakeItems | drainBegin | thread | deinitSem | finish => rfl

/-- The step of the call clears `OS_WORK_DELAYED` of `w` and announces nothing. -/
def Pc.clearsSilently (c : Ctx Q T) (m : Mem Q W) (w : W) : Pc Q W → Prop
  | .scheduleLock q d delay reschedule =>
    d = w ∧ delay = 0 ∧ ScheduleAccepts c.caller m q d reschedule
  | .flushDelayableLock d => d = w
  | _ => False

/-- The step of the call takes a token of `w`. -/
def Pc.takes (c : Ctx Q T) (w : W) (p : Pc Q W) : Prop := c.inIsr = false ∧ p.awaiting = some w

/-- A call that neither announces a change of `w` nor is to take its token leaves the tokens alone,
and makes no condition true but silently, unless it is to announce it. -/
theorem CallEffect.holds (he : CallEffect c m p m' p') (hm : MemInv m)
    (hn : p.announces w = false) (ha : p.awaiting ≠ some w) :
    p'.announces w = true ∨ LeavesWaiters m m' w (p.takes c w) (p.clearsSilently c m w) := by
  have hdelay {d : W} : ((clearDelayed m d).work w).sync = (m.work w).sync := by
    rw [clearDelayed_work]
    split
    case isTrue hw => rw [hw]
    case isFalse => rfl
  cases he with
  | same he => exact .inr (leavesWaiters_of_eq (he.work_eq hn ha))
  | enqueue => exact .inr ⟨.inl (enqueue_sameInit w).2.2, fun a ha => .inl (enqueue_holds ha)⟩
  | @cancel w' k =>
    by_cases hw : w = w'
    · rw [hw]; exact .inl cancelNext_announces
    · exact .inr (leavesWaiters_of_eq (cancel_work_of_ne hm.toRunInv hw))
  | arm => exact .inr ⟨.inl (arm_sameRun.sameInit w).2.2, fun a ha => .inl (arm_holds ha)⟩
  | @rearm q d reschedule delay =>
    have hs : ((osWorkArm (undelay m d .replaced) q d delay).work w).sync = (m.work w).sync :=
      (arm_sameRun.sameInit w).2.2.trans hdelay
    refine .inr ⟨.inl hs, fun a ha => .inl ?_⟩
    have ha₀ : a.holds ((undelay m d .replaced).work w) := arm_holds ha
    rcases clearDelayed_holds ha₀ with ha' | ⟨rfl, hw, -⟩
    · exact ha'
    · refine absurd ha (not_idle_of_delayed ?_)
      rw [arm_work, if_pos hw.symm]
  | @unschedule q d reschedule hacc hd =>
    refine .inr ⟨.inl hdelay, fun a ha => ?_⟩
    rcases clearDelayed_holds ha with ha | ⟨rfl, hw, hf⟩
    · exact .inl ha
    · exact .inr ⟨rfl, ⟨hw, rfl, hacc⟩, hf⟩
  | @cancelDelayable d k hd =>
    obtain ⟨q, hq⟩ := Option.ne_none_iff_exists'.mp (hm.delay.queue d hd)
    by_cases hw : d = w
    · subst hw
      rw [hq]
      exact .inl (decide_eq_true rfl)
    · refine .inr (leavesWaiters_of_eq ?_)
      rw [undelay_work, clearDelayed_work, if_neg (Ne.symm hw)]
  | @flushDelayable d =>
    refine .inr ⟨.inl hdelay, fun a ha => ?_⟩
    rcases clearDelayed_holds ha with ha | ⟨rfl, hw, hf⟩
    · exact .inl ha
    · exact .inr ⟨rfl, hw, hf⟩
  | markStop | zero => exact .inr (leavesWaiters_of_eq rfl)
  | @purge q d ds =>
    by_cases hw : d = w
    · exact .inl (decide_eq_true hw)
    · refine .inr (leavesWaiters_of_eq ?_)
      rw [undelay_work, clearDelayed_work, if_neg (Ne.symm hw)]

omit [DecidableEq Q] in
/-- A token that is taken makes no condition true. -/
theorem takeSync_holds (h : m.takeSync? w = some m') (ha : a.holds (m'.work w)) :
    a.holds (m.work w) := by
  obtain ⟨sync, -, rfl⟩ := Option.map_eq_some_iff.mp h
  rw [Mem.setWork_work, if_pos rfl] at ha
  cases a <;> exact ha

theorem callStep_take (h : callStep c m p = some (m', p')) (hp : p.awaiting = some w) :
    LeavesWaiters m m' w (p.takes c w) (p.clearsSilently c m w) := by
  cases p with
  | busyTake | flushTake =>
    cases hp
    simp only [callStep] at h
    split at h
    case isTrue => cases h; exact leavesWaiters_of_eq rfl
    case isFalse hopen =>
      obtain ⟨m₁, hm, h⟩ := Option.map_eq_some_iff.mp h
      cases h
      obtain ⟨hisr, -⟩ := Bool.or_eq_false_iff.mp (Bool.eq_false_iff.mpr hopen)
      exact ⟨.inr ⟨hisr, rfl⟩, fun a ha => .inl (takeSync_holds hm ha)⟩
  | _ => cases hp

/-- **What a call does to the waiters of `w`**: it serves them, or it leaves the tokens alone but
for one that it takes, and makes no condition true but silently. -/
theorem callStep_holds (h : callStep c m p = some (m', p')) (hm : MemInv m) :
    0 < (m'.work w).sync.count ∨ p'.announces w = true ∨
    p.announces w = false ∧ LeavesWaiters m m' w (p.takes c w) (p.clearsSilently c m w) := by
  cases hn : p.announces w with
  | true => exact (callStep_announces h hm.toInitInv hn).imp_right .inl
  | false =>
    by_cases ha : p.awaiting = some w
    · exact .inr (.inr ⟨rfl, callStep_take h ha⟩)
    · rcases (callStep_effect h).holds hm hn ha with hp | hs
      · exact .inr (.inl hp)
      · exact .inr (.inr ⟨rfl, hs⟩)

end

/-! ## The steps of workers -/

section
variable {m m' : Mem Q W} {q : Q} {w : W} {p p' : WorkerPc Q W}

/-- The step of the worker promotes `w` and announces nothing. -/
def WorkerPc.clearsSilently (m : Mem Q W) (q : Q) (w : W) : WorkerPc Q W → Prop
  | .promoteLock sampled =>
    (∃ timeout, promoteScan (fun d => (m.dwork d).deadline) (UInt32.ofNat sampled)
      (m.queue q).delayed OS_WAIT_FOREVER = (some w, timeout)) ∧
    (m.queue q).plugged = false ∧ (m.queue q).stopping = false
  | _ => False

theorem promoteLock_holds {sampled : Nat}
    (h : workerStep m q (.promoteLock sampled) = some (m', p')) :
    p'.notifying = some w ∨
      LeavesWaiters m m' w False ((WorkerPc.promoteLock sampled).clearsSilently m q w) := by
  simp only [workerStep, osWorkPromoteDelayedCritical] at h
  cases hs : promoteScan (fun d => (m.dwork d).deadline) (UInt32.ofNat sampled)
      (m.queue q).delayed OS_WAIT_FOREVER with
  | mk due timeout =>
    rw [hs] at h
    cases due with
    | none => cases h; exact .inr (leavesWaiters_of_eq rfl)
    | some d =>
      have hne (hw : d ≠ w) : (clearDelayed m d).work w = m.work w := by
        rw [clearDelayed_work, if_neg (Ne.symm hw)]
      by_cases hb : ((m.queue q).plugged || (m.queue q).stopping) = true
      · simp only [hb, if_true] at h
        cases h
        by_cases hw : d = w
        · exact .inl (congrArg some hw)
        · exact .inr (leavesWaiters_of_eq (hne hw))
      · simp only [hb, Bool.false_eq_true, if_false] at h
        cases h
        obtain ⟨hp, hst⟩ := Bool.or_eq_false_iff.mp (Bool.eq_false_iff.mpr hb)
        by_cases hw : d = w
        · subst hw
          refine .inr ⟨.inl ?_, fun a ha => ?_⟩
          · rw [clearDelayed_work, if_pos rfl]
          · rcases clearDelayed_holds ha with ha | ⟨ha, -, hf⟩
            · exact .inl ha
            · exact .inr ⟨ha, ⟨⟨timeout, hs⟩, hp, hst⟩, hf⟩
        · exact .inr (leavesWaiters_of_eq (hne hw))

/-- **What a worker does to the waiters of `w`.** -/
theorem workerStep_holds (h : workerStep m q p = some (m', p')) (hm : MemInv m) :
    0 < (m'.work w).sync.count ∨ p'.notifying = some w ∨
    p.notifying ≠ some w ∧ LeavesWaiters m m' w False (p.clearsSilently m q w) := by
  by_cases hn : p.notifying = some w
  · left
    cases p with
    | promoteNotify w' | notify w' => cases hn; cases h; exact notify_count hm.toInitInv
    | _ => cases hn
  · by_cases hl : ∃ sampled, p = .promoteLock sampled
    · obtain ⟨sampled, rfl⟩ := hl
      rcases promoteLock_holds h with hp | hs
      · exact .inr (.inl hp)
      · exact .inr (.inr ⟨hn, hs⟩)
    · cases workerStep_effect h with
      | same he =>
        refine .inr (.inr ⟨hn, leavesWaiters_of_eq ?_⟩)
        cases he with
        | move | giveItems | thread => rfl
        | takeItems _ hm => obtain ⟨items, -, rfl⟩ := Option.map_eq_some_iff.mp hm; rfl
        | notify hw =>
          simp only [Mem.osWorkNotify]
          split
          · rw [Mem.setWork_work, if_neg]
            rintro rfl
            exact hn hw
          · rfl
      | refuse => exact .inr (.inr ⟨hn, leavesWaiters_of_eq rfl⟩)
      | @enqueue q' w' r d j =>
        refine .inr (.inr ⟨hn, .inl (enqueue_sameInit w).2.2, fun a ha => .inl ?_⟩)
        have ha : a.holds ((osWorkEnqueue m q' w').work w) := ha
        exact enqueue_holds ha
      | promote | block => exact absurd ⟨_, rfl⟩ hl
      | stop => exact .inr (.inr ⟨hn, leavesWaiters_of_eq rfl⟩)
      | @start rest w' =>
        refine .inr (.inr ⟨hn, ?_⟩)
        by_cases hw : w = w'
        · subst hw
          rw [LeavesWaiters, start_work, if_pos rfl]
          refine ⟨.inl rfl, fun a ha => .inl ?_⟩
          cases a with
          | idle => exact absurd ha (not_idle_of_running rfl)
          | completed target => exact ha
        · refine leavesWaiters_of_eq ?_
          rw [start_work, if_neg hw]
      | @complete w' =>
        by_cases hw : w' = w
        · exact .inr (.inl (congrArg some hw))
        · refine .inr (.inr ⟨hn, leavesWaiters_of_eq ?_⟩)
          rw [complete_work, if_neg (Ne.symm hw)]

end

/-! ## Every run -/

/-- The waiters of `w` are not in each other's way, nor is `OS_WORK_DELAYED` cleared silently under
them. -/
structure WaitersApart (w : W) (s : State Q W T) (a : Act Q W T) : Prop where
  /-- A thread takes a token of `w` only while what the others wait for does not hold. -/
  take : ∀ c, a = .step c → (s.call c).takes c w → ∀ c' a', c' ≠ c → ¬ s.ready w c' a'
  /-- A call that clears the flag as the last one, and announces nothing, finds no thread that waits
  until `w` is idle. -/
  call : ∀ c, a = .step c → (s.call c).clearsSilently c s.mem w →
    (s.mem.work w).flags = .onlyDelayed →
      ∀ c', c'.inIsr = false → (s.call c').awaits w ≠ some .idle
  /-- The same of a promotion. -/
  worker : ∀ q, a = .worker q → (s.worker q).clearsSilently s.mem q w →
    (s.mem.work w).flags = .onlyDelayed →
      ∀ c', c'.inIsr = false → (s.call c').awaits w ≠ some .idle

/-- Whoever is ready is served. -/
def ServedInv (w : W) (s : State Q W T) : Prop := ∀ c a, s.ready w c a → s.served w

section
variable {s t : State Q W T} {w : W} {c : Ctx Q T}

omit [DecidableEq Q] in
theorem Pc.free_announces {p : Pc Q W} (h : p.free = true) : p.announces w = false := by
  cases p with
  | idle | done r => rfl
  | _ => cases h

omit [DecidableEq Q] in
theorem Op.entry_awaits {op : Op Q W} : op.entry.awaits w = none := by cases op <;> rfl

/-- Where one context moves on, whoever has announced a change is still to notify, but for that
context. -/
theorem State.served.setCall {m : Mem Q W} {p : Pc Q W} (h : s.served w)
    (hold : (s.call c).announces w = false)
    (hsync : (m.work w).sync = (s.mem.work w).sync) : (s.setCall c m p).served w := by
  rcases h with hcount | ⟨d, hd⟩ | hworker
  · exact .inl (by rw [State.setCall_mem, hsync]; exact hcount)
  · refine .inr (.inl ⟨d, ?_⟩)
    rw [State.setCall_call, if_neg]
    · exact hd
    · rintro rfl
      rw [hold] at hd
      cases hd
  · exact .inr (.inr hworker)

/-- A call that neither waits for `w` nor announces a change of it. -/
theorem ServedInv.move {p : Pc Q W} (h : ServedInv w s) (hold : (s.call c).announces w = false)
    (hp : p.awaits w = none) : ServedInv w (s.setCall c s.mem p) := by
  rintro c' a ⟨hisr, hawaits, ha⟩
  rw [State.setCall_call] at hawaits
  split at hawaits
  · rw [hp] at hawaits; cases hawaits
  · exact (h c' a ⟨hisr, hawaits, ha⟩).setCall hold rfl

theorem ServedInv.call {m : Mem Q W} {p : Pc Q W} (h : ServedInv w s) (hm : MemInv s.mem)
    (hok : WaitersApart w s (.step c)) (hs : callStep c s.mem (s.call c) = some (m, p)) :
    ServedInv w (s.setCall c m p) := by
  rintro c' a ⟨hisr, hawaits, ha⟩
  rw [State.setCall_mem] at ha
  rcases callStep_holds hs hm with hcount | hannounces | ⟨hn, hsync, hholds⟩
  · exact .inl hcount
  · exact .inr (.inl ⟨c, by rw [State.setCall_call_self]; exact hannounces⟩)
  -- the acting call has just tested its own condition, so `c'` is another one
  have hne : c' ≠ c := by
    rintro rfl
    rw [State.setCall_call_self] at hawaits
    obtain ⟨rfl, hnot⟩ := callStep_awaits hs hm.toInitInv hawaits
    exact hnot ha
  rw [State.setCall_call, if_neg hne] at hawaits
  rcases hholds a ha with ha | ⟨rfl, hsilent, hf⟩
  · have hready : s.ready w c' a := ⟨hisr, hawaits, ha⟩
    rcases hsync with hsync | htakes
    · exact (h c' a hready).setCall hn hsync
    · exact absurd hready (hok.take c rfl htakes c' a hne)
  · exact absurd hawaits (hok.call c rfl hsilent hf c' hisr)

omit [DecidableEq T] in
theorem ServedInv.worker {m : Mem Q W} {q : Q} {p : WorkerPc Q W} (h : ServedInv w s)
    (hm : MemInv s.mem) (hok : WaitersApart w s (.worker q))
    (hs : workerStep s.mem q (s.worker q) = some (m, p)) : ServedInv w (s.setWorker q m p) := by
  rintro c a ⟨hisr, hawaits, ha⟩
  rcases workerStep_holds hs hm with hcount | hn | ⟨hn, hsync, hholds⟩
  · exact .inl hcount
  · exact .inr (.inr ⟨q, by rw [State.setWorker_worker_self]; exact hn⟩)
  rcases hholds a ha with ha | ⟨rfl, hsilent, hf⟩
  · rcases h c a ⟨hisr, hawaits, ha⟩ with hcount | hcall | ⟨q', hq'⟩
    · exact .inl (by rw [State.setWorker_mem, hsync.resolve_right id]; exact hcount)
    · exact .inr (.inl hcall)
    · refine .inr (.inr ⟨q', ?_⟩)
      rw [State.setWorker_worker, if_neg]
      · exact hq'
      · rintro rfl
        exact hn hq'
  · exact absurd hawaits (hok.worker q rfl hsilent hf c hisr)

theorem ServedInv.step {a : Act Q W T} (hr : Reachable (workQueueSystem Q W T) s)
    (h : ServedInv w s) (hok : WaitersApart w s a) (hs : HazelOsal.step s a = some t) :
    ServedInv w t := by
  have hm := (stateInv_of_reachable hr).mem
  cases step_effect hs with
  | @call c op hmay => exact h.move (Pc.free_announces (State.mayCall_free hmay)) Op.entry_awaits
  | @step c m p hstep => exact h.call hm hok hstep
  | @expire c q' timeout expiry hp => exact h.move (by rw [hp]; rfl) rfl
  | @worker q m p _ hstep => exact h.worker hm hok hstep
  | @workerExpire q' expiry hp =>
    intro c a hready
    rcases h c a hready with hcount | hcall | ⟨q, hq⟩
    · exact .inl hcount
    · exact .inr (.inl hcall)
    · refine .inr (.inr ⟨q, ?_⟩)
      rw [State.setWorker_worker, if_neg]
      · exact hq
      · rintro rfl
        rw [hp] at hq
        cases hq
  | tick => exact h

theorem servedInv_of_reachable (h : ReachableVia (workQueueSystem Q W T) (WaitersApart w) s) :
    ServedInv w s := by
  refine ReachableVia.invariant (I := ServedInv w) ?_
    (fun _ _ _ hr hi hok hs => hi.step hr hok hs) h
  rintro s hs c a ⟨-, hawaits, -⟩
  rw [hs.call] at hawaits
  cases hawaits

/-- **No waiter is stranded**, in runs that keep the waiters of `w` apart: a thread that is blocked
on the semaphore of `w` though what it waits for holds finds a token there, unless a notification of
`w` is still to be executed. -/
theorem no_stranded_waiter {a : Awaited}
    (h : ReachableVia (workQueueSystem Q W T) (WaitersApart w) s) (hisr : c.inIsr = false)
    (hw : (s.call c).awaits w = some a) (ha : a.holds (s.mem.work w))
    (hn : ∀ c', (s.call c').announces w = false)
    (hworker : ∀ q, (s.worker q).notifying ≠ some w) :
    0 < (s.mem.work w).sync.count ∧ ∃ t, step s (.step c) = some t := by
  have hm := (stateInv_of_reachable h.reachable).mem
  have hcount : 0 < (s.mem.work w).sync.count := by
    rcases servedInv_of_reachable h c a ⟨hisr, hw, ha⟩ with hcount | ⟨c', hc'⟩ | ⟨q, hq⟩
    · exact hcount
    · rw [hn] at hc'
      cases hc'
    · exact absurd hq (hworker q)
  refine ⟨hcount, ?_⟩
  obtain ⟨m, htake⟩ : ∃ m, s.mem.takeSync? w = some m := by
    cases htry : (s.mem.work w).sync.tryTake with
    | none => exact absurd (OsSem.tryTake_eq_none (hm.handle w) htry) (Nat.ne_of_gt hcount)
    | some sync => exact ⟨_, congrArg (Option.map _) htry⟩
  suffices hstep : ∃ r, callStep c s.mem (s.call c) = some r by
    obtain ⟨r, hr⟩ := hstep
    exact ⟨_, congrArg (Option.map _) hr⟩
  have hopen : (c.inIsr || !(s.mem.work w).sync.handle) = false := by rw [hisr, hm.handle w]; rfl
  cases hp : s.call c with
  | busyTake op w' wasPending =>
    simp only [hp, Pc.awaits] at hw
    split at hw
    case isTrue he => subst he; exact ⟨_, by rw [callStep, hopen, htake]; rfl⟩
    case isFalse => cases hw
  | flushTake w' target waited k =>
    simp only [hp, Pc.awaits] at hw
    split at hw
    case isTrue he => subst he; exact ⟨_, by rw [callStep, hopen, htake]; rfl⟩
    case isFalse => cases hw
  | _ => rw [hp] at hw; cases hw

end

/-- The check of `WaitersApart` for an item that is not delayed, where `waiters` are all that may
wait for it. -/
def waitersApart (waiters : List (Ctx Q T)) (w : W) (s : State Q W T) : Act Q W T → Bool
  | .step c =>
    !(s.mem.work w).flags.delayed &&
      ((s.call c).awaiting ≠ some w || waiters.all fun c' =>
        c' = c || ((s.call c').awaits w).all fun a => !decide (a.holds (s.mem.work w)))
  | .worker _ => !(s.mem.work w).flags.delayed
  | _ => true

theorem WaitersApart.of_waitersApart {waiters : List (Ctx Q T)} {w : W} {s : State Q W T}
    {a : Act Q W T} (hall : ∀ c, c.inIsr = false → c ∈ waiters)
    (h : waitersApart waiters w s a = true) : WaitersApart w s a := by
  have hdelayed (hd : (!(s.mem.work w).flags.delayed) = true) :
      (s.mem.work w).flags ≠ .onlyDelayed := by
    intro hf
    rw [hf] at hd
    cases hd
  constructor
  case take =>
    rintro c rfl ⟨-, hc⟩ c' a' hne ⟨hisr, hawaits, ha⟩
    have hothers := (Bool.or_eq_true_iff.mp (Bool.and_eq_true_iff.mp h).2).resolve_left
      (by simpa using hc)
    have hnot := List.all_eq_true.mp hothers c' (hall c' hisr)
    simp [hne, hawaits, ha] at hnot
  case call =>
    rintro c rfl - hf
    exact absurd hf (hdelayed (Bool.and_eq_true_iff.mp h).1)
  case worker =>
    rintro q rfl - hf
    exact absurd hf (hdelayed h)

/-- A thread submits an item and flushes it, and another one does so while it runs. The first has
returned when the second submission is finished. -/
def apartRun : List (Act Unit Unit Bool) :=
  let submitAndFlush (t : Bool) : List (Act Unit Unit Bool) :=
    .call (.thread t) (.submitToQueue (some ()) ()) :: List.replicate 3 (.step (.thread t)) ++
      .call (.thread t) (.flush ()) :: List.replicate 3 (.step (.thread t))
  submitAndFlush false ++ List.replicate 4 (.worker ()) ++ submitAndFlush true ++
    List.replicate 3 (.worker ()) ++ List.replicate 2 (.step (.thread false)) ++
    List.replicate 8 (.worker ())

theorem no_stranded_waiter_flush : ∃ s t : State Unit Unit Bool,
    exec (workQueueSystem Unit Unit Bool) .initial apartRun = some s ∧
    s.call (.thread false) = .done (.bool true) ∧
    s.call (.thread true) = .flushTake () 2 true .ret ∧
    0 < (s.mem.work ()).sync.count ∧ step s (.step (.thread true)) = some t := by
  have hcalls (P : Pc Unit Unit → Prop) (s : State Unit Unit Bool)
      (hs : exec (workQueueSystem Unit Unit Bool) .initial apartRun = some s)
      (hfalse : P (.done (.bool true))) (htrue : P (.flushTake () 2 true .ret)) (h : P .idle) (c) :
      P (s.call c) := by
    cases hs
    rcases c with (_ | _) | ⟨t, i⟩ | q
    · exact hfalse
    · exact htrue
    · exact h
    · exact h
  have hall (c : Ctx Unit Bool) (hc : c.inIsr = false) :
      c ∈ [.thread false, .thread true, .handler ()] := by
    rcases c with (_ | _) | ⟨t, i⟩ | q
    · simp
    · simp
    · cases hc
    · simp
  obtain ⟨hcount, t, ht⟩ := no_stranded_waiter (w := ()) (c := .thread true) (a := .completed 2)
    (reachableVia_of_execOk apartRun (fun _ _ => WaitersApart.of_waitersApart hall)
      State.init_initial rfl rfl) rfl rfl (by exact rfl)
    (hcalls (fun p => p.announces () = false) _ rfl rfl rfl rfl) nofun
  exact ⟨_, t, rfl, rfl, rfl, hcount, ht⟩

/-- A thread submits item 0, and `n` others flush it before it runs. -/
def flushersRun (n : Nat) : List (Act Unit Nat Nat) :=
  [Act.call (.thread 0) (.submitToQueue (some ()) 0), .step (.thread 0), .step (.thread 0),
    .step (.thread 0)] ++
  (List.range n).flatMap (fun i => [Act.call (.thread (i + 1)) (.flush 0), .step (.thread (i + 1)),
    .step (.thread (i + 1)), .step (.thread (i + 1))]) ++
  List.replicate 7 (Act.worker ())

/-- Item 0 is delayed and a thread waits until it is idle, when another one reschedules it without a
delay; the queue is plugged before the submission, which is refused. -/
def silentRun : List (Act Unit Nat Nat) :=
  [Act.call (.thread 0) (.scheduleForQueue () 0 5), .step (.thread 0), .step (.thread 0),
    .step (.thread 0), .call (.thread 1) (.cancelSync 0)] ++
  List.replicate 8 (Act.step (.thread 1)) ++
  [Act.call (.thread 0) (.rescheduleForQueue () 0 0), .step (.thread 0), .step (.thread 0),
    .step (.thread 0), .call (.thread 2) (.drain () true), .step (.thread 2), .step (.thread 2),
    .step (.thread 2), .step (.thread 0), .step (.thread 0)]

/-- Of two threads that flush the same submission one returns, and the other is blocked for ever.
So is one that waits for an idle item, when `OS_WORK_DELAYED` is cleared for a submission that is
refused. -/
theorem stranded_waiter :
    (∃ s : State Unit Nat Nat, exec (workQueueSystem Unit Nat Nat) .initial
        (flushersRun 2 ++ [.step (.thread 1), .step (.thread 1)]) = some s ∧
      s.call (.thread 1) = .done (.bool true) ∧ s.call (.thread 2) = .flushTake 0 1 true .ret ∧
      (s.mem.work 0).completionId = 1 ∧ (∀ c, c ≠ .thread 2 → (s.call c).free = true) ∧
      s.worker () = .yield ∧ (s.mem.work 0).sync.count = 0 ∧ step s (.step (.thread 2)) = none) ∧
    ∃ s : State Unit Nat Nat, exec (workQueueSystem Unit Nat Nat) .initial silentRun = some s ∧
      s.call (.thread 0) = .done (.int (-EBUSY)) ∧
      s.call (.thread 1) = .busyTake .cancelSync 0 true ∧ (s.mem.work 0).flags = .none ∧
      (∀ c, c ≠ .thread 1 → (s.call c).free = true) ∧ s.worker () = .promote ∧
      (s.mem.work 0).sync.count = 0 ∧ step s (.step (.thread 1)) = none := by
  refine ⟨⟨_, rfl, rfl, rfl, rfl, fun c hc => ?_, rfl, rfl, rfl⟩,
    _, rfl, rfl, rfl, rfl, fun c hc => ?_, rfl, rfl, rfl⟩
  · rcases c with t | ⟨t, i⟩ | q
    · rcases t with _ | _ | _ | t
      · rfl
      · rfl
      · exact absurd rfl hc
      · rfl
    · rfl
    · rfl
  · rcases c with t | ⟨t, i⟩ | q
    · rcases t with _ | _ | _ | t
      · rfl
      · exact absurd rfl hc
      · rfl
      · rfl
    · rfl
    · rfl

end HazelOsal
