import HazelOsal.WorkQueue.Critical

/-! # Calls in progress

A context is anything that calls the API: a thread, an interrupt handler, or the work handler
that a queue's worker is running. `Pc` is the point a call has reached together with its locals,
and `callStep` its next step: one critical section, one semaphore operation, or an unlocked read
between them. Functions that are called from several places keep the caller in a continuation
(`SubmitCont`, `CancelCont`, `FlushCont`). -/

namespace HazelOsal

/-- `isr t interrupted` is an interrupt handler; `interrupted` is the queue whose worker it
interrupted, if it interrupted a worker. -/
inductive Ctx (Q T : Type) where
  | thread (t : T)
  | isr (t : T) (interrupted : Option Q)
  | handler (q : Q)
  deriving DecidableEq

namespace Ctx

/-- The queue whose embedded thread `os_get_current_thread` returns. -/
def caller : Ctx Q T → Option Q
  | .thread _ => none
  | .isr _ interrupted => interrupted
  | .handler q => some q

/-- `os_is_in_isr`. -/
def inIsr : Ctx Q T → Bool
  | .isr .. => true
  | _ => false

end Ctx

/-- The value a call returned. -/
inductive Ret where
  | int (r : Int)
  | bool (b : Bool)
  deriving DecidableEq

/-! ## Program points -/

/-- Inside `os_work_submit_to_queue`; `enter` is before the unlocked checks, where the queue
argument may be null. -/
inductive SubmitPc (Q W : Type) where
  | enter (queue : Option Q) (work : W)
  | lock (queue : Q) (work : W)
  | give (queue : Q) (work : W) (result : Int)

/-- Who called `os_work_submit_to_queue`. -/
inductive SubmitCont where
  | ret
  | flushDelayable

/-- Who called `os_work_cancel_delayable`. -/
inductive DelayableCont where
  | ret
  | sync (wasPending : Bool)

/-- Who called `os_work_cancel`; `queue` is the local of `os_work_cancel_delayable`. -/
inductive CancelCont (Q : Type) where
  | ret
  | sync (wasPending : Bool)
  | delayable (queue : Option Q) (k : DelayableCont)

/-- Who called `os_work_flush`; `wasDelayed` is the local of `os_work_flush_delayable`. -/
inductive FlushCont where
  | ret
  | delayable (wasDelayed : Bool)

def FlushCont.result : FlushCont → Bool → Bool
  | .ret, waited => waited
  | .delayable wasDelayed, waited => waited || wasDelayed

/-- The two functions that wait until an item is idle. -/
inductive BusyWait where
  | cancelSync
  | cancelDelayableSync
  deriving DecidableEq

/-- `woken` says whether the loop's test is repeated after `os_sem_take` has returned with a
token. The stages of `os_thread_join` and `os_fifo_deinit` within `os_work_queue_stop` are
points of their own; `expiry` is the tick at which a timed wait expires. -/
inductive Pc (Q W : Type) where
  | idle
  | done (r : Ret)
  | submit (p : SubmitPc Q W) (k : SubmitCont)
  | cancelEnter (w : W) (k : CancelCont Q)
  | cancelLock (w : W) (k : CancelCont Q)
  | cancelTrytake (q : Q) (w : W) (flags : WorkFlags) (k : CancelCont Q)
  | cancelNotify (w : W) (flags : WorkFlags) (k : CancelCont Q)
  | cancelSyncEnter (w : W)
  | cancelSyncPending (w : W)
  | busyCheck (op : BusyWait) (w : W) (wasPending woken : Bool)
  | busyTake (op : BusyWait) (w : W) (wasPending : Bool)
  | flushEnter (w : W) (k : FlushCont)
  | flushTarget (w : W) (k : FlushCont)
  | flushCheck (w : W) (target : UInt32) (waited woken : Bool) (k : FlushCont)
  | flushTake (w : W) (target : UInt32) (waited : Bool) (k : FlushCont)
  | scheduleEnter (q : Q) (d : W) (delay : UInt32) (reschedule : Bool)
  | scheduleLock (q : Q) (d : W) (delay : UInt32) (reschedule : Bool)
  | scheduleGiveSubmit (old q : Q) (d : W)
  | scheduleGiveOld (old q : Q)
  | scheduleGive (q : Q)
  | cancelDelayableEnter (d : W) (k : DelayableCont)
  | cancelDelayableLock (d : W) (k : DelayableCont)
  | cancelDelayableGive (q : Q) (d : W) (k : DelayableCont)
  | cancelDelayableSyncPending (d : W)
  | flushDelayableEnter (d : W)
  | flushDelayableLock (d : W)
  | flushDelayableGive (q : Q) (d : W)
  | drainEnter (q : Q) (plug : Bool)
  | drainLock (q : Q) (plug : Bool)
  | drainCheck (q : Q) (plug waited : Bool)
  | drainDelay (q : Q) (plug waited : Bool)
  | unplugEnter (q : Q)
  | unplugLock (q : Q)
  | stopEnter (q : Q) (timeout : UInt32)
  | stopLock (q : Q) (timeout : UInt32)
  | stopGive (q : Q) (timeout : UInt32)
  | joinEnter (q : Q) (timeout : UInt32)
  | joinTake (q : Q) (timeout : UInt32)
  | joinWait (q : Q) (timeout : UInt32) (expiry : Option Nat)
  | joinAbandon (q : Q) (timeout : UInt32)
  | joinReap (q : Q)
  | purgeLock (q : Q)
  | purgeNotify (q : Q) (d : W)
  | deinitLock (q : Q)
  | deinitSem (q : Q)
  | deinitZero (q : Q)
  | stopFinish (q : Q)

/-- The API calls. `os_work_submit`, `os_work_schedule` and `os_work_reschedule` are other names
of `submitToQueue`, `scheduleForQueue` and `rescheduleForQueue`. -/
inductive Op (Q W : Type) where
  | submitToQueue (queue : Option Q) (work : W)
  | cancel (work : W)
  | cancelSync (work : W)
  | flush (work : W)
  | scheduleForQueue (queue : Q) (dwork : W) (delay : UInt32)
  | rescheduleForQueue (queue : Q) (dwork : W) (delay : UInt32)
  | cancelDelayable (dwork : W)
  | cancelDelayableSync (dwork : W)
  | flushDelayable (dwork : W)
  | drain (queue : Q) (plug : Bool)
  | unplug (queue : Q)
  | stop (queue : Q) (timeout : UInt32)

def Op.entry : Op Q W → Pc Q W
  | .submitToQueue queue work => .submit (.enter queue work) .ret
  | .cancel work => .cancelEnter work .ret
  | .cancelSync work => .cancelSyncEnter work
  | .flush work => .flushEnter work .ret
  | .scheduleForQueue queue dwork delay => .scheduleEnter queue dwork delay false
  | .rescheduleForQueue queue dwork delay => .scheduleEnter queue dwork delay true
  | .cancelDelayable dwork => .cancelDelayableEnter dwork .ret
  | .cancelDelayableSync dwork => .cancelDelayableSyncPending dwork
  | .flushDelayable dwork => .flushDelayableEnter dwork
  | .drain queue plug => .drainEnter queue plug
  | .unplug queue => .unplugEnter queue
  | .stop queue timeout => .stopEnter queue timeout

/-! ## Returning to the caller -/

/-- Back from `os_work_submit_to_queue` on item `w`. -/
def SubmitCont.resume (w : W) (result : Int) : SubmitCont → Pc Q W
  | .ret => .done (.int result)
  | .flushDelayable => .flushEnter w (.delayable true)

def DelayableCont.resume (w : W) (result : Int) : DelayableCont → Pc Q W
  | .ret => .done (.int result)
  | .sync wasPending => .busyCheck .cancelDelayableSync w wasPending false

/-- Back from `os_work_cancel` on item `w`. -/
def CancelCont.resume (w : W) (result : Int) : CancelCont Q → Pc Q W
  | .ret => .done (.int result)
  | .sync wasPending => .busyCheck .cancelSync w wasPending false
  | .delayable _ k => k.resume w result

/-! ## Steps -/

variable {Q W : Type} [DecidableEq Q] [DecidableEq W]

/-- `os_work_busy_get`. -/
def osWorkBusyGet (m : Mem Q W) (w : W) : WorkFlags :=
  if (m.work w).magic = OS_WORK_MAGIC then (m.work w).flags else .none

def SubmitPc.step (caller : Option Q) (m : Mem Q W) :
    SubmitPc Q W → Mem Q W × (SubmitPc Q W ⊕ Int)
  | .enter queue w =>
    let work := m.work w
    if work.magic != OS_WORK_MAGIC || !work.handler || !work.syncInitialized then
      (m, .inr (-EINVAL))
    else
      match queue.or work.queue with
      | none => (m, .inr (-EINVAL))
      | some q => if (m.queue q).started then (m, .inl (.lock q w)) else (m, .inr (-ENODEV))
  | .lock q w =>
    let (m, result) := osWorkSubmitToQueueCritical caller m q w
    (m, if 0 < result then .inl (.give q w result) else .inr result)
  | .give q _ result => (m.giveItems q, .inr result)

def SubmitPc.item : SubmitPc Q W → W
  | .enter _ w | .lock _ w | .give _ w _ => w

/-- The next step of a call; `none` while it waits. A blocking `os_sem_take` or
`os_thread_join` fails in an interrupt handler. -/
def callStep (c : Ctx Q T) (m : Mem Q W) : Pc Q W → Option (Mem Q W × Pc Q W)
  | .idle | .done _ => none
  -- os_work_submit_to_queue
  | .submit p k =>
    let (m, next) := p.step c.caller m
    some (m, match next with
      | .inl p' => .submit p' k
      | .inr result => k.resume p.item result)
  -- os_work_cancel
  | .cancelEnter w k =>
    if (m.work w).magic != OS_WORK_MAGIC || !(m.work w).syncInitialized then
      some (m, k.resume w (-EINVAL))
    else some (m, .cancelLock w k)
  | .cancelLock w k =>
    let (m, dequeued, flags) := osWorkCancelCritical m w
    some (m, match dequeued with
      | some q => .cancelTrytake q w flags k
      | none => .cancelNotify w flags k)
  | .cancelTrytake q w flags k => some (m.trytakeItems q, .cancelNotify w flags k)
  | .cancelNotify w flags k => some (m.osWorkNotify w, k.resume w flags.bits.toNat)
  -- os_work_cancel_sync, and the loop it shares with os_work_cancel_delayable_sync
  | .cancelSyncEnter w =>
    if (m.work w).magic != OS_WORK_MAGIC || !(m.work w).syncInitialized then
      some (m, .done (.bool false))
    else some (m, .cancelSyncPending w)
  | .cancelSyncPending w => some (m, .cancelEnter w (.sync ((m.work w).flags ≠ .none)))
  | .busyCheck op w wasPending _ =>
    if osWorkBusyGet m w = .none then some (m, .done (.bool wasPending))
    else some (m, .busyTake op w wasPending)
  | .busyTake op w wasPending =>
    if c.inIsr || !(m.work w).sync.handle then some (m, .busyCheck op w wasPending false)
    else (m.takeSync? w).map fun m => (m, .busyCheck op w wasPending true)
  -- os_work_flush
  | .flushEnter w k =>
    if (m.work w).magic != OS_WORK_MAGIC || !(m.work w).syncInitialized then
      some (m, .done (.bool (k.result false)))
    else some (m, .flushTarget w k)
  | .flushTarget w k =>
    let target := (m.work w).submissionId
    some (m, .flushCheck w target ((m.work w).completionId != target) false k)
  | .flushCheck w target waited _ k =>
    if (m.work w).completionId = target then some (m, .done (.bool (k.result waited)))
    else some (m, .flushTake w target waited k)
  | .flushTake w target waited k =>
    if c.inIsr || !(m.work w).sync.handle then some (m, .flushCheck w target waited false k)
    else (m.takeSync? w).map fun m => (m, .flushCheck w target waited true k)
  -- os_work_schedule_common
  | .scheduleEnter q d delay reschedule =>
    if (m.work d).magic != OS_WORK_MAGIC || INT32_MAX < delay then
      some (m, .done (.int (-EINVAL)))
    else if !(m.queue q).started then some (m, .done (.int (-ENODEV)))
    else some (m, .scheduleLock q d delay reschedule)
  | .scheduleLock q d delay reschedule =>
    let (m, next) := osWorkScheduleCritical c.caller m q d delay reschedule
    some (m, match next with
      | .ret result => .done (.int result)
      | .submit (some old) => .scheduleGiveSubmit old q d
      | .submit none => .submit (.enter (some q) d) .ret
      | .arm (some old) => if old = q then .scheduleGive q else .scheduleGiveOld old q
      | .arm none => .scheduleGive q)
  | .scheduleGiveSubmit old q d => some (m.giveItems old, .submit (.enter (some q) d) .ret)
  | .scheduleGiveOld old q => some (m.giveItems old, .scheduleGive q)
  | .scheduleGive q => some (m.giveItems q, .done (.int 1))
  -- os_work_cancel_delayable and os_work_cancel_delayable_sync
  | .cancelDelayableEnter d k =>
    if (m.work d).magic != OS_WORK_MAGIC then some (m, k.resume d (-EINVAL))
    else some (m, .cancelDelayableLock d k)
  | .cancelDelayableLock d k =>
    let (m, delayed) := osWorkCancelDelayableCritical m d .canceled
    some (m, match delayed with
      | some (some q) => .cancelDelayableGive q d k
      | _ => .cancelEnter d (.delayable none k))
  | .cancelDelayableGive q d k => some (m.giveItems q, .cancelEnter d (.delayable (some q) k))
  | .cancelDelayableSyncPending d =>
    some (m, .cancelDelayableEnter d (.sync (osWorkBusyGet m d ≠ .none)))
  -- os_work_flush_delayable
  | .flushDelayableEnter d =>
    if (m.work d).magic != OS_WORK_MAGIC then some (m, .done (.bool false))
    else some (m, .flushDelayableLock d)
  | .flushDelayableLock d =>
    let (m, delayed) := osWorkCancelDelayableCritical m d .flushed
    some (m, match delayed with
      | some (some q) => .flushDelayableGive q d
      | some none => .submit (.enter none d) .flushDelayable
      | none => .flushEnter d (.delayable false))
  | .flushDelayableGive q d =>
    some (m.giveItems q, .submit (.enter (some q) d) .flushDelayable)
  -- os_work_queue_drain and os_work_queue_unplug
  | .drainEnter q plug =>
    if !(m.queue q).started then some (m, .done (.int (-EINVAL)))
    else if c.inIsr then some (m, .done (.int (-EWOULDBLOCK)))
    else some (m, .drainLock q plug)
  | .drainLock q plug =>
    let (m, waited) := osWorkQueueDrainBegin m q plug
    some (m, .drainCheck q plug waited)
  | .drainCheck q plug waited =>
    let (m, drained) := osWorkQueueDrainCheck m q
    some (m, if drained then .done (.int (if waited then 1 else 0))
      else .drainDelay q plug waited)
  | .drainDelay q plug waited => some (m, .drainCheck q plug waited)
  | .unplugEnter q =>
    if (m.queue q).started then some (m, .unplugLock q) else some (m, .done (.int (-EINVAL)))
  | .unplugLock q =>
    let (m, result) := osWorkQueueUnplugCritical m q
    some (m, .done (.int result))
  -- os_work_queue_stop
  | .stopEnter q timeout =>
    if !(m.queue q).started then some (m, .done (.int (-EALREADY)))
    else if c.caller = some q then some (m, .done (.int (-EDEADLK)))
    else some (m, .stopLock q timeout)
  | .stopLock q timeout =>
    let (m, queued) := osWorkQueueStopCritical m q
    some (m, if queued then .stopGive q timeout else .done (.int (-EBUSY)))
  | .stopGive q timeout => some (m.giveItems q, .joinEnter q timeout)
  | .joinEnter q timeout =>
    if c.inIsr then some (m, .done (.int (-EWOULDBLOCK)))
    else
      match (m.queue q).thread.joinBegin with
      | (t, none) => some (m.setThread q t, .joinTake q timeout)
      | (t, some result) =>
        if result = 0 then some (m.setThread q t, .purgeLock q)
        else some ((m.setThread q t).recordJoin q result, .done (.int result))
  | .joinTake q timeout =>
    match (m.queue q).thread.joinTake with
    | some t => some (m.setThread q t, .joinReap q)
    | none =>
      if timeout = 0 then some (m, .joinAbandon q timeout)
      else some (m, .joinWait q timeout (waitExpiry m.tick timeout))
  | .joinWait q _ _ => (m.queue q).thread.joinTake.map fun t => (m.setThread q t, .joinReap q)
  | .joinAbandon q timeout =>
    let result := OsThread.joinTimeoutResult timeout
    some ((m.setThread q (m.queue q).thread.joinAbandon).recordJoin q result, .done (.int result))
  | .joinReap q => some (m.setThread q (m.queue q).thread.reap, .purgeLock q)
  | .purgeLock q =>
    let (m, head) := osWorkQueueStopPurge m q
    some (m, match head with
      | some d => .purgeNotify q d
      | none => .deinitLock q)
  | .purgeNotify q d => some (m.osWorkNotify d, .purgeLock q)
  | .deinitLock q =>
    if !(m.queue q).fifo.initialized then some (m, .done (.int (-EINVAL)))
    else
      match osFifoDeinitCheck (m.queue q).fifo with
      | some result => some (m, .done (.int result))
      | none => some (m, .deinitSem q)
  | .deinitSem q =>
    if !(m.queue q).fifo.items.handle then some (m, .done (.int (-EINVAL)))
    else if c.inIsr then some (m, .done (.int (-EWOULDBLOCK)))
    else
      some (m.setQueue q
        { m.queue q with
          fifo := { (m.queue q).fifo with items := (m.queue q).fifo.items.deinit } },
        .deinitZero q)
  | .deinitZero q =>
    some (m.setQueue q { m.queue q with fifo := osFifoZero (m.queue q).fifo }, .stopFinish q)
  | .stopFinish q =>
    some (m.setQueue q { m.queue q with started := false }, .done (.int 0))

/-- A timed wait of a call expires; `none` where the call is not in a timed wait, or the wait
has not run its ticks. -/
def callExpire (m : Mem Q W) : Pc Q W → Option (Pc Q W)
  | .joinWait q timeout (some expiry) =>
    if expiry ≤ m.tick then some (.joinAbandon q timeout) else none
  | _ => none

end HazelOsal
