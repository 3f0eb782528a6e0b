import HazelOsal.WorkQueue.State

/-! # The critical sections of `work_queue.c`

One definition for each `os_enter_critical` … `os_exit_critical` block. `caller` is the queue
whose embedded thread `os_get_current_thread` returns, if it returns that of a worker. -/

namespace HazelOsal

variable {Q W : Type} [DecidableEq Q] [DecidableEq W]

/-! ## `os_work_submit_to_queue` -/

/-- Submission `submitted w + 1` of `w` is accepted by `q` under identifier `id`. -/
def History.accept (h : History Q W) (q : Q) (w : W) (id : UInt32) : History Q W :=
  let k := h.submitted w + 1
  { h with
    submitted := Function.update h.submitted w k
    ids := Function.update h.ids w (Function.update (h.ids w) k id)
    accepted := Function.update h.accepted q (h.accepted q ++ [(w, k)]) }

/-- The last part of the critical section: the item goes to the end of `fifo.list`. -/
def osWorkEnqueue (m : Mem Q W) (q : Q) (w : W) : Mem Q W :=
  let queue := m.queue q
  let work := m.work w
  let id := work.submissionId + 1
  let m := m.setWork w
    { work with
      submissionId := id
      queue := some q
      flags := { work.flags with queued := true }
      nodeQueued := true }
  let m := m.setQueue q
    { queue with
      fifo :=
        { queue.fifo with
          list := queue.fifo.list ++ [.work w]
          count := queue.fifo.count + 1 } }
  { m with hist := m.hist.accept q w id }

/-- The memory afterwards and the result; it is positive exactly when the item was queued. -/
def osWorkSubmitToQueueCritical (caller : Option Q) (m : Mem Q W) (q : Q) (w : W) :
    Mem Q W × Int :=
  let queue := m.queue q
  let work := m.work w
  if queue.stopping || ((queue.draining || queue.plugged) && caller != some q) ||
      work.flags.canceling then
    (m, -EBUSY)
  else if work.flags.queued then
    (m, if work.queue = some q then 0 else -EBUSY)
  else if work.flags.running && work.queue != some q then
    (m, -EBUSY)
  else if queue.fifo.count ≥ UINT16_MAX then
    (m, -ENOSPC)
  else
    (osWorkEnqueue m q w, if work.flags.running then 2 else 1)

/-! ## `os_work_cancel` -/

/-- The branch that takes a queued item off its list. -/
def osWorkCancelDequeue (m : Mem Q W) (w : W) (q : Q) : Mem Q W :=
  let m := m.unlinkNode w
  let queue := m.queue q
  let m := m.setQueue q { queue with fifo := { queue.fifo with count := queue.fifo.count - 1 } }
  let work := m.work w
  let m := m.setWork w
    { work with nodeQueued := false, flags := { work.flags with queued := false } }
  { m with hist := { m.hist with canceled := m.hist.canceled ++ [(w, m.hist.submitted w)] } }

/-- The branch on `OS_WORK_RUNNING`. -/
def osWorkCancelMark (m : Mem Q W) (w : W) : Mem Q W :=
  let work := m.work w
  if work.flags.running then
    m.setFlags w { work.flags with canceling := true }
  else
    m.setWork w
      { work with
        completionId := work.submissionId
        flags := { work.flags with canceling := false } }

/-- The memory afterwards, the queue a queued item was taken off, and the flags left. -/
def osWorkCancelCritical (m : Mem Q W) (w : W) : Mem Q W × Option Q × WorkFlags :=
  let dequeued := if (m.work w).flags.queued then (m.work w).queue else none
  let m :=
    match dequeued with
    | some q => osWorkCancelDequeue m w q
    | none => m
  let m := osWorkCancelMark m w
  (m, dequeued, (m.work w).flags)

/-! ## Delayed items -/

/-- `os_work_deadline_remaining`. -/
def osWorkDeadlineRemaining (deadline now : UInt32) : UInt32 := SerialTicks.ahead deadline now

/-- `sys_dlist_remove(&dwork->delay_node)` and the clearing of `OS_WORK_DELAYED`. -/
def clearDelayed (m : Mem Q W) (d : W) : Mem Q W :=
  let m := m.unlinkDelay d
  m.setFlags d { (m.work d).flags with delayed := false }

/-- The same where it decides what becomes of the current schedule of `d`. -/
def undelay (m : Mem Q W) (d : W) (f : Fate) : Mem Q W :=
  (clearDelayed m d).settle d (m.hist.scheduled d) f

/-- The last part of the critical section of `os_work_schedule_common`: the item goes to the
end of the delayed list. -/
def osWorkArm (m : Mem Q W) (q : Q) (d : W) (delay : UInt32) : Mem Q W :=
  let j := m.hist.scheduled d + 1
  let m := m.setDwork d { queue := some q, deadline := osTickGet m + delay }
  let m := m.setFlags d { (m.work d).flags with delayed := true }
  let m := m.setQueue q { m.queue q with delayed := (m.queue q).delayed ++ [d] }
  { m with
    hist :=
      { m.hist with
        scheduled := Function.update m.hist.scheduled d j
        due := Function.update m.hist.due d
          (Function.update (m.hist.due d) j (m.tick + delay.toNat)) } }

/-- How `os_work_schedule_common` goes on after its critical section; `old` is `old_queue`. -/
inductive ScheduleNext (Q : Type) where
  | ret (result : Int)
  | submit (old : Option Q)
  | arm (old : Option Q)

def osWorkScheduleCritical (caller : Option Q) (m : Mem Q W) (q : Q) (d : W) (delay : UInt32)
    (reschedule : Bool) : Mem Q W × ScheduleNext Q :=
  let queue := m.queue q
  let flags := (m.work d).flags
  if flags.canceling || queue.stopping ||
      ((queue.draining || queue.plugged) && caller != some q) then
    (m, .ret (-EBUSY))
  else if !reschedule && (flags.delayed || flags.queued) then
    (m, .ret 0)
  else
    let old := if flags.delayed then (m.dwork d).queue else none
    let m := if flags.delayed then undelay m d .replaced else m
    if delay = 0 then (m, .submit old) else (osWorkArm m q d delay, .arm old)

/-- The critical section of `os_work_cancel_delayable` and, with another fate, that of
`os_work_flush_delayable`: whether the item was delayed, and on which queue. -/
def osWorkCancelDelayableCritical (m : Mem Q W) (d : W) (f : Fate) :
    Mem Q W × Option (Option Q) :=
  if (m.work d).flags.delayed then (undelay m d f, some (m.dwork d).queue) else (m, none)

/-- The `SYS_DLIST_FOR_EACH_CONTAINER` loop of `os_work_promote_delayed`: the first due item, or
the shortest remaining time. -/
def promoteScan (deadline : W → UInt32) (now : UInt32) : List W → UInt32 → Option W × UInt32
  | [], timeout => (none, timeout)
  | d :: ds, timeout =>
    let remaining := osWorkDeadlineRemaining (deadline d) now
    if remaining = 0 then (some d, timeout)
    else
      promoteScan deadline now ds
        (if timeout = OS_WAIT_FOREVER ∨ remaining < timeout then remaining else timeout)

/-- How `os_work_promote_delayed` goes on after its critical section. -/
inductive PromoteNext (W : Type) where
  | ret (timeout : UInt32)
  | submit (due : W)
  | notify (due : W)

def osWorkPromoteDelayedCritical (m : Mem Q W) (q : Q) (now : UInt32) :
    Mem Q W × PromoteNext W :=
  match promoteScan (fun d => (m.dwork d).deadline) now (m.queue q).delayed OS_WAIT_FOREVER with
  | (none, timeout) => (m, .ret timeout)
  | (some due, _) =>
    if (m.queue q).plugged || (m.queue q).stopping then (undelay m due .blocked, .notify due)
    else (clearDelayed m due, .submit due)

/-! ## `os_work_queue_entry` -/

/-- The node at the head of `fifo.list`, if there is one. -/
inductive Popped (W : Type) where
  | empty
  | stop
  | run (w : W)

/-- The queue once `sys_dlist_get` has left `rest` on `fifo.list`. -/
def popped (queue : OsWorkQueue W) (rest : List (FifoNode W)) : OsWorkQueue W :=
  { queue with fifo := { queue.fifo with list := rest, count := queue.fifo.count - 1 } }

/-- The part of the critical section for an item `w`. -/
def osWorkQueueEntryStart (m : Mem Q W) (q : Q) (w : W) (rest : List (FifoNode W)) : Mem Q W :=
  let m := m.setQueue q { popped (m.queue q) rest with current := some w }
  let work := m.work w
  let m := m.setWork w
    { work with
      nodeQueued := false
      flags := { work.flags with queued := false, running := true }
      runningId := work.submissionId }
  let k := m.hist.submitted w
  { m with
    hist :=
      { m.hist with
        running := Function.update m.hist.running w k
        started := Function.update m.hist.started q (m.hist.started q ++ [(w, k)]) } }

/-- The critical section that takes the next node. -/
def osWorkQueueEntryPop (m : Mem Q W) (q : Q) : Mem Q W × Popped W :=
  match (m.queue q).fifo.list with
  | [] => (m, .empty)
  | .stop :: rest => (m.setQueue q { popped (m.queue q) rest with stopNodeQueued := false }, .stop)
  | .work w :: rest => (osWorkQueueEntryStart m q w rest, .run w)

/-- The critical section after the handler has returned. -/
def osWorkQueueEntryComplete (m : Mem Q W) (q : Q) (w : W) : Mem Q W :=
  let m := m.setQueue q { m.queue q with current := none }
  let work := m.work w
  let m := m.setWork w
    { work with
      completionId := work.runningId
      flags := { work.flags with running := false, canceling := false } }
  { m with hist := { m.hist with finished := m.hist.finished ++ [(w, m.hist.running w)] } }

/-! ## Drain, unplug and stop -/

/-- The first critical section of `os_work_queue_drain`, and `waited`. -/
def osWorkQueueDrainBegin (m : Mem Q W) (q : Q) (plug : Bool) : Mem Q W × Bool :=
  let queue := m.queue q
  (m.setQueue q { queue with draining := true, plugged := queue.plugged || plug },
    queue.fifo.count != 0 || queue.current.isSome)

/-- The critical section of the drain loop, and `drained`. -/
def osWorkQueueDrainCheck (m : Mem Q W) (q : Q) : Mem Q W × Bool :=
  let queue := m.queue q
  if queue.fifo.count == 0 && queue.current.isNone then
    (m.setQueue q { queue with draining := false }, true)
  else (m, false)

/-- The critical section of `os_work_queue_unplug`, and the result. -/
def osWorkQueueUnplugCritical (m : Mem Q W) (q : Q) : Mem Q W × Int :=
  if (m.queue q).plugged then (m.setQueue q { m.queue q with plugged := false }, 0)
  else (m, -EALREADY)

/-- The marking of a queue that is to stop: `stopping`, and the stop marker on `fifo.list`. -/
def osWorkQueueMarkStop (m : Mem Q W) (q : Q) : Mem Q W :=
  let queue := m.queue q
  m.setQueue q
    { queue with
      stopping := true
      stopNodeQueued := true
      fifo :=
        { queue.fifo with
          list := queue.fifo.list ++ [.stop]
          count := queue.fifo.count + 1 } }

/-- The first critical section of `os_work_queue_stop`: whether the marker was queued. -/
def osWorkQueueStopCritical (m : Mem Q W) (q : Q) : Mem Q W × Bool :=
  let queue := m.queue q
  if !queue.plugged || queue.fifo.count != 0 || queue.current.isSome then (m, false)
  else (osWorkQueueMarkStop m q, true)

/-- The critical section of the purge loop of `os_work_queue_stop`: the item taken off. -/
def osWorkQueueStopPurge (m : Mem Q W) (q : Q) : Mem Q W × Option W :=
  match (m.queue q).delayed with
  | [] => (m, none)
  | d :: _ => (undelay m d .stopped, some d)

end HazelOsal
