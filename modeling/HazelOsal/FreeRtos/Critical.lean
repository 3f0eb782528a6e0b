import HazelOsal.FreeRtos.State
import Mathlib.Logic.Function.Iterate

/-! # The critical sections of `waitq.c`, `mutex.c` and `thread.c`

One definition for each `os_enter_critical` … `os_exit_critical` block of the FreeRTOS backend,
and for the `_locked` functions that these call. -/

namespace HazelOsal.FreeRtos

variable {T M Q : Type} [DecidableEq T] [DecidableEq M] [DecidableEq Q]

/-- `os_thread_get_priority`. -/
def osThreadGetPriority (m : Mem T M Q) (t : T) : Int :=
  if (m.thread t).handle then m.uxPriority t else -EINVAL

/-! ## Wait queues -/

/-- `os_waitq_notify_thread_locked`. -/
def osWaitqNotifyThreadLocked (m : Mem T M Q) (t : T) (reason : UInt32) : Mem T M Q :=
  if (m.thread t).handle then m.xTaskNotify t reason else m

/-- `os_waitq_insert_priority_locked`: before the first thread of lower priority. -/
def osWaitqInsertPriorityLocked (m : Mem T M Q) (q : WaitQ M Q) (t : T) : Mem T M Q :=
  m.setQueue q ((m.queue q).orderedInsert
    (fun a b => osThreadGetPriority m b < osThreadGetPriority m a) t)

/-- The first critical section of `os_waitq_block`. -/
def osWaitqBlockEnqueue (m : Mem T M Q) (t : T) (q : Q) : Mem T M Q :=
  let m := (m.forget t).setThread t
    { m.thread t with waitQ := some (.plain q), waitResult := 0, state := .pending }
  osWaitqInsertPriorityLocked m (.plain q) t

/-- The branch of the second critical section for a thread that is still queued. -/
def osWaitqBlockUnlink (m : Mem T M Q) (t : T) : Mem T M Q :=
  (m.unlinkWait t).setThread t { m.thread t with waitQ := none, state := .ready }

/-- The second critical section of `os_waitq_block`, and the value it returns. -/
def osWaitqBlockFinish (m : Mem T M Q) (t : T) (notified : Bool) (notify : UInt32) :
    Mem T M Q × Int :=
  if (m.thread t).waitQ ≠ none then (osWaitqBlockUnlink m t, -ETIMEDOUT)
  else
    (m.setThread t { m.thread t with waitResult := notify, state := .ready },
      if notified then notify.toInt32.toInt else -ETIMEDOUT)

/-- The critical section of `os_waitq_wake_one`, and one round of the loop in that of
`os_waitq_wake_all`. -/
def osWaitqWakeHead (m : Mem T M Q) (q : Q) (reason : UInt32) : Mem T M Q :=
  match m.queue (.plain q) with
  | [] => m
  | t :: rest =>
    let m := (m.setQueue (.plain q) rest).setThread t
      { m.thread t with waitQ := none, waitResult := reason, state := .ready }
    (osWaitqNotifyThreadLocked m t reason).remove t (.wake q reason)

/-- The critical section of `os_waitq_wake_all`; the loop ends when the queue is empty. -/
def osWaitqWakeAll (m : Mem T M Q) (q : Q) (reason : UInt32) : Mem T M Q :=
  (fun m => osWaitqWakeHead m q reason)^[(m.queue (.plain q)).length] m

/-! ## Priority inheritance -/

/-- `OS_PI_MAX_CHAIN_DEPTH`. -/
def OS_PI_MAX_CHAIN_DEPTH : Nat := 16

/-- `os_mutex_compute_priority_locked`. -/
def osMutexComputePriorityLocked (m : Mem T M Q) (t : T) : Int :=
  if !(m.thread t).handle then -EINVAL
  else
    (m.thread t).ownedMutexes.foldl
      (fun effective owned =>
        (m.queue (.mutex owned)).foldl
          (fun effective waiter =>
            if osThreadGetPriority m waiter > effective then osThreadGetPriority m waiter
            else effective)
          effective)
      (m.thread t).basePriority

/-- `vTaskPrioritySet`. -/
def vTaskPrioritySet (port : Port) (m : Mem T M Q) (t : T) (priority : Int) : Mem T M Q :=
  { m with uxPriority := Function.update m.uxPriority t (port.nativePriority priority) }

/-- The first half of a round of the loop in `os_mutex_update_pi_chain_locked`. -/
def osMutexUpdatePriority (port : Port) (m : Mem T M Q) (t : T) : Mem T M Q :=
  let effective := osMutexComputePriorityLocked m t
  if 0 ≤ effective ∧ osThreadGetPriority m t ≠ effective then vTaskPrioritySet port m t effective
  else m

/-- The second half, for a thread that waits on `upstream`. -/
def osMutexRequeue (m : Mem T M Q) (t : T) (upstream : M) : Mem T M Q :=
  osWaitqInsertPriorityLocked (m.unlinkWait t) (.mutex upstream) t

/-- The loop of `os_mutex_update_pi_chain_locked` with `rounds` rounds left. -/
def osMutexUpdatePiChainFrom (port : Port) : Nat → List T → Mem T M Q → Option T → Mem T M Q
  | 0, _, m, _ => m
  | _ + 1, _, m, none => m
  | rounds + 1, visited, m, some t =>
    if t ∈ visited then m
    else
      let m := osMutexUpdatePriority port m t
      match (m.thread t).waitingMutex with
      | none => m
      | some upstream =>
        osMutexUpdatePiChainFrom port rounds (t :: visited) (osMutexRequeue m t upstream)
          (m.mutex upstream).owner

/-- `os_mutex_update_pi_chain_locked`. -/
def osMutexUpdatePiChainLocked (port : Port) (m : Mem T M Q) (t : Option T) : Mem T M Q :=
  osMutexUpdatePiChainFrom port OS_PI_MAX_CHAIN_DEPTH [] m t

/-- The loop of `os_mutex_would_deadlock_locked` with `rounds` rounds left. -/
def osMutexWouldDeadlockFrom (m : Mem T M Q) (t : T) : Nat → Option T → Bool
  | 0, owner => owner.isSome
  | _ + 1, none => false
  | rounds + 1, some owner =>
    if owner = t then true
    else
      match (m.thread owner).waitingMutex with
      | none => false
      | some mu => osMutexWouldDeadlockFrom m t rounds (m.mutex mu).owner

/-- `os_mutex_would_deadlock_locked`. -/
def osMutexWouldDeadlockLocked (m : Mem T M Q) (t : T) (mu : M) : Bool :=
  osMutexWouldDeadlockFrom m t OS_PI_MAX_CHAIN_DEPTH (m.mutex mu).owner

/-! ## `os_mutex_lock` -/

/-- The branch that acquires a free mutex. -/
def osMutexAcquire (m : Mem T M Q) (t : T) (mu : M) : Mem T M Q :=
  let m := m.setMutex mu { m.mutex mu with owner := some t, lockCount := 1 }
  let m := m.setThread t
    { m.thread t with ownedMutexes := (m.thread t).ownedMutexes ++ [mu] }
  m.recordLock t mu

/-- The branch of a recursive lock. -/
def osMutexRecurse (m : Mem T M Q) (t : T) (mu : M) : Mem T M Q :=
  (m.setMutex mu { m.mutex mu with lockCount := (m.mutex mu).lockCount + 1 }).recordLock t mu

/-- The branch that queues the caller, up to the call of `os_mutex_update_pi_chain_locked`. -/
def osMutexLink (m : Mem T M Q) (t : T) (mu : M) : Mem T M Q :=
  let m := m.setThread t
    { m.thread t with
      waitQ := some (.mutex mu)
      waitingMutex := some mu
      waitResult := 0
      state := .pending }
  osWaitqInsertPriorityLocked m (.mutex mu) t

/-- The branch that queues the caller. -/
def osMutexEnqueue (port : Port) (m : Mem T M Q) (t : T) (mu : M) : Mem T M Q :=
  osMutexUpdatePiChainLocked port (osMutexLink m t mu) (m.mutex mu).owner

/-- How `os_mutex_lock` goes on after the first critical section of a round. -/
inductive LockNext where
  | ret (result : Int)
  | wait (remaining : UInt32)

/-- The first critical section of a round of the loop in `os_mutex_lock`; `start` is the true tick
of which the code keeps a sample. -/
def osMutexLockTry (port : Port) (m : Mem T M Q) (t : T) (mu : M) (timeout : UInt32)
    (start : Nat) : Mem T M Q × LockNext :=
  let m := m.forget t
  let elapsed := port.osTickGet m.tick - port.osTickGet start
  if (m.mutex mu).owner = none then (osMutexAcquire m t mu, .ret 0)
  else if (m.mutex mu).owner = some t then (osMutexRecurse m t mu, .ret 0)
  else if timeout = 0 then (m, .ret (-EBUSY))
  else if osMutexWouldDeadlockLocked m t mu then (m, .ret (-EDEADLK))
  else if timeout = OS_WAIT_FOREVER then (osMutexEnqueue port m t mu, .wait OS_WAIT_FOREVER)
  else if timeout ≤ elapsed then (m, .ret (-ETIMEDOUT))
  else (osMutexEnqueue port m t mu, .wait (timeout - elapsed))

/-- The branch of the second critical section for a thread that is still queued, up to the call
of `os_mutex_update_pi_chain_locked`. -/
def osMutexUnlink (m : Mem T M Q) (t : T) : Mem T M Q :=
  (m.unlinkWait t).setThread t
    { m.thread t with waitQ := none, waitingMutex := none, state := .ready }

/-- The branch of the second critical section for a thread that is still queued. -/
def osMutexAbandon (port : Port) (m : Mem T M Q) (t : T) (mu : M) : Mem T M Q :=
  osMutexUpdatePiChainLocked port (osMutexUnlink m t) (m.mutex mu).owner

/-- The second critical section of a round: the value returned, or `none` for another round. -/
def osMutexLockFinish (port : Port) (m : Mem T M Q) (t : T) (mu : M) (notified : Bool) :
    Mem T M Q × Option Int :=
  if (m.thread t).waitQ ≠ none then
    (osMutexAbandon port m t mu, some (if notified then -EAGAIN else -ETIMEDOUT))
  else
    (m.setThread t { m.thread t with state := .ready, waitingMutex := none }, none)

/-! ## `os_mutex_unlock` and `os_mutex_deinit` -/

/-- The head of the wait queue is removed and notified. -/
def osMutexWakeHead (m : Mem T M Q) (mu : M) : Mem T M Q :=
  match m.queue (.mutex mu) with
  | [] => m
  | t :: rest =>
    let m := (m.setQueue (.mutex mu) rest).setThread t
      { m.thread t with
        waitQ := none
        waitingMutex := none
        waitResult := 0
        state := .ready }
    (osWaitqNotifyThreadLocked m t 0).remove t (.unlock mu)

/-- The mutex gets free. -/
def osMutexDisown (m : Mem T M Q) (mu : M) : Mem T M Q :=
  (m.unlinkOwner mu).setMutex mu { m.mutex mu with owner := none, lockCount := 0 }

/-- The branch that releases the mutex. -/
def osMutexRelease (port : Port) (m : Mem T M Q) (t : T) (mu : M) : Mem T M Q :=
  osMutexUpdatePiChainLocked port (osMutexWakeHead (osMutexDisown m mu) mu) (some t)

/-- The critical section of `os_mutex_unlock`. -/
def osMutexUnlockCritical (port : Port) (m : Mem T M Q) (t : T) (mu : M) : Mem T M Q × Int :=
  let mutex := m.mutex mu
  if mutex.owner ≠ some t then (m, -EPERM)
  else if mutex.lockCount = 0 then (m, -EINVAL)
  else if mutex.lockCount - 1 > 0 then
    ((m.setMutex mu { mutex with lockCount := mutex.lockCount - 1 }).recordUnlock t mu, 0)
  else ((osMutexRelease port m t mu).recordUnlock t mu, 0)

/-- The critical section of `os_mutex_deinit`: the error, if there is one. -/
def osMutexDeinitCritical (m : Mem T M Q) (mu : M) : Mem T M Q × Option Int :=
  if (m.mutex mu).owner ≠ none ∨ m.queue (.mutex mu) ≠ [] then (m, some (-EBUSY))
  else (m.setMutex mu { m.mutex mu with initialized := false }, none)

/-- The `memset` at the end of `os_mutex_deinit`. -/
def osMutexDeinitZero (m : Mem T M Q) (mu : M) : Mem T M Q :=
  (m.setMutex mu (osMutexZero false)).setQueue (.mutex mu) []

/-! ## `os_thread_set_priority` and `os_thread_abort` -/

/-- The critical section of `os_thread_set_priority`. -/
def osThreadSetPriorityCritical (port : Port) (m : Mem T M Q) (t : T) (priority : Int) :
    Mem T M Q :=
  let m := m.setThread t { m.thread t with basePriority := priority }
  let m := osMutexUpdatePiChainLocked port m (some t)
  match (m.thread t).waitQ, (m.thread t).waitingMutex with
  | some q, none => osWaitqInsertPriorityLocked (m.unlinkWait t) q t
  | _, _ => m

/-- The branch of `os_thread_abort` for a thread that is on a wait queue, up to the call of
`os_mutex_update_pi_chain_locked`. -/
def osThreadAbortUnlink (m : Mem T M Q) (t : T) : Mem T M Q :=
  ((m.unlinkWait t).setThread t
    { m.thread t with waitQ := none, waitingMutex := none }).remove t .abort

/-- The branch of `os_thread_abort` for a thread that is on a wait queue. -/
def osThreadAbortDequeue (port : Port) (m : Mem T M Q) (t : T) : Mem T M Q :=
  osMutexUpdatePiChainLocked port (osThreadAbortUnlink m t)
    ((m.thread t).waitingMutex.bind fun mu => (m.mutex mu).owner)

/-- The last part of the critical section of `os_thread_abort`. -/
def osThreadAbortMark (m : Mem T M Q) (t : T) : Mem T M Q :=
  m.setThread t
    { m.thread t with
      cancelRequested := true
      aborted := true
      completed := true
      state := .terminated }

/-- The critical section of `os_thread_abort`: the error, if there is one. -/
def osThreadAbortCritical (port : Port) (m : Mem T M Q) (t : T) : Mem T M Q × Option Int :=
  if (m.thread t).completed then (m, some (-EALREADY))
  else if (m.thread t).ownedMutexes ≠ [] then (m, some (-EBUSY))
  else if (m.thread t).waitQ ≠ none then
    (osThreadAbortMark (osThreadAbortDequeue port m t) t, none)
  else (osThreadAbortMark m t, none)

end HazelOsal.FreeRtos
