import HazelOsal.Kernel.Thread
import HazelOsal.Library.SerialTicks
import Mathlib.Data.List.Count
import Mathlib.Logic.Function.Basic

/-! # Data model of the work queue

Work items are named by `W` and queues by `Q`. Every item is modelled as the
`struct os_work_delayable` that embeds it: `Mem.work w` is its `struct os_work` and
`Mem.dwork w` the fields that follow it. An immediate item is one on which no delayable
operation is ever called. The null and pointer checks on items are left out with the pointers;
a null queue stays, since `os_work_submit_to_queue` gives it a meaning.

Ticks and timeouts are those of the OSAL API: `os_tick_get` returns 32 bits, and a wait lasts as
many ticks as it is given. A port whose native ticks have 16 bits does neither.

`History` is the record that specifications read: which submissions each queue accepted and
started, and what became of each accepted schedule. No modelled function reads it. -/

namespace HazelOsal

/-- `OS_WORK_MAGIC`. -/
def OS_WORK_MAGIC : UInt32 := 0x6f73776b

/-- The bits of `enum os_work_state` in `work->flags`. -/
structure WorkFlags where
  running : Bool
  canceling : Bool
  queued : Bool
  delayed : Bool
  deriving DecidableEq

namespace WorkFlags

def none : WorkFlags := ⟨false, false, false, false⟩

/-- The `uint32_t` that the flags stand for. -/
def bits (f : WorkFlags) : UInt32 :=
  (if f.running then 1 else 0) ||| (if f.canceling then 2 else 0) |||
    (if f.queued then 4 else 0) ||| (if f.delayed then 8 else 0)

theorem bits_eq_zero (f : WorkFlags) : f.bits = 0 ↔ f = none := by
  obtain ⟨r, c, q, d⟩ := f
  cases r <;> cases c <;> cases q <;> cases d <;> decide

end WorkFlags

/-- `struct os_work`. `handler` says whether the handler is non-null; `nodeQueued` is
`node.queued`. -/
structure OsWork (Q : Type) where
  nodeQueued : Bool
  handler : Bool
  queue : Option Q
  sync : OsSem 1
  flags : WorkFlags
  submissionId : UInt32
  runningId : UInt32
  completionId : UInt32
  magic : UInt32
  syncInitialized : Bool

/-- The fields of `struct os_work_delayable` after the embedded work item. -/
structure OsWorkDelayable (Q : Type) where
  queue : Option Q
  deadline : UInt32

/-- The objects whose nodes a queue's `fifo.list` links: items, and the queue's own
`stop_node`. -/
inductive FifoNode (W : Type) where
  | work (w : W)
  | stop
  deriving DecidableEq

/-- `struct os_work_queue`. -/
structure OsWorkQueue (W : Type) where
  fifo : OsFifo (FifoNode W)
  delayed : List W
  stopNodeQueued : Bool
  thread : OsThread
  current : Option W
  started : Bool
  stopping : Bool
  draining : Bool
  plugged : Bool
  noYield : Bool

/-! ## Initialization -/

/-- `os_work_init` with `os_sem_init` succeeding; `handler` says whether a handler was passed. -/
def osWorkInit (handler : Bool) : OsWork Q where
  nodeQueued := false
  handler := handler
  queue := none
  sync := .init
  flags := .none
  submissionId := 0
  runningId := 0
  completionId := 0
  magic := OS_WORK_MAGIC
  syncInitialized := true

/-- `os_work_init_delayable`, beyond the embedded item. -/
def osWorkInitDelayable : OsWorkDelayable Q := ⟨none, 0⟩

/-- The queue as `os_work_queue_start` leaves it on success. -/
def osWorkQueueStarted (noYield : Bool) : OsWorkQueue W where
  fifo := osFifoInit
  delayed := []
  stopNodeQueued := false
  thread := .create
  current := none
  started := true
  stopping := false
  draining := false
  plugged := false
  noYield := noYield

/-- `os_work_queue_start` on a queue object; `created` is the result of `os_thread_create`. On
an error of the thread creation the object stays zeroed but for what `os_fifo_deinit` leaves. -/
def osWorkQueueStart (queue : OsWorkQueue W) (stackSize : Nat) (noYield : Bool) (created : Int) :
    OsWorkQueue W × Int :=
  if stackSize = 0 then (queue, -EINVAL)
  else if queue.started then (queue, -EALREADY)
  else if created = 0 then (osWorkQueueStarted noYield, 0)
  else
    ({ osWorkQueueStarted noYield with fifo := osFifoZero osFifoInit, started := false }, created)

/-! ## History -/

/-- What became of an accepted schedule once its item left the delayed list. -/
inductive Fate where
  /-- a later schedule or reschedule took its place -/
  | replaced
  | canceled
  | flushed
  | stopped
  /-- it came due while its queue was plugged or stopping -/
  | blocked
  /-- it came due while the item was queued on that queue -/
  | coalesced
  | submitted
  /-- it came due and the submission was refused -/
  | dropped
  deriving DecidableEq

/-- The fate of a promoted item by the result of the submission made for it. -/
def Fate.ofSubmit (result : Int) : Fate :=
  if 0 < result then .submitted else if result = 0 then .coalesced else .dropped

/-- The record of a run. Submission `k` of item `w` is the `k`-th one that some queue accepted,
schedule `j` of `w` the `j`-th call that put `w` on a delayed list. -/
structure History (Q W : Type) where
  submitted : W → Nat
  /-- The submission whose handler was started last. -/
  running : W → Nat
  /-- The `submission_id` given to each submission. -/
  ids : W → Nat → UInt32
  accepted : Q → List (W × Nat)
  started : Q → List (W × Nat)
  canceled : List (W × Nat)
  finished : List (W × Nat)
  scheduled : W → Nat
  /-- The true tick at which each schedule comes due. -/
  due : W → Nat → Nat
  fates : W → Nat → List Fate
  /-- The calls of `os_work_queue_stop` that left after their marker was queued, with the timeout
  error of `os_thread_join`. -/
  joinTimeouts : Q → Nat

def History.empty : History Q W where
  submitted := fun _ => 0
  running := fun _ => 0
  ids := fun _ _ => 0
  accepted := fun _ => []
  started := fun _ => []
  canceled := []
  finished := []
  scheduled := fun _ => 0
  due := fun _ _ => 0
  fates := fun _ _ => []
  joinTimeouts := fun _ => 0

/-! ## Memory -/

/-- The objects shared by all threads, the tick counter and the history. -/
structure Mem (Q W : Type) where
  queue : Q → OsWorkQueue W
  work : W → OsWork Q
  dwork : W → OsWorkDelayable Q
  tick : Nat
  hist : History Q W

/-- `os_tick_get`. -/
def osTickGet (m : Mem Q W) : UInt32 := UInt32.ofNat m.tick

namespace Mem

variable {Q W : Type} [DecidableEq Q] [DecidableEq W] (m : Mem Q W)

def setQueue (q : Q) (v : OsWorkQueue W) : Mem Q W :=
  { m with queue := Function.update m.queue q v }

def setWork (w : W) (v : OsWork Q) : Mem Q W := { m with work := Function.update m.work w v }

def setDwork (w : W) (v : OsWorkDelayable Q) : Mem Q W :=
  { m with dwork := Function.update m.dwork w v }

def setFlags (w : W) (f : WorkFlags) : Mem Q W := m.setWork w { m.work w with flags := f }

/-- `sys_dlist_remove(&dwork->delay_node)`: off whichever delayed list links the node. -/
def unlinkDelay (d : W) : Mem Q W :=
  { m with queue := fun q => { m.queue q with delayed := (m.queue q).delayed.erase d } }

/-- `sys_dlist_remove(&work->node.node)`: off whichever `fifo.list` links the node. -/
def unlinkNode (w : W) : Mem Q W :=
  { m with
    queue := fun q =>
      { m.queue q with
        fifo := { (m.queue q).fifo with list := (m.queue q).fifo.list.erase (.work w) } } }

/-- Record what became of schedule `j` of `d`. -/
def settle (d : W) (j : Nat) (f : Fate) : Mem Q W :=
  { m with
    hist :=
      { m.hist with
        fates := Function.update m.hist.fates d
          (Function.update (m.hist.fates d) j (m.hist.fates d j ++ [f])) } }

/-- Record that a stop leaves with the error `result` of `os_thread_join`, if it is one that a
timeout gives. -/
def recordJoin (q : Q) (result : Int) : Mem Q W :=
  if result = -EBUSY ∨ result = -ETIMEDOUT then
    { m with
      hist :=
        { m.hist with
          joinTimeouts := Function.update m.hist.joinTimeouts q (m.hist.joinTimeouts q + 1) } }
  else m

/-- `os_sem_give(&queue->fifo.items)`. -/
def giveItems (q : Q) : Mem Q W :=
  m.setQueue q
    { m.queue q with fifo := { (m.queue q).fifo with items := (m.queue q).fifo.items.give } }

/-- `os_sem_trytake(&queue->fifo.items)`. -/
def trytakeItems (q : Q) : Mem Q W :=
  m.setQueue q
    { m.queue q with fifo := { (m.queue q).fifo with items := (m.queue q).fifo.items.trytake } }

/-- The attempt of `os_sem_take(&queue->fifo.items, …)` to get a token without waiting. -/
def takeItems? (q : Q) : Option (Mem Q W) :=
  (m.queue q).fifo.items.tryTake.map fun items =>
    m.setQueue q { m.queue q with fifo := { (m.queue q).fifo with items } }

/-- The attempt of `os_sem_take(&work->sync, …)` to get a token without waiting. -/
def takeSync? (w : W) : Option (Mem Q W) :=
  (m.work w).sync.tryTake.map fun sync => m.setWork w { m.work w with sync }

/-- `os_work_notify`. -/
def osWorkNotify (w : W) : Mem Q W :=
  if (m.work w).syncInitialized then
    m.setWork w { m.work w with sync := (m.work w).sync.give }
  else m

/-- An update of the queue's embedded thread object. -/
def setThread (q : Q) (t : OsThread) : Mem Q W := m.setQueue q { m.queue q with thread := t }

end Mem

end HazelOsal
