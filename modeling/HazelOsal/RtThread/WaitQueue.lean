import HazelOsal.Kernel.Thread
import HazelOsal.Library.Transition
import Mathlib.Data.List.Sort
import Mathlib.Logic.Function.Basic
import Mathlib.Tactic.Simps.Basic

/-! # Wait queues of the RT-Thread backend

`waitq.c` and the part of `thread.c` that reads or writes `thread->wait_q`. A thread waits natively
on its semaphore `wait_storage`, whose limit is 1. All threads have been created before a run
starts. The null checks on pointers are left out with the pointers, and so are the native mutexes,
but for what they do to the priorities of the threads (`Act.inherit`). -/

namespace HazelOsal.RtThread

open TransitionSystem

/-- The configuration of the port: `RT_THREAD_PRIORITY_MAX`. -/
structure Port where
  priorityMax : Nat

def RT_EOK : Int := 0
def RT_ETIMEOUT : Int := 2
def RT_WAITING_FOREVER : Int32 := -1

/-- `os_to_rt_priority`. -/
def Port.osToRtPriority (port : Port) (priority : Int) : UInt8 :=
  let priority : Int := if priority < 0 then 0 else priority
  let priority : Int := if priority ≥ port.priorityMax then port.priorityMax - 1 else priority
  UInt8.ofNat (port.priorityMax - 1 - priority.toNat)

/-- `rt_to_os_priority`. -/
def Port.rtToOsPriority (port : Port) (priority : UInt8) : Int :=
  port.priorityMax - 1 - priority.toNat

/-- `os_to_rt_timeout`. -/
def osToRtTimeout (timeout : UInt32) : Int32 :=
  if timeout = OS_WAIT_FOREVER then RT_WAITING_FOREVER else timeout.toInt32

/-- The tick at which a native wait that starts at `tick` expires: no timer is armed for a
negative number of ticks. -/
def expiry (tick : Nat) (ticks : Int32) : Option Nat :=
  if 0 < ticks.toInt then some (tick + ticks.toInt.toNat) else none

/-! ## State -/

/-- `struct os_thread`. -/
structure OsThread (Q : Type) extends HazelOsal.OsThread where
  handle : Bool
  waitQ : Option Q
  waitResult : UInt32
  state : ThreadState
  basePriority : Int
  cancelRequested : Bool
  aborted : Bool

/-- The thread as `os_thread_create` leaves it on success. -/
def osThreadCreate (prio : Int) : OsThread Q where
  toOsThread := .create
  handle := true
  waitQ := none
  waitResult := 0
  state := .ready
  basePriority := prio
  cancelRequested := false
  aborted := false

/-- What took a thread off the wait queue it was on, other than the thread itself. -/
inductive Removal (Q : Type) where
  | wake (q : Q) (reason : UInt32)
  | abort
  deriving DecidableEq

/-- The objects shared by all threads, what the native threads behind `thread->handle` hold, and
the tick counter. `removed` is a record that no modelled function reads: what removed the thread
from the queue of its last wait, cleared when the thread starts another one. -/
structure Mem (T Q : Type) where
  thread : T → OsThread Q
  queue : Q → List T
  currentPriority : T → UInt8
  waitStorage : T → Counting 1
  deleted : T → Bool
  tick : Nat
  removed : T → Option (Removal Q)

namespace Mem

variable {T Q : Type} [DecidableEq T] [DecidableEq Q] (m : Mem T Q)

@[simps thread queue currentPriority waitStorage deleted tick removed]
def setThread (t : T) (v : OsThread Q) : Mem T Q :=
  { m with thread := Function.update m.thread t v }

@[simps thread queue currentPriority waitStorage deleted tick removed]
def setQueue (q : Q) (l : List T) : Mem T Q := { m with queue := Function.update m.queue q l }

/-- `sys_dlist_remove(&thread->wait_node)`: off whichever wait queue links the node. -/
@[simps thread queue currentPriority waitStorage deleted tick removed]
def unlinkWait (t : T) : Mem T Q := { m with queue := fun q => (m.queue q).erase t }

@[simps thread queue currentPriority waitStorage deleted tick removed]
def setWaitStorage (t : T) (v : Counting 1) : Mem T Q :=
  { m with waitStorage := Function.update m.waitStorage t v }

@[simps thread queue currentPriority waitStorage deleted tick removed]
def setCurrentPriority (t : T) (v : UInt8) : Mem T Q :=
  { m with currentPriority := Function.update m.currentPriority t v }

/-- The native thread is detached or deleted, or ends. -/
@[simps thread queue currentPriority waitStorage deleted tick removed]
def delete (t : T) : Mem T Q := { m with deleted := Function.update m.deleted t true }

/-- Record what removed `t` from its wait queue, or that nothing has. -/
@[simps thread queue currentPriority waitStorage deleted tick removed]
def record (t : T) (r : Option (Removal Q)) : Mem T Q :=
  { m with removed := Function.update m.removed t r }

/-- The completion semaphore and flags of a thread. -/
def setCompletion (t : T) (v : HazelOsal.OsThread) : Mem T Q :=
  m.setThread t { m.thread t with toOsThread := v }

end Mem

/-! ## Critical sections -/

section
variable {T Q : Type} [DecidableEq T] [DecidableEq Q]

/-- `os_thread_get_priority`. -/
def osThreadGetPriority (port : Port) (m : Mem T Q) (t : T) : Int :=
  if (m.thread t).handle then port.rtToOsPriority (m.currentPriority t) else -EINVAL

/-- `os_rt_waitq_insert_locked`: before the first thread of lower priority. -/
def osRtWaitqInsertLocked (port : Port) (m : Mem T Q) (q : Q) (t : T) : Mem T Q :=
  m.setQueue q ((m.queue q).orderedInsert
    (fun a b => osThreadGetPriority port m b < osThreadGetPriority port m a) t)

/-- The first critical section of `os_waitq_block`. -/
def osWaitqBlockEnqueue (port : Port) (m : Mem T Q) (t : T) (q : Q) : Mem T Q :=
  let m := (m.record t none).setThread t
    { m.thread t with waitQ := some q, waitResult := 0, state := .pending }
  osRtWaitqInsertLocked port m q t

/-- The second critical section of `os_waitq_block`, and the value it returns. -/
def osWaitqBlockFinish (m : Mem T Q) (t : T) (result : Int) : Mem T Q × Int :=
  if (m.thread t).waitQ ≠ none then
    ((m.unlinkWait t).setThread t { m.thread t with waitQ := none, state := .ready },
      if result = -RT_ETIMEOUT then -ETIMEDOUT else -EAGAIN)
  else
    (m.setThread t { m.thread t with state := .ready }, (m.thread t).waitResult.toInt32.toInt)

/-- The critical section of `os_waitq_wake_one`, and one round of the loop in that of
`os_waitq_wake_all`. -/
def osWaitqWakeHead (m : Mem T Q) (q : Q) (reason : UInt32) : Mem T Q :=
  match m.queue q with
  | [] => m
  | t :: rest =>
    let m := (m.setQueue q rest).setThread t
      { m.thread t with waitQ := none, waitResult := reason, state := .ready }
    (m.setWaitStorage t (m.waitStorage t).give).record t (some (.wake q reason))

/-- The critical section of `os_waitq_wake_all`; the loop ends when the queue is empty. -/
def osWaitqWakeAll (m : Mem T Q) (q : Q) (reason : UInt32) : Mem T Q :=
  (fun m => osWaitqWakeHead m q reason)^[(m.queue q).length] m

/-- The critical section of `os_thread_set_priority`. -/
def osThreadSetPriorityRequeue (port : Port) (m : Mem T Q) (t : T) : Mem T Q :=
  match (m.thread t).waitQ with
  | some q => osRtWaitqInsertLocked port (m.unlinkWait t) q t
  | none => m

/-- The branch of `os_thread_abort` for a thread that is on a wait queue. -/
def osThreadAbortDequeue (m : Mem T Q) (t : T) : Mem T Q :=
  if (m.thread t).waitQ ≠ none then
    ((m.unlinkWait t).setThread t { m.thread t with waitQ := none }).record t (some .abort)
  else m

/-- The critical section of `os_thread_abort` before the native thread is detached or deleted: the
error, if there is one. -/
def osThreadAbortCritical (m : Mem T Q) (t : T) : Mem T Q × Option Int :=
  if (m.thread t).completed then (m, some (-EALREADY))
  else
    let m := osThreadAbortDequeue m t
    (m.setThread t
      { m.thread t with
        cancelRequested := true
        aborted := true
        completed := true
        state := .terminated }, none)

/-- The critical section after the native thread could not be detached or deleted. -/
def osThreadAbortRestore (m : Mem T Q) (t : T) : Mem T Q :=
  m.setThread t { m.thread t with completed := false, aborted := false, state := .ready }

end

/-! ## Calls -/

/-- The point a caller has reached. `began` is the tick at which `os_waitq_block` queued the
thread. -/
inductive Pc (T Q : Type) where
  | idle
  | done (result : Int)
  | blockEnter (q : Q) (timeout : UInt32)
  | blockLock (q : Q) (timeout : UInt32)
  | blockTake (q : Q) (timeout : UInt32) (began : Nat)
  | blockWaiting (q : Q) (timeout : UInt32) (began : Nat) (expiry : Option Nat)
  | blockFinish (q : Q) (timeout : UInt32) (began : Nat) (result : Int)
  | wakeOneLock (q : Q) (reason : UInt32)
  | wakeAllLock (q : Q) (reason : UInt32)
  | setPriorityEnter (t : T) (priority : Int)
  | setPriorityBase (t : T) (priority : Int)
  | setPriorityControl (t : T) (priority : Int)
  | setPriorityLock (t : T)
  | abortEnter (t : T)
  | abortLock (t : T)
  | abortDetach (t : T)
  | abortRestore (t : T)
  | abortGive (t : T)
  | abortSignal (t : T)
  | exitComplete
  | exitGive
  | exitSignal
  | exitNative
  deriving DecidableEq

/-- The API calls. A thread makes `exit` when its entry function returns. -/
inductive Op (T Q : Type) where
  | block (q : Q) (timeout : UInt32)
  | wakeOne (q : Q) (reason : UInt32)
  | wakeAll (q : Q) (reason : UInt32)
  | setPriority (t : T) (priority : Int)
  | abort (t : T)
  | exit

def Op.entry : Op T Q → Pc T Q
  | .block q timeout => .blockEnter q timeout
  | .wakeOne q reason => .wakeOneLock q reason
  | .wakeAll q reason => .wakeAllLock q reason
  | .setPriority t priority => .setPriorityEnter t priority
  | .abort t => .abortEnter t
  | .exit => .exitComplete

variable {T Q N : Type} [DecidableEq T] [DecidableEq Q] [DecidableEq N]

/-- The next step of a call; `none` while it waits. -/
def callStep (port : Port) (c : Caller T N) (m : Mem T Q) : Pc T Q → Option (Mem T Q × Pc T Q)
  | .idle | .done _ => none
  -- os_waitq_block
  | .blockEnter q timeout =>
    if c.inIsr then some (m, .done (-EWOULDBLOCK))
    else if c.current.isNone then some (m, .done (-EINVAL))
    else some (m, .blockLock q timeout)
  | .blockLock q timeout => c.current.map fun t =>
    (osWaitqBlockEnqueue port m t q, .blockTake q timeout m.tick)
  | .blockTake q timeout began => c.current.map fun t =>
    match (m.waitStorage t).take? with
    | some sem => (m.setWaitStorage t sem, .blockFinish q timeout began RT_EOK)
    | none =>
      if osToRtTimeout timeout = 0 then (m, .blockFinish q timeout began (-RT_ETIMEOUT))
      else (m, .blockWaiting q timeout began (expiry m.tick (osToRtTimeout timeout)))
  | .blockWaiting q timeout began _ => c.current.bind fun t =>
    (m.waitStorage t).take?.map fun sem =>
      (m.setWaitStorage t sem, .blockFinish q timeout began RT_EOK)
  | .blockFinish _ _ _ result => c.current.map fun t =>
    let (m, result) := osWaitqBlockFinish m t result
    (m, .done result)
  -- os_waitq_wake_one and os_waitq_wake_all
  | .wakeOneLock q reason => some (osWaitqWakeHead m q reason, .idle)
  | .wakeAllLock q reason => some (osWaitqWakeAll m q reason, .idle)
  -- os_thread_set_priority
  | .setPriorityEnter t priority =>
    if !(m.thread t).handle then some (m, .idle) else some (m, .setPriorityBase t priority)
  | .setPriorityBase t priority =>
    some (m.setThread t { m.thread t with basePriority := priority },
      .setPriorityControl t priority)
  | .setPriorityControl t priority =>
    some (m.setCurrentPriority t (port.osToRtPriority priority), .setPriorityLock t)
  | .setPriorityLock t => some (osThreadSetPriorityRequeue port m t, .idle)
  -- os_thread_abort
  | .abortEnter t =>
    if !(m.thread t).handle || !(m.thread t).completion.handle then some (m, .done (-EINVAL))
    else if c.inIsr then some (m, .done (-EWOULDBLOCK))
    else if c.current = some t then some (m, .done (-EDEADLK))
    else some (m, .abortLock t)
  | .abortLock t =>
    let (m, result) := osThreadAbortCritical m t
    some (m, match result with
      | some result => .done result
      | none => .abortDetach t)
  | .abortDetach t => some (m.delete t, .abortGive t)
  | .abortRestore t => some (osThreadAbortRestore m t, .done (-EINVAL))
  | .abortGive t => some (m.setCompletion t (m.thread t).entryGive, .abortSignal t)
  | .abortSignal t => some (m.setCompletion t (m.thread t).entrySignal, .done 0)
  -- os_rt_thread_entry
  | .exitComplete => c.current.map fun t =>
    (m.setThread t
      { m.thread t with toOsThread := (m.thread t).entryComplete, state := .terminated }, .exitGive)
  | .exitGive => c.current.map fun t => (m.setCompletion t (m.thread t).entryGive, .exitSignal)
  | .exitSignal => c.current.map fun t => (m.setCompletion t (m.thread t).entrySignal, .exitNative)
  | .exitNative => c.current.map fun t => (m.delete t, .idle)

/-- A native wait times out. -/
def callExpire (c : Caller T N) (m : Mem T Q) : Pc T Q → Option (Pc T Q)
  | .blockWaiting q timeout began (some expiry) => c.current.bind fun t =>
    if (m.waitStorage t).count = 0 ∧ expiry ≤ m.tick then
      some (.blockFinish q timeout began (-RT_ETIMEOUT))
    else none
  | _ => none

/-- `rt_thread_detach` or `rt_thread_delete` returns an error. -/
def callFail : Pc T Q → Option (Pc T Q)
  | .abortDetach t => some (.abortRestore t)
  | _ => none

/-- No call is in progress. -/
def Pc.free : Pc T Q → Bool
  | .idle | .done _ => true
  | _ => false

/-! ## The whole system -/

/-- The state of the whole system. -/
structure State (T Q N : Type) where
  mem : Mem T Q
  call : Caller T N → Pc T Q

namespace State

variable (s : State T Q N)
omit [DecidableEq Q]

def setCall (c : Caller T N) (m : Mem T Q) (p : Pc T Q) : State T Q N :=
  { s with mem := m, call := Function.update s.call c p }

@[simp] theorem setCall_mem (c : Caller T N) (m : Mem T Q) (p : Pc T Q) :
    (s.setCall c m p).mem = m := rfl

theorem setCall_call (c d : Caller T N) (m : Mem T Q) (p : Pc T Q) :
    (s.setCall c m p).call d = if d = c then p else s.call d := Function.update_apply ..

/-- The native thread of the context exists. -/
def alive (c : Caller T N) : Bool := c.current.all fun t => !s.mem.deleted t

end State

/-- What may happen next; by `inherit` a native mutex changes the priority of a thread. -/
inductive Act (T Q N : Type) where
  | call (c : Caller T N) (op : Op T Q)
  | step (c : Caller T N)
  | expire (c : Caller T N)
  | fail (c : Caller T N)
  | inherit (t : T) (priority : UInt8)
  | tick

def step (port : Port) (s : State T Q N) : Act T Q N → Option (State T Q N)
  | .call c op => if s.alive c && (s.call c).free then some (s.setCall c s.mem op.entry) else none
  | .step c =>
    if s.alive c then (callStep port c s.mem (s.call c)).map fun (m, p) => s.setCall c m p
    else none
  | .expire c =>
    if s.alive c then (callExpire c s.mem (s.call c)).map fun p => s.setCall c s.mem p else none
  | .fail c => if s.alive c then (callFail (s.call c)).map fun p => s.setCall c s.mem p else none
  | .inherit t priority => some { s with mem := s.mem.setCurrentPriority t priority }
  | .tick => some { s with mem := { s.mem with tick := s.mem.tick + 1 } }

/-- The kinds of steps, with the tests that have succeeded. -/
inductive StepCase (port : Port) (s : State T Q N) : Act T Q N → State T Q N → Prop
  | call {c : Caller T N} {op : Op T Q} (hf : (s.call c).free) :
    StepCase port s (.call c op) (s.setCall c s.mem op.entry)
  | step {c : Caller T N} {m' : Mem T Q} {p' : Pc T Q}
    (h : callStep port c s.mem (s.call c) = some (m', p')) :
    StepCase port s (.step c) (s.setCall c m' p')
  | expire {c : Caller T N} {p' : Pc T Q} (h : callExpire c s.mem (s.call c) = some p') :
    StepCase port s (.expire c) (s.setCall c s.mem p')
  | fail {c : Caller T N} {p' : Pc T Q} (h : callFail (s.call c) = some p') :
    StepCase port s (.fail c) (s.setCall c s.mem p')
  | inherit {t : T} {priority : UInt8} : StepCase port s (.inherit t priority)
    { s with mem := s.mem.setCurrentPriority t priority }
  | tick : StepCase port s .tick { s with mem := { s.mem with tick := s.mem.tick + 1 } }

theorem step_cases {port : Port} {s s' : State T Q N} {a : Act T Q N}
    (h : step port s a = some s') : StepCase port s a s' := by
  cases a with
  | call c op =>
    obtain ⟨hc, h⟩ := Option.ite_none_right_eq_some.mp h
    cases h
    exact .call (Bool.and_eq_true_iff.mp hc).2
  | step c =>
    obtain ⟨-, h⟩ := Option.ite_none_right_eq_some.mp h
    obtain ⟨⟨m', p'⟩, hc, h⟩ := Option.map_eq_some_iff.mp h
    cases h
    exact .step hc
  | expire c =>
    obtain ⟨-, h⟩ := Option.ite_none_right_eq_some.mp h
    obtain ⟨p', hc, h⟩ := Option.map_eq_some_iff.mp h
    cases h
    exact .expire hc
  | fail c =>
    obtain ⟨-, h⟩ := Option.ite_none_right_eq_some.mp h
    obtain ⟨p', hc, h⟩ := Option.map_eq_some_iff.mp h
    cases h
    exact .fail hc
  | inherit => cases h; exact .inherit
  | tick => cases h; exact .tick

/-- Every thread has just been created, with the priority `prio` gives. -/
structure Init (port : Port) (prio : T → Int) (s : State T Q N) : Prop where
  thread : ∀ t, s.mem.thread t = osThreadCreate (prio t)
  queue : ∀ q, s.mem.queue q = []
  currentPriority : ∀ t, s.mem.currentPriority t = port.osToRtPriority (prio t)
  waitStorage : ∀ t, s.mem.waitStorage t = .zero
  deleted : ∀ t, s.mem.deleted t = false
  removed : ∀ t, s.mem.removed t = none
  call : ∀ c, s.call c = .idle

/-- The initial state at tick 0. -/
def State.initial (port : Port) (prio : T → Int) : State T Q N where
  mem :=
    { thread := fun t => osThreadCreate (prio t)
      queue := fun _ => []
      currentPriority := fun t => port.osToRtPriority (prio t)
      waitStorage := fun _ => .zero
      deleted := fun _ => false
      tick := 0
      removed := fun _ => none }
  call := fun _ => .idle

omit [DecidableEq T] [DecidableEq Q] [DecidableEq N] in
theorem State.init_initial (port : Port) (prio : T → Int) :
    Init port prio (.initial port prio : State T Q N) :=
  ⟨fun _ => rfl, fun _ => rfl, fun _ => rfl, fun _ => rfl, fun _ => rfl, fun _ => rfl, fun _ => rfl⟩

/-- A call and its first `n` steps. -/
def callSteps (c : Caller T N) (op : Op T Q) (n : Nat) : List (Act T Q N) :=
  .call c op :: List.replicate n (.step c)

/-- The wait queues of the backend. -/
def system (port : Port) (prio : T → Int) : System (State T Q N) (Act T Q N) where
  init := Init port prio
  step := step port

end HazelOsal.RtThread
