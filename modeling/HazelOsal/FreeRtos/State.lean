import HazelOsal.Kernel.Thread
import Mathlib.Algebra.Ring.Nat
import Mathlib.Data.List.Sort
import Mathlib.Logic.Function.Basic
import Mathlib.Tactic.Simps.Basic

/-! # Data model of the FreeRTOS wait queues and mutexes

Threads are named by `T`, mutexes by `M` and plain `os_wait_q_t` objects by `Q`. All threads have
been created before a run starts, and a mutex is initialized from the start or never: a mutex that
is set up later is one that nobody has used before. The null checks on pointers are left out with
the pointers.

`History` is the record that specifications read. No modelled function reads it. -/

namespace HazelOsal.FreeRtos

/-- The configuration of the port: `configMAX_PRIORITIES`, and the width of `TickType_t`. -/
structure Port where
  maxPriorities : Nat
  tickBits : Nat

namespace Port

variable (port : Port)

/-- The widths that the backend supports: `configUSE_16_BIT_TICKS` is 1 or 0. -/
def Supported : Prop := port.tickBits = 16 ∨ port.tickBits = 32

/-- The native priority that `xTaskCreate` and `vTaskPrioritySet` give a task for
`(UBaseType_t)priority`: a value that is too large is clipped. -/
def nativePriority (priority : Int) : Nat :=
  if priority < 0 then port.maxPriorities - 1 else min priority.toNat (port.maxPriorities - 1)

def portMAX_DELAY : Nat := 2 ^ port.tickBits - 1

/-- `(timeout == OS_WAIT_FOREVER) ? portMAX_DELAY : (TickType_t)timeout`. -/
def ticksToWait (timeout : UInt32) : Nat :=
  if timeout = OS_WAIT_FOREVER then port.portMAX_DELAY else timeout.toNat % 2 ^ port.tickBits

/-- The tick at which a native wait that starts at `tick` expires. -/
def expiry (tick ticks : Nat) : Option Nat :=
  if ticks = port.portMAX_DELAY then none else some (tick + ticks)

/-- `os_tick_get`, when `tick` ticks have passed. -/
def osTickGet (tick : Nat) : UInt32 := UInt32.ofNat (tick % 2 ^ port.tickBits)

variable {port}

theorem Supported.two_pow_le (h : port.Supported) : 2 ^ port.tickBits ≤ 2 ^ 32 := by
  rcases h with h | h
  all_goals
    simp only [h]
    decide

end Port

/-- The `os_wait_q_t` objects: `&mutex->wait_q` and the plain ones. -/
inductive WaitQ (M Q : Type) where
  | mutex (mutex : M)
  | plain (q : Q)
  deriving DecidableEq

/-- `struct os_thread`. `ownedMutexes` lists the mutexes whose `owner_node` it links. -/
structure OsThread (M Q : Type) extends HazelOsal.OsThread where
  handle : Bool
  waitQ : Option (WaitQ M Q)
  waitingMutex : Option M
  waitResult : UInt32
  state : ThreadState
  basePriority : Int
  ownedMutexes : List M
  cancelRequested : Bool
  aborted : Bool

/-- `struct os_mutex`; the list of its `wait_q` is `Mem.queue (.mutex _)`. -/
structure OsMutex (T : Type) where
  owner : Option T
  lockCount : UInt32
  initialized : Bool

/-- The thread as `os_thread_create` leaves it on success. -/
def osThreadCreate (prio : Int) : OsThread M Q where
  toOsThread := .create
  handle := true
  waitQ := none
  waitingMutex := none
  waitResult := 0
  state := .ready
  basePriority := prio
  ownedMutexes := []
  cancelRequested := false
  aborted := false

/-- The mutex as `os_mutex_init` leaves it, or as zeroed storage. -/
def osMutexZero (initialized : Bool) : OsMutex T :=
  { owner := none, lockCount := 0, initialized }

/-! ## History -/

/-- What took a thread off the wait queue it was on, other than the thread itself. -/
inductive Removal (M Q : Type) where
  | unlock (mutex : M)
  | wake (q : Q) (reason : UInt32)
  | abort
  deriving DecidableEq

/-- The record of a run. -/
structure History (T M Q : Type) where
  /-- What removed the thread from the queue of its last wait; cleared when the thread starts
  another wait or tries again to acquire the mutex. -/
  removed : T → Option (Removal M Q)
  /-- The calls of `os_mutex_lock` that returned 0. -/
  locks : T → M → Nat
  /-- The calls of `os_mutex_unlock` that returned 0. -/
  unlocks : T → M → Nat

def History.empty : History T M Q where
  removed := fun _ => none
  locks := fun _ _ => 0
  unlocks := fun _ _ => 0

/-! ## Memory -/

/-- The objects shared by all threads, what the native tasks behind `thread->handle` hold, the
tick counter and the history. `queue` is the list of the threads whose `wait_node` a wait queue
links, in order; `notification` is the value of a pending native notification. -/
structure Mem (T M Q : Type) where
  thread : T → OsThread M Q
  mutex : M → OsMutex T
  queue : WaitQ M Q → List T
  uxPriority : T → Nat
  notification : T → Option UInt32
  deleted : T → Bool
  tick : Nat
  hist : History T M Q

namespace Mem

variable {T M Q : Type} [DecidableEq T] [DecidableEq M] [DecidableEq Q] (m : Mem T M Q)

@[simps thread mutex queue uxPriority notification deleted tick hist]
def setThread (t : T) (v : OsThread M Q) : Mem T M Q :=
  { m with thread := Function.update m.thread t v }

@[simps thread mutex queue uxPriority notification deleted tick hist]
def setMutex (mu : M) (v : OsMutex T) : Mem T M Q :=
  { m with mutex := Function.update m.mutex mu v }

@[simps thread mutex queue uxPriority notification deleted tick hist]
def setQueue (q : WaitQ M Q) (l : List T) : Mem T M Q :=
  { m with queue := Function.update m.queue q l }

/-- `sys_dlist_remove(&thread->wait_node)`: off whichever wait queue links the node. -/
@[simps thread mutex queue uxPriority notification deleted tick hist]
def unlinkWait (t : T) : Mem T M Q := { m with queue := fun q => (m.queue q).erase t }

/-- `sys_dlist_remove(&mutex->owner_node)`: off whichever thread's list links the node. -/
@[simps mutex queue uxPriority notification deleted tick hist]
def unlinkOwner (mu : M) : Mem T M Q :=
  { m with
    thread := fun t =>
      { m.thread t with ownedMutexes := (m.thread t).ownedMutexes.erase mu } }

omit [DecidableEq T] [DecidableEq Q] in
@[simp] theorem unlinkOwner_thread (mu : M) (t : T) : (m.unlinkOwner mu).thread t =
    { m.thread t with ownedMutexes := (m.thread t).ownedMutexes.erase mu } := rfl

/-- `xTaskNotify` with `eSetValueWithOverwrite`. -/
@[simps thread mutex queue uxPriority notification deleted tick hist]
def xTaskNotify (t : T) (value : UInt32) : Mem T M Q :=
  { m with notification := Function.update m.notification t (some value) }

/-- `xTaskNotifyWait` finds a notification pending and consumes it. -/
@[simps thread mutex queue uxPriority notification deleted tick hist]
def takeNotification (t : T) : Mem T M Q :=
  { m with notification := Function.update m.notification t none }

@[simps thread mutex queue uxPriority notification deleted tick hist]
def vTaskDelete (t : T) : Mem T M Q := { m with deleted := Function.update m.deleted t true }

/-- Record what removed `t` from its wait queue. -/
@[simps thread mutex queue uxPriority notification deleted tick]
def remove (t : T) (r : Removal M Q) : Mem T M Q :=
  { m with hist := { m.hist with removed := Function.update m.hist.removed t (some r) } }

/-- Forget what ended the last wait of `t`. -/
@[simps thread mutex queue uxPriority notification deleted tick]
def forget (t : T) : Mem T M Q :=
  { m with hist := { m.hist with removed := Function.update m.hist.removed t none } }

/-- Record that a lock of `mu` by `t` returns 0. -/
@[simps thread mutex queue uxPriority notification deleted tick]
def recordLock (t : T) (mu : M) : Mem T M Q :=
  { m with
    hist :=
      { m.hist with
        locks := Function.update m.hist.locks t
          (Function.update (m.hist.locks t) mu (m.hist.locks t mu + 1)) } }

/-- Record that an unlock of `mu` by `t` returns 0. -/
@[simps thread mutex queue uxPriority notification deleted tick]
def recordUnlock (t : T) (mu : M) : Mem T M Q :=
  { m with
    hist :=
      { m.hist with
        unlocks := Function.update m.hist.unlocks t
          (Function.update (m.hist.unlocks t) mu (m.hist.unlocks t mu + 1)) } }

end Mem

end HazelOsal.FreeRtos
