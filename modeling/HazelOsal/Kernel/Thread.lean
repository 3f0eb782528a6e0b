import HazelOsal.Kernel.Basic

/-! # Threads

Who calls, and the completion and join of threads: the fields of `struct os_thread` that
`os_task_entry`, `os_thread_join` and `os_thread_reap` use (FreeRTOS backend; the RT-Thread one
reads and writes the same fields). Each definition is one critical section or one operation on the
native completion semaphore. -/

namespace HazelOsal

/-- Who calls: an OSAL thread, another native task, or an interrupt handler. -/
inductive Caller (T N : Type) where
  | thread (t : T)
  | task (n : N)
  | isr (n : N)
  deriving DecidableEq

namespace Caller

/-- `os_get_current_thread` where it is called outside an interrupt handler. -/
def current : Caller T N → Option T
  | .thread t => some t
  | _ => none

/-- `os_is_in_isr`. -/
def inIsr : Caller T N → Bool
  | .isr _ => true
  | _ => false

theorem current_eq_some {c : Caller T N} {t : T} (h : c.current = some t) : c = .thread t := by
  cases c with
  | thread => cases h; rfl
  | task | isr => cases h

theorem current_eq_some_iff {c : Caller T N} {t : T} : c.current = some t ↔ c = .thread t :=
  ⟨current_eq_some, fun h => by rw [h]; rfl⟩

end Caller

/-- `enum os_thread_state`. -/
inductive ThreadState where
  | ready
  | pending
  | terminated
  deriving DecidableEq

/-- `completion.handle` is `completion_handle != NULL`, `completion.count` the native binary
semaphore behind it. -/
structure OsThread where
  completion : OsSem 1
  completed : Bool
  completionSignaled : Bool
  completionReaped : Bool
  joinActive : Bool

namespace OsThread

/-- The object as `os_thread_create` leaves it on success. -/
def create : OsThread where
  completion := .init
  completed := false
  completionSignaled := false
  completionReaped := false
  joinActive := false

/-! ## `os_task_entry` after the entry function has returned -/

def entryComplete (t : OsThread) : OsThread := { t with completed := true }

def entryGive (t : OsThread) : OsThread := { t with completion := t.completion.give }

def entrySignal (t : OsThread) : OsThread := { t with completionSignaled := true }

/-! ## `os_thread_join` -/

/-- The first critical section: the value returned at once, or `none` to go on and wait. -/
def joinBegin (t : OsThread) : OsThread × Option Int :=
  if t.completionReaped then (t, some 0)
  else if !t.completion.handle then (t, some (-EINVAL))
  else if t.joinActive then (t, some (-EBUSY))
  else ({ t with joinActive := true }, none)

/-- `xSemaphoreTake` on the completion semaphore, when a token is there. -/
def joinTake (t : OsThread) : Option OsThread :=
  t.completion.tryTake.map fun completion => { t with completion }

/-- The critical section after a wait that timed out. -/
def joinAbandon (t : OsThread) : OsThread := { t with joinActive := false }

/-- The value a join that timed out returns. -/
def joinTimeoutResult (timeout : UInt32) : Int := if timeout = 0 then -EBUSY else -ETIMEDOUT

/-- The critical section of `os_thread_delete`, in the same form as `joinBegin`. -/
def deleteBegin (t : OsThread) : OsThread × Option Int :=
  if t.completionReaped then (t, some 0)
  else if !t.completion.handle then (t, some (-EINVAL))
  else if !t.completed || !t.completionSignaled || t.joinActive then (t, some (-EBUSY))
  else ({ t with joinActive := true }, none)

/-- `os_thread_reap`. -/
def reap (t : OsThread) : OsThread :=
  { t with
    completion := t.completion.deinit
    completionReaped := true
    joinActive := false }

theorem joinTimeoutResult_ne_zero (timeout : UInt32) : joinTimeoutResult timeout ≠ 0 := by
  simp only [joinTimeoutResult, EBUSY, ETIMEDOUT]; split <;> decide

end OsThread

end HazelOsal
