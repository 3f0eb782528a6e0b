import HazelOsal.Kernel.Thread
import Mathlib.Logic.Function.Basic

/-! # The lifecycle of a thread object

`thread.c` of the FreeRTOS and of the RT-Thread backend: the fields of `struct os_thread` that
`os_thread_create`, the task entry, `os_thread_join`, `os_thread_delete` and the reap function
share, one definition for each critical section. `OsThread` joins the pointer `completion_handle`
and the semaphore behind it; here they are apart, because the reap functions delete the semaphore
in a step of its own. An object may be created again: its incarnations are numbered, and each has
its own task and its own completion semaphore. Abortion is left out. -/

namespace HazelOsal.Thread

inductive Backend where
  | freeRtos
  | rtThread
  deriving DecidableEq

/-- `struct os_thread`; `completionHandle` is the incarnation whose semaphore it points to. -/
structure Object where
  completionHandle : Option Nat
  completed : Bool
  completionSignaled : Bool
  completionReaped : Bool
  joinActive : Bool
  deriving DecidableEq

namespace Object

variable (thread : Object)

/-- The object as `os_thread_create` leaves it for incarnation `k`. -/
def create (k : Nat) : Object where
  completionHandle := some k
  completed := false
  completionSignaled := false
  completionReaped := false
  joinActive := false

/-- How a critical section that tests the object goes on: with a result, or with the semaphore. -/
abbrev Test := Except Int Nat

/-- The tests that `os_thread_join` and `os_thread_delete` share; `busy` is their last one. -/
def test (busy : Bool) : Test :=
  if thread.completionReaped then .error 0
  else
    match thread.completionHandle with
    | none => .error (-EINVAL)
    | some k => if busy then .error (-EBUSY) else .ok k

/-- The critical section of `os_thread_join` before the wait. -/
def joinBegin : Test := thread.test thread.joinActive

/-- The critical section of `os_thread_delete`. -/
def deleteBegin : Test :=
  thread.test (!thread.completed || !thread.completionSignaled || thread.joinActive)

/-- What either of them writes when it goes on. -/
def activate : Object := { thread with joinActive := true }

/-- The critical section of a join whose wait has timed out. -/
def abandon : Object := { thread with joinActive := false }

/-- The critical section of `os_thread_reap` and of `os_rt_thread_reap`. -/
def reap : Object :=
  { thread with
    completionHandle := none
    completionReaped := true
    joinActive := false }

end Object

/-- The point that the task of an incarnation has reached: in its entry function, behind it, and
behind each step of `os_task_entry` or `os_rt_thread_entry`. The last step is `vTaskDelete`, or the
return to the native code that ends the task. -/
inductive Task where
  | unborn
  | entry
  | returned
  | completed
  | given
  | signaled
  | ended
  deriving DecidableEq

namespace Task

/-- The critical section that sets `completed` is behind the task. -/
def completes : Task → Bool
  | .completed | .given | .signaled | .ended => true
  | _ => false

/-- The task has given the completion semaphore. -/
def gave : Task → Bool
  | .given | .signaled | .ended => true
  | _ => false

/-- The critical section that sets `completion_signaled` is behind the task. -/
def signals : Task → Bool
  | .signaled | .ended => true
  | _ => false

theorem completes_of_gave {task : Task} (h : task.gave = true) : task.completes = true := by
  cases task <;> first | rfl | cases h

end Task

/-- The object and, for each incarnation, its task, its completion semaphore, how often it has been
reaped, and whether a join or a delete has returned 0. No modelled function reads the last two. -/
structure Mem where
  object : Object
  current : Nat
  task : Nat → Task
  completion : Nat → OsSem 1
  reaps : Nat → Nat
  joined : Nat → Bool

namespace Mem

variable (m : Mem)

def setCompletion (k : Nat) (sem : OsSem 1) : Mem :=
  { m with completion := Function.update m.completion k sem }

theorem setCompletion_completion (j k : Nat) (sem : OsSem 1) :
    (m.setCompletion k sem).completion j = if j = k then sem else m.completion j :=
  Function.update_apply ..

def setTask (k : Nat) (task : Task) : Mem := { m with task := Function.update m.task k task }

def setJoined (k : Nat) : Mem := { m with joined := Function.update m.joined k true }

def countReap (k : Nat) : Mem := { m with reaps := Function.update m.reaps k (m.reaps k + 1) }

theorem countReap_reaps (j k : Nat) :
    (m.countReap k).reaps j = if j = k then m.reaps k + 1 else m.reaps j := Function.update_apply ..

/-- `os_thread_create`, which succeeds. -/
def create : Mem :=
  let k := m.current + 1
  { m with
    object := .create k
    current := k
    task := Function.update m.task k .entry
    completion := Function.update m.completion k .init }

/-- The next step of the task of an incarnation; `none` for a task that is not there. A give goes to
the semaphore that the object points to by then. -/
def taskStep (k : Nat) : Option Mem :=
  match m.task k with
  | .unborn | .ended => none
  | .entry => some (m.setTask k .returned)
  | .returned =>
    some ({ m with object := { m.object with completed := true } }.setTask k .completed)
  | .completed =>
    match m.object.completionHandle with
    | some j => some ((m.setCompletion j (m.completion j).give).setTask k .given)
    | none => some (m.setTask k .given)
  | .given =>
    some ({ m with object := { m.object with completionSignaled := true } }.setTask k .signaled)
  | .signaled => some (m.setTask k .ended)

/-- `os_thread_create` has just returned for the first time. -/
def initial : Mem where
  object := .create 0
  current := 0
  task := fun k => if k = 0 then .entry else .unborn
  completion := fun k => if k = 0 then .init else OsSem.init.deinit
  reaps := fun _ => 0
  joined := fun _ => false

end Mem

end HazelOsal.Thread
