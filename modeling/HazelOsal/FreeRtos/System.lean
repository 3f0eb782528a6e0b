import HazelOsal.FreeRtos.Critical
import HazelOsal.Library.Transition

/-! # Calls and the whole system

`Pc` is the point a caller has reached: a step is one critical section, one operation on the
native task or semaphore, or one read outside a critical section. Any number of threads, and of
contexts that are not OSAL threads, interleave their steps in any order with the ticks of the
clock. A task that has been deleted takes no more steps. -/

namespace HazelOsal.FreeRtos

open TransitionSystem

/-- `start` is the true tick that `os_tick_get` sampled, of which the code keeps the low bits, and
`began` the true tick at which `os_waitq_block` queued the thread. The stages of the exit of a
thread are those of `os_task_entry` after the entry function has returned. -/
inductive Pc (T M Q : Type) where
  | idle
  | done (result : Int)
  | lockEnter (mutex : M) (timeout : UInt32)
  | lockStart (mutex : M) (timeout : UInt32)
  | lockTry (mutex : M) (timeout : UInt32) (start : Nat)
  | lockNotifyWait (mutex : M) (timeout : UInt32) (start : Nat) (remaining : UInt32)
  | lockWaiting (mutex : M) (timeout : UInt32) (start : Nat) (expiry : Option Nat)
  | lockFinish (mutex : M) (timeout : UInt32) (start : Nat) (notified : Bool)
  | unlockEnter (mutex : M)
  | unlockLock (mutex : M)
  | deinitEnter (mutex : M)
  | deinitLock (mutex : M)
  | deinitZero (mutex : M)
  | blockEnter (q : Q) (timeout : UInt32)
  | blockLock (q : Q) (timeout : UInt32)
  | blockNotifyWait (q : Q) (timeout : UInt32) (began : Nat)
  | blockWaiting (q : Q) (timeout : UInt32) (began : Nat) (expiry : Option Nat)
  | blockFinish (q : Q) (timeout : UInt32) (began : Nat) (notified : Bool) (notify : UInt32)
  | wakeOneLock (q : Q) (reason : UInt32)
  | wakeAllLock (q : Q) (reason : UInt32)
  | setPriorityEnter (t : T) (priority : Int)
  | setPriorityLock (t : T) (priority : Int)
  | abortEnter (t : T)
  | abortLock (t : T)
  | abortDelete (t : T)
  | abortGive (t : T)
  | abortSignal (t : T)
  | exitComplete
  | exitGive
  | exitSignal
  | exitDelete
  deriving DecidableEq

/-- The API calls; `os_mutex_trylock` is `lock` with timeout 0. A thread makes `exit` when its
entry function returns. -/
inductive Op (T M Q : Type) where
  | lock (mutex : M) (timeout : UInt32)
  | unlock (mutex : M)
  | deinit (mutex : M)
  | block (q : Q) (timeout : UInt32)
  | wakeOne (q : Q) (reason : UInt32)
  | wakeAll (q : Q) (reason : UInt32)
  | setPriority (t : T) (priority : Int)
  | abort (t : T)
  | exit

/-- `os_mutex_trylock`. -/
def Op.trylock (mutex : M) : Op T M Q := .lock mutex 0

def Op.entry : Op T M Q → Pc T M Q
  | .lock mutex timeout => .lockEnter mutex timeout
  | .unlock mutex => .unlockEnter mutex
  | .deinit mutex => .deinitEnter mutex
  | .block q timeout => .blockEnter q timeout
  | .wakeOne q reason => .wakeOneLock q reason
  | .wakeAll q reason => .wakeAllLock q reason
  | .setPriority t priority => .setPriorityEnter t priority
  | .abort t => .abortEnter t
  | .exit => .exitComplete

variable {T M Q N : Type} [DecidableEq T] [DecidableEq M] [DecidableEq Q] [DecidableEq N]

/-- The completion semaphore and flags of a thread. -/
def Mem.setCompletion (m : Mem T M Q) (t : T) (v : HazelOsal.OsThread) : Mem T M Q :=
  m.setThread t { m.thread t with toOsThread := v }

/-- The next step of a call; `none` while it waits. -/
def callStep (port : Port) (c : Caller T N) (m : Mem T M Q) :
    Pc T M Q → Option (Mem T M Q × Pc T M Q)
  | .idle | .done _ => none
  -- os_mutex_lock
  | .lockEnter mu timeout =>
    if !(m.mutex mu).initialized then some (m, .done (-EINVAL))
    else if c.inIsr then some (m, .done (-EWOULDBLOCK))
    else if c.current.isNone then some (m, .done (-EINVAL))
    else some (m, .lockStart mu timeout)
  | .lockStart mu timeout => some (m, .lockTry mu timeout m.tick)
  | .lockTry mu timeout start => c.current.map fun t =>
    let (m, next) := osMutexLockTry port m t mu timeout start
    (m, match next with
      | .ret result => .done result
      | .wait remaining => .lockNotifyWait mu timeout start remaining)
  | .lockNotifyWait mu timeout start remaining => c.current.map fun t =>
    match m.notification t with
    | some _ => (m.takeNotification t, .lockFinish mu timeout start true)
    | none => (m, .lockWaiting mu timeout start (port.expiry m.tick (port.ticksToWait remaining)))
  | .lockWaiting mu timeout start _ => c.current.bind fun t =>
    (m.notification t).map fun _ => (m.takeNotification t, .lockFinish mu timeout start true)
  | .lockFinish mu timeout start notified => c.current.map fun t =>
    let (m, result) := osMutexLockFinish port m t mu notified
    (m, match result with
      | some result => .done result
      | none => .lockTry mu timeout start)
  -- os_mutex_unlock
  | .unlockEnter mu =>
    if !(m.mutex mu).initialized then some (m, .done (-EINVAL))
    else if c.inIsr then some (m, .done (-EWOULDBLOCK))
    else if c.current.isNone then some (m, .done (-EINVAL))
    else some (m, .unlockLock mu)
  | .unlockLock mu => c.current.map fun t =>
    let (m, result) := osMutexUnlockCritical port m t mu
    (m, .done result)
  -- os_mutex_deinit
  | .deinitEnter mu =>
    if !(m.mutex mu).initialized then some (m, .done (-EINVAL))
    else if c.inIsr then some (m, .done (-EWOULDBLOCK))
    else some (m, .deinitLock mu)
  | .deinitLock mu =>
    let (m, result) := osMutexDeinitCritical m mu
    some (m, match result with
      | some result => .done result
      | none => .deinitZero mu)
  | .deinitZero mu => some (osMutexDeinitZero m mu, .done 0)
  -- os_waitq_block
  | .blockEnter q timeout =>
    if c.inIsr then some (m, .done (-EWOULDBLOCK))
    else if c.current.isNone then some (m, .done (-EINVAL))
    else some (m, .blockLock q timeout)
  | .blockLock q timeout => c.current.map fun t =>
    (osWaitqBlockEnqueue m t q, .blockNotifyWait q timeout m.tick)
  | .blockNotifyWait q timeout began => c.current.map fun t =>
    match m.notification t with
    | some value => (m.takeNotification t, .blockFinish q timeout began true value)
    | none => (m, .blockWaiting q timeout began (port.expiry m.tick (port.ticksToWait timeout)))
  | .blockWaiting q timeout began _ => c.current.bind fun t =>
    (m.notification t).map fun value =>
      (m.takeNotification t, .blockFinish q timeout began true value)
  | .blockFinish _ _ _ notified notify => c.current.map fun t =>
    let (m, result) := osWaitqBlockFinish m t notified notify
    (m, .done result)
  -- os_waitq_wake_one and os_waitq_wake_all
  | .wakeOneLock q reason => some (osWaitqWakeHead m q reason, .idle)
  | .wakeAllLock q reason => some (osWaitqWakeAll m q reason, .idle)
  -- os_thread_set_priority
  | .setPriorityEnter t priority =>
    if !(m.thread t).handle then some (m, .idle) else some (m, .setPriorityLock t priority)
  | .setPriorityLock t priority => some (osThreadSetPriorityCritical port m t priority, .idle)
  -- os_thread_abort
  | .abortEnter t =>
    if !(m.thread t).handle || !(m.thread t).completion.handle then some (m, .done (-EINVAL))
    else if c.inIsr then some (m, .done (-EWOULDBLOCK))
    else some (m, .abortLock t)
  | .abortLock t =>
    let (m, result) := osThreadAbortCritical port m t
    some (m, match result with
      | some result => .done result
      | none => if c.current = some t then .abortGive t else .abortDelete t)
  | .abortDelete t =>
    some (m.vTaskDelete t, if c.current = some t then .idle else .abortGive t)
  | .abortGive t => some (m.setCompletion t (m.thread t).entryGive, .abortSignal t)
  | .abortSignal t =>
    some (m.setCompletion t (m.thread t).entrySignal,
      if c.current = some t then .abortDelete t else .done 0)
  -- os_task_entry
  | .exitComplete => c.current.map fun t =>
    (m.setThread t
      { m.thread t with toOsThread := (m.thread t).entryComplete, state := .terminated }, .exitGive)
  | .exitGive => c.current.map fun t => (m.setCompletion t (m.thread t).entryGive, .exitSignal)
  | .exitSignal => c.current.map fun t => (m.setCompletion t (m.thread t).entrySignal, .exitDelete)
  | .exitDelete => c.current.map fun t => (m.vTaskDelete t, .idle)

/-- A native wait ends without a notification. -/
def callExpire (c : Caller T N) (m : Mem T M Q) : Pc T M Q → Option (Pc T M Q)
  | .lockWaiting mu timeout start (some expiry) => c.current.bind fun t =>
    if m.notification t = none ∧ expiry ≤ m.tick then some (.lockFinish mu timeout start false)
    else none
  | .blockWaiting q timeout began (some expiry) => c.current.bind fun t =>
    if m.notification t = none ∧ expiry ≤ m.tick then
      some (.blockFinish q timeout began false 0)
    else none
  | _ => none

/-- No call is in progress. -/
def Pc.free : Pc T M Q → Bool
  | .idle | .done _ => true
  | _ => false

/-- The state of the whole system. -/
structure State (T M Q N : Type) where
  mem : Mem T M Q
  call : Caller T N → Pc T M Q

namespace State

variable (s : State T M Q N)
omit [DecidableEq M] [DecidableEq Q]

def setCall (c : Caller T N) (m : Mem T M Q) (p : Pc T M Q) : State T M Q N :=
  { s with mem := m, call := Function.update s.call c p }

@[simp] theorem setCall_mem (c : Caller T N) (m : Mem T M Q) (p : Pc T M Q) :
    (s.setCall c m p).mem = m := rfl

theorem setCall_call (c d : Caller T N) (m : Mem T M Q) (p : Pc T M Q) :
    (s.setCall c m p).call d = if d = c then p else s.call d := Function.update_apply ..

/-- The native task of the context exists. -/
def alive (c : Caller T N) : Bool := c.current.all fun t => !s.mem.deleted t

end State

/-- What may happen next. -/
inductive Act (T M Q N : Type) where
  | call (c : Caller T N) (op : Op T M Q)
  | step (c : Caller T N)
  | expire (c : Caller T N)
  | tick

def step (port : Port) (s : State T M Q N) : Act T M Q N → Option (State T M Q N)
  | .call c op => if s.alive c && (s.call c).free then some (s.setCall c s.mem op.entry) else none
  | .step c =>
    if s.alive c then (callStep port c s.mem (s.call c)).map fun (m, p) => s.setCall c m p
    else none
  | .expire c =>
    if s.alive c then (callExpire c s.mem (s.call c)).map fun p => s.setCall c s.mem p else none
  | .tick => some { s with mem := { s.mem with tick := s.mem.tick + 1 } }

/-- The kinds of steps, with the tests that have succeeded. -/
inductive StepCase (port : Port) (s : State T M Q N) : Act T M Q N → State T M Q N → Prop
  | call {c : Caller T N} {op : Op T M Q} (ha : s.alive c) (hf : (s.call c).free) :
    StepCase port s (.call c op) (s.setCall c s.mem op.entry)
  | step {c : Caller T N} {m' : Mem T M Q} {p' : Pc T M Q} (ha : s.alive c)
    (h : callStep port c s.mem (s.call c) = some (m', p')) :
    StepCase port s (.step c) (s.setCall c m' p')
  | expire {c : Caller T N} {p' : Pc T M Q} (ha : s.alive c)
    (h : callExpire c s.mem (s.call c) = some p') :
    StepCase port s (.expire c) (s.setCall c s.mem p')
  | tick : StepCase port s .tick { s with mem := { s.mem with tick := s.mem.tick + 1 } }

theorem step_cases {port : Port} {s s' : State T M Q N} {a : Act T M Q N}
    (h : step port s a = some s') : StepCase port s a s' := by
  cases a with
  | call c op =>
    obtain ⟨hc, h⟩ := Option.ite_none_right_eq_some.mp h
    cases h
    rw [Bool.and_eq_true] at hc
    exact .call hc.1 hc.2
  | step c =>
    obtain ⟨ha, h⟩ := Option.ite_none_right_eq_some.mp h
    obtain ⟨⟨m', p'⟩, hc, h⟩ := Option.map_eq_some_iff.mp h
    cases h
    exact .step ha hc
  | expire c =>
    obtain ⟨ha, h⟩ := Option.ite_none_right_eq_some.mp h
    obtain ⟨p', hc, h⟩ := Option.map_eq_some_iff.mp h
    cases h
    exact .expire ha hc
  | tick => cases h; exact .tick

/-- Every thread has just been created, with the priority `prio` gives, and every mutex is
initialized or zeroed storage. -/
structure Init (port : Port) (prio : T → Int) (s : State T M Q N) : Prop where
  thread : ∀ t, s.mem.thread t = osThreadCreate (prio t)
  mutex : ∀ mu, ∃ initialized, s.mem.mutex mu = osMutexZero initialized
  queue : ∀ q, s.mem.queue q = []
  uxPriority : ∀ t, s.mem.uxPriority t = port.nativePriority (prio t)
  notification : ∀ t, s.mem.notification t = none
  deleted : ∀ t, s.mem.deleted t = false
  hist : s.mem.hist = .empty
  call : ∀ c, s.call c = .idle

/-- The initial state in which every mutex is initialized. -/
def State.initial (port : Port) (prio : T → Int) : State T M Q N where
  mem :=
    { thread := fun t => osThreadCreate (prio t)
      mutex := fun _ => osMutexZero true
      queue := fun _ => []
      uxPriority := fun t => port.nativePriority (prio t)
      notification := fun _ => none
      deleted := fun _ => false
      tick := 0
      hist := .empty }
  call := fun _ => .idle

omit [DecidableEq T] [DecidableEq M] [DecidableEq Q] [DecidableEq N] in
theorem State.init_initial (port : Port) (prio : T → Int) :
    Init port prio (.initial port prio : State T M Q N) :=
  ⟨fun _ => rfl, fun _ => ⟨true, rfl⟩, fun _ => rfl, fun _ => rfl, fun _ => rfl, fun _ => rfl,
    rfl, fun _ => rfl⟩

/-- A call and its first `n` steps. -/
def callSteps (c : Caller T N) (op : Op T M Q) (n : Nat) : List (Act T M Q N) :=
  .call c op :: List.replicate n (.step c)

/-- Two threads wait for a mutex, and its owner is about to unlock it. -/
def twoWaitersRun (owner first second : T) : List (Act T Unit Unit Unit) :=
  callSteps (.thread owner) (.lock () OS_WAIT_FOREVER) 3 ++
    callSteps (.thread first) (.lock () OS_WAIT_FOREVER) 3 ++
    callSteps (.thread second) (.lock () OS_WAIT_FOREVER) 3 ++
    callSteps (.thread owner) (.unlock ()) 1

/-- The wait queues and mutexes of the backend. -/
def system (port : Port) (prio : T → Int) : System (State T M Q N) (Act T M Q N) where
  init := Init port prio
  step := step port

end HazelOsal.FreeRtos
