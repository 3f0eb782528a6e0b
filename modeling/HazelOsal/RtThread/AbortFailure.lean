import HazelOsal.RtThread.Slot

/-! # Aborts that fail

`os_thread_abort` when `rt_thread_detach` or `rt_thread_delete` returns an error, in runs in which
threads are cancelled as well. The target has left its wait queue and been cancelled before the
native call, and the critical section behind it takes neither back. -/

namespace HazelOsal.RtThread

open TransitionSystem

variable {T Q N : Type} [DecidableEq T] [DecidableEq Q] [DecidableEq N]

/-! ## Cancellation -/

/-- `os_thread_cancel`: its tests and its critical section. -/
def osThreadCancel (c : Caller T N) (m : Mem T Q) (t : T) : Mem T Q × Int :=
  if !(m.thread t).handle then (m, -EINVAL)
  else if c.inIsr then (m, -EWOULDBLOCK)
  else if (m.thread t).completed then (m, -EALREADY)
  else (m.setThread t { m.thread t with cancelRequested := true }, 0)

/-- `os_thread_cancel_requested`. -/
def osThreadCancelRequested (c : Caller T N) (m : Mem T Q) : Bool :=
  match c.current with
  | some t => (m.thread t).cancelRequested
  | none => false

/-- `os_thread_test_cancel`. -/
def osThreadTestCancel (c : Caller T N) (m : Mem T Q) : Int :=
  if osThreadCancelRequested c m then -ECANCELED else 0

/-- What may happen next where threads are also cancelled. -/
inductive CancelAct (T Q N : Type) where
  | act (a : Act T Q N)
  | cancel (c : Caller T N) (t : T)

def cancelStep (port : Port) (s : State T Q N) : CancelAct T Q N → Option (State T Q N)
  | .act a => step port s a
  | .cancel c t =>
    if s.alive c && (s.call c).free then
      let (m, result) := osThreadCancel c s.mem t
      some (s.setCall c m (.done result))
    else none

/-- The wait queues of the backend and `os_thread_cancel`. -/
def cancelSystem (port : Port) (prio : T → Int) : System (State T Q N) (CancelAct T Q N) where
  init := Init port prio
  step := cancelStep port

/-! ## Threads that have not completed -/

/-- A thread that has not completed has not been aborted, and it is ready unless it is on a wait
queue. -/
def OsThread.Live (v : OsThread Q) : Prop :=
  v.completed = false → v.aborted = false ∧ (v.waitQ = none → v.state = .ready)

def AllLive (m : Mem T Q) : Prop := ∀ t, (m.thread t).Live

section
variable {port : Port} {prio : T → Int} {s s' : State T Q N} {a : CancelAct T Q N}
  {c : Caller T N} {m m' : Mem T Q} {p p' : Pc T Q} {t : T} {q : Q} {reason : UInt32}
  {v : OsThread Q}

omit [DecidableEq Q] in
theorem AllLive.setThread (h : AllLive m) (hv : v.Live) : AllLive (m.setThread t v) := by
  intro u
  rw [Mem.setThread_thread, Function.update_apply]
  split
  case isTrue => exact hv
  case isFalse => exact h u

theorem AllLive.waitqWakeHead (h : AllLive m) : AllLive (osWaitqWakeHead m q reason) := by
  rw [osWaitqWakeHead]
  split
  case h_1 => exact h
  case h_2 t rest _ =>
    exact h.setThread (m := m.setQueue q rest) fun hc => ⟨(h t hc).1, fun _ => rfl⟩

omit [DecidableEq Q] in
theorem AllLive.waitqBlockFinish {result : Int} (h : AllLive m) :
    AllLive (osWaitqBlockFinish m t result).1 := by
  rw [osWaitqBlockFinish]
  split
  · exact h.setThread (m := m.unlinkWait t) fun hc => ⟨(h t hc).1, fun _ => rfl⟩
  · exact h.setThread fun hc => ⟨(h t hc).1, fun _ => rfl⟩

omit [DecidableEq Q] in
theorem abortDequeue_thread_ne {u : T} (h : u ≠ t) :
    (osThreadAbortDequeue m t).thread u = m.thread u := by
  rw [osThreadAbortDequeue]
  split
  · simp [Function.update_of_ne h]
  · rfl

omit [DecidableEq Q] in
theorem AllLive.threadAbortCritical (h : AllLive m) : AllLive (osThreadAbortCritical m t).1 := by
  rw [osThreadAbortCritical]
  split
  case isTrue => exact h
  case isFalse =>
    intro u
    rw [Mem.setThread_thread, Function.update_apply]
    split
    case isTrue => exact fun hc => by cases hc
    case isFalse hne =>
      rw [abortDequeue_thread_ne hne]
      exact h u

omit [DecidableEq N] in
/-- A critical section leaves the threads live. -/
theorem AllLive.callStep (h : AllLive m) (hs : callStep port c m p = some (m', p')) :
    AllLive m' := by
  cases p with
  | idle | done => cases hs
  | blockEnter | abortEnter | setPriorityEnter =>
    simp only [RtThread.callStep] at hs
    repeat' split at hs
    all_goals cases hs; exact h
  | blockLock q =>
    obtain ⟨t, -, hs⟩ := Option.map_eq_some_iff.mp hs
    cases hs
    exact h.setThread (m := m.record t none) fun hc => ⟨(h t hc).1, fun hw => by cases hw⟩
  | blockTake =>
    obtain ⟨t, -, hs⟩ := Option.map_eq_some_iff.mp hs
    split at hs
    case h_1 => cases hs; exact h
    case h_2 => split at hs <;> cases hs <;> exact h
  | blockWaiting =>
    obtain ⟨t, -, hs⟩ := Option.bind_eq_some_iff.mp hs
    obtain ⟨sem, -, hs⟩ := Option.map_eq_some_iff.mp hs
    cases hs
    exact h
  | blockFinish =>
    obtain ⟨t, -, hs⟩ := Option.map_eq_some_iff.mp hs
    cases hs
    exact h.waitqBlockFinish
  | wakeOneLock => cases hs; exact h.waitqWakeHead
  | wakeAllLock => cases hs; exact wakeAll_induction h fun _ h => h.waitqWakeHead
  | setPriorityLock =>
    cases hs
    rw [osThreadSetPriorityRequeue]
    split <;> exact h
  | abortLock t =>
    cases hs
    exact h.threadAbortCritical
  | abortRestore t => cases hs; exact h.setThread fun _ => ⟨rfl, fun _ => rfl⟩
  | exitComplete =>
    obtain ⟨t, -, hs⟩ := Option.map_eq_some_iff.mp hs
    cases hs
    exact h.setThread fun hc => by cases hc
  | exitGive | exitSignal =>
    obtain ⟨t, -, hs⟩ := Option.map_eq_some_iff.mp hs
    cases hs
    exact h.setThread (h t)
  | exitNative =>
    obtain ⟨t, -, hs⟩ := Option.map_eq_some_iff.mp hs
    cases hs
    exact h
  | setPriorityBase t | abortGive t | abortSignal t => cases hs; exact h.setThread (h t)
  | setPriorityControl | abortDetach => cases hs; exact h

omit [DecidableEq Q] [DecidableEq N] in
theorem AllLive.threadCancel (h : AllLive m) : AllLive (osThreadCancel c m t).1 := by
  rw [osThreadCancel]
  repeat' split
  all_goals first | exact h | exact h.setThread (h t)

theorem AllLive.step (h : AllLive s.mem) (hs : cancelStep port s a = some s') :
    AllLive s'.mem := by
  cases a with
  | act a =>
    cases step_cases hs with
    | call | expire | fail | inherit | tick => exact h
    | step hstep => exact h.callStep hstep
  | cancel c t =>
    obtain ⟨-, hs⟩ := Option.ite_none_right_eq_some.mp hs
    cases hs
    exact h.threadCancel

theorem allLive_of_reachable
    (h : Reachable (cancelSystem port prio : System (State T Q N) _) s) : AllLive s.mem := by
  refine h.invariant (I := fun s => AllLive s.mem) (fun s (h : Init port prio s) t => ?_)
    fun s a s' _ hl _ hs => hl.step hs
  rw [h.thread]
  exact fun _ => ⟨rfl, fun _ => rfl⟩

/-! ## An abort that fails -/

/-- The steps of `os_thread_abort` where the native call returns an error. -/
def failedAbort (c : Caller T N) : List (CancelAct T Q N) :=
  [.act (.step c), .act (.step c), .act (.fail c), .act (.step c)]

/-- The fields of a thread that `os_thread_abort` writes, and the wait queues, are as before. -/
structure Restored (m m' : Mem T Q) (t : T) : Prop where
  completed : (m'.thread t).completed = (m.thread t).completed
  aborted : (m'.thread t).aborted = (m.thread t).aborted
  cancelRequested : (m'.thread t).cancelRequested = (m.thread t).cancelRequested
  state : (m'.thread t).state = (m.thread t).state
  waitQ : (m'.thread t).waitQ = (m.thread t).waitQ
  queue : m'.queue = m.queue

omit [DecidableEq N] in
/-- The tests of `os_thread_abort` change nothing. -/
theorem callStep_abortEnter (hs : callStep port c m (.abortEnter t) = some (m', p')) :
    m' = m ∧ (p' = .abortLock t ∨ ∃ result, p' = .done result) := by
  simp only [callStep] at hs
  repeat' split at hs
  all_goals
    cases hs
    simp

/-- What a failed abort leaves behind. -/
def osThreadAbortFailed (m : Mem T Q) (t : T) : Mem T Q :=
  osThreadAbortRestore (osThreadAbortCritical m t).1 t

theorem step_call {d : Caller T N} (hc : s.call d = p) (hs : step port s (.step d) = some s') :
    ∃ m' p', callStep port d s.mem p = some (m', p') ∧ s'.mem = m' ∧ s'.call d = p' := by
  cases step_cases hs with
  | step hstep =>
    rw [hc] at hstep
    exact ⟨_, _, hstep, rfl, by rw [State.setCall_call, if_pos rfl]⟩

theorem step_fail {d : Caller T N} (hc : s.call d = p) (hs : step port s (.fail d) = some s') :
    callFail p = some (s'.call d) ∧ s'.mem = s.mem := by
  cases step_cases hs with
  | fail hfail =>
    rw [hc] at hfail
    exact ⟨by rw [State.setCall_call, if_pos rfl, hfail], rfl⟩

/-- A failed abort has passed its tests. -/
theorem failedAbort_cases (hc : s.call c = .abortEnter t)
    (hs : exec (cancelSystem port prio) s (failedAbort c) = some s') :
    (s.mem.thread t).completed = false ∧ s'.mem = osThreadAbortFailed s.mem t ∧
      s'.call c = .done (-EINVAL) := by
  obtain ⟨s₁, henter, hs⟩ := Option.bind_eq_some_iff.mp hs
  obtain ⟨s₂, hlock, hs⟩ := Option.bind_eq_some_iff.mp hs
  obtain ⟨s₃, hfail, hs⟩ := Option.bind_eq_some_iff.mp hs
  obtain ⟨s₄, hrestore, hs⟩ := Option.bind_eq_some_iff.mp hs
  cases hs
  obtain ⟨m₁, p₁, henter, hm₁, hc₁⟩ := step_call hc henter
  obtain ⟨m₂, p₂, hlock, hm₂, hc₂⟩ := step_call hc₁ hlock
  have hfail : step port s₂ (.fail c) = some s₃ := hfail
  obtain ⟨hfail, hm₃⟩ := step_fail hc₂ hfail
  rcases callStep_abortEnter henter with ⟨rfl, rfl | ⟨result, rfl⟩⟩
  case inr => cases hlock
  rw [hm₁] at hlock
  cases hcompleted : (s.mem.thread t).completed with
  | true =>
    simp only [callStep, osThreadAbortCritical, hcompleted, if_true] at hlock
    cases hlock
    cases hfail
  | false =>
    have hcritical : p₂ = .abortDetach t ∧ m₂ = (osThreadAbortCritical s.mem t).1 := by
      simp only [callStep, osThreadAbortCritical, hcompleted] at hlock ⊢
      cases hlock
      exact ⟨rfl, rfl⟩
    obtain ⟨rfl, rfl⟩ := hcritical
    obtain ⟨m₄, p₄, hrestore, hm₄, hc₄⟩ := step_call (Option.some.inj hfail).symm hrestore
    rw [hm₃, hm₂] at hrestore
    cases hrestore
    exact ⟨rfl, hm₄, hc₄⟩

omit [DecidableEq Q] in
theorem abortDequeue_thread :
    (osThreadAbortDequeue m t).thread t = { m.thread t with waitQ := none } := by
  rw [osThreadAbortDequeue]
  split
  case isTrue => simp
  case isFalse hw => rw [← not_not.mp hw]

omit [DecidableEq Q] in
/-- The target after a failed abort: off its wait queue, and cancelled. -/
theorem abortFailed_thread (h : (m.thread t).completed = false) :
    (osThreadAbortFailed m t).thread t =
      { m.thread t with
        waitQ := none
        state := .ready
        cancelRequested := true
        aborted := false
        completed := false } := by
  simp [osThreadAbortFailed, osThreadAbortRestore, osThreadAbortCritical, h, abortDequeue_thread]

omit [DecidableEq Q] in
theorem abortFailed_queue (h : (m.thread t).completed = false) (hw : (m.thread t).waitQ = none) :
    (osThreadAbortFailed m t).queue = m.queue := by
  funext q
  simp [osThreadAbortFailed, osThreadAbortRestore, osThreadAbortCritical, h, osThreadAbortDequeue,
    hw]

/-- **A failed abort leaves the target as it was** exactly where that was on no wait queue and its
cancellation had been requested. -/
theorem abort_failure_restores
    (h : Reachable (cancelSystem port prio : System (State T Q N) _) s)
    (hc : s.call c = .abortEnter t)
    (hs : exec (cancelSystem port prio) s (failedAbort c) = some s') :
    s'.call c = .done (-EINVAL) ∧
    (Restored s.mem s'.mem t ↔
      (s.mem.thread t).waitQ = none ∧ (s.mem.thread t).cancelRequested = true) := by
  obtain ⟨hcompleted, hm, hret⟩ := failedAbort_cases hc hs
  refine ⟨hret, ?_⟩
  have hthread := abortFailed_thread hcompleted
  rw [hm]
  constructor
  · intro hr
    have hw := hr.waitQ
    have hcancel := hr.cancelRequested
    rw [hthread] at hw hcancel
    exact ⟨hw.symm, hcancel.symm⟩
  · rintro ⟨hw, hcancel⟩
    obtain ⟨haborted, hready⟩ := allLive_of_reachable h t hcompleted
    constructor
    case queue => exact abortFailed_queue hcompleted hw
    all_goals rw [hthread]
    case completed => exact hcompleted.symm
    case aborted => exact haborted.symm
    case cancelRequested => exact hcancel.symm
    case state => exact (hready hw).symm
    case waitQ => exact hw.symm

end

/-- A thread that has been cancelled, and then is aborted. -/
def cancelledAbort : List (CancelAct Bool Unit Unit) :=
  [.cancel (.task ()) false, .act (.call (.task ()) (.abort false))]

theorem abort_failure_restores_cancelled : ∃ s s' : State Bool Unit Unit,
    exec (cancelSystem ⟨8⟩ fun _ => 1) (.initial ⟨8⟩ fun _ => 1) cancelledAbort = some s ∧
    exec (cancelSystem ⟨8⟩ fun _ => 1) s (failedAbort (.task ())) = some s' ∧
    Restored s.mem s'.mem false := by
  obtain ⟨s, hs, hc, hw, hcancel, hnext⟩ := exists_of_exec cancelledAbort
    (M := cancelSystem ⟨8⟩ fun _ => 1) (s := .initial ⟨8⟩ fun _ => 1)
    (P := fun s : State Bool Unit Unit => s.call (.task ()) = .abortEnter false ∧
      (s.mem.thread false).waitQ = none ∧ (s.mem.thread false).cancelRequested = true ∧
      (exec (cancelSystem ⟨8⟩ fun _ => 1) s (failedAbort (.task ()))).isSome)
    (by decide +kernel)
  obtain ⟨s', hs'⟩ := Option.isSome_iff_exists.mp hnext
  have hreach := reachable_of_exec cancelledAbort (State.init_initial ⟨8⟩ fun _ => 1) hs
  exact ⟨s, s', hs, hs', (abort_failure_restores hreach hc hs').2.mpr ⟨hw, hcancel⟩⟩

/-- A thread waits without a timeout while a task is about to abort it. -/
def waitingAbort : List (CancelAct Bool Unit Unit) :=
  (callSteps (.thread false) (.block () OS_WAIT_FOREVER) 3).map .act ++
    [.act (.call (.task ()) (.abort false))]

/-- The abort of a waiting thread fails: the thread is left off its wait queue, where no wake finds
it, and cancelled. -/
theorem not_abort_failure_restores : ∃ s s' : State Bool Unit Unit,
    exec (cancelSystem ⟨8⟩ fun _ => 1) (.initial ⟨8⟩ fun _ => 1) waitingAbort = some s ∧
    exec (cancelSystem ⟨8⟩ fun _ => 1) s (failedAbort (.task ())) = some s' ∧
    s'.call (.task ()) = .done (-EINVAL) ∧ ¬ Restored s.mem s'.mem false ∧
    (s.mem.queue () = [false] ∧ s'.mem.queue () = []) ∧
    osThreadTestCancel (.thread false : Caller Bool Unit) s.mem = 0 ∧
    osThreadTestCancel (.thread false : Caller Bool Unit) s'.mem = -ECANCELED := by
  obtain ⟨s, hs, hq, hcancel, hnext⟩ := exists_of_exec waitingAbort
    (M := cancelSystem ⟨8⟩ fun _ => 1) (s := .initial ⟨8⟩ fun _ => 1)
    (P := fun s : State Bool Unit Unit => s.mem.queue () = [false] ∧
      osThreadTestCancel (.thread false : Caller Bool Unit) s.mem = 0 ∧
      (exec (cancelSystem ⟨8⟩ fun _ => 1) s (failedAbort (.task ()))).any fun s' =>
        s'.call (.task ()) = .done (-EINVAL) ∧ s'.mem.queue () = [] ∧
        osThreadTestCancel (.thread false : Caller Bool Unit) s'.mem = -ECANCELED)
    (by decide +kernel)
  obtain ⟨s', hs', hafter⟩ := (Option.any_eq_true ..).mp hnext
  obtain ⟨hret, hq', hcancel'⟩ := of_decide_eq_true hafter
  refine ⟨s, s', hs, hs', hret, fun hr => ?_, ⟨hq, hq'⟩, hcancel, hcancel'⟩
  have hqueue := congrFun hr.queue ()
  rw [hq, hq'] at hqueue
  cases hqueue

end HazelOsal.RtThread
