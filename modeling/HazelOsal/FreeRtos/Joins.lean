import HazelOsal.FreeRtos.System

/-! # Joins, deletes and what becomes of the native objects

`os_thread_join`, `os_thread_delete` and `os_thread_reap` of `thread.c`, made by the callers that
also make the calls of `System`: a caller is in one call at a time. A wait for the completion of a
thread with a finite timeout may end whenever no token is there.

`completion.handle` is the pointer in the object, which `os_thread_reap` clears in its critical
section; the native semaphore is deleted in the step behind it. `TaskRecord` counts what is done to
the native task and to this semaphore. No modelled function reads it. -/

namespace HazelOsal.FreeRtos

open TransitionSystem

/-- The point that a call of `os_thread_join` or `os_thread_delete` has reached. -/
inductive JoinPc (T : Type) where
  | idle
  | done (result : Int)
  | joinEnter (t : T) (timeout : UInt32)
  | joinBegin (t : T) (timeout : UInt32)
  | joinTake (t : T) (timeout : UInt32)
  | joinWaiting (t : T) (timeout : UInt32)
  | joinAbandon (t : T) (timeout : UInt32)
  | deleteEnter (t : T)
  | deleteBegin (t : T)
  | reap (t : T)
  | reapDelete (t : T)
  deriving DecidableEq

inductive JoinOp (T : Type) where
  | join (t : T) (timeout : UInt32)
  | delete (t : T)

def JoinOp.entry : JoinOp T → JoinPc T
  | .join t timeout => .joinEnter t timeout
  | .delete t => .deleteEnter t

namespace JoinPc

/-- No call is in progress. -/
def free : JoinPc T → Bool
  | .idle | .done _ => true
  | _ => false

/-- The thread that the call is about to reap, or whose semaphore it is about to delete. -/
def reaping : JoinPc T → Option T
  | .reap t | .reapDelete t => some t
  | _ => none

end JoinPc

variable {T M Q N : Type} [DecidableEq T] [DecidableEq M] [DecidableEq Q] [DecidableEq N]

/-- The critical section of `os_thread_reap`, which also clears `thread->handle`. -/
def Mem.reap (m : Mem T M Q) (t : T) : Mem T M Q :=
  m.setThread t
    { m.thread t with toOsThread := (m.thread t).toOsThread.reap, handle := false }

/-- The next step of a join or a delete; `none` while it waits. -/
def joinStep (c : Caller T N) (m : Mem T M Q) : JoinPc T → Option (Mem T M Q × JoinPc T)
  | .idle | .done _ => none
  -- os_thread_join
  | .joinEnter t timeout =>
    some (m, if c.inIsr then .done (-EWOULDBLOCK)
      else if c.current = some t then .done (-EDEADLK)
      else .joinBegin t timeout)
  | .joinBegin t timeout =>
    let (thread, result) := (m.thread t).joinBegin
    some (m.setCompletion t thread, match result with
      | some result => .done result
      | none => .joinTake t timeout)
  | .joinTake t timeout =>
    match (m.thread t).joinTake with
    | some thread => some (m.setCompletion t thread, .reap t)
    | none => some (m, if timeout = 0 then .joinAbandon t timeout else .joinWaiting t timeout)
  | .joinWaiting t _ =>
    (m.thread t).joinTake.map fun thread => (m.setCompletion t thread, .reap t)
  | .joinAbandon t timeout =>
    some (m.setCompletion t (m.thread t).joinAbandon, .done (OsThread.joinTimeoutResult timeout))
  -- os_thread_delete
  | .deleteEnter t => some (m, if c.inIsr then .done (-EWOULDBLOCK) else .deleteBegin t)
  | .deleteBegin t =>
    let (thread, result) := (m.thread t).deleteBegin
    some (m.setCompletion t thread, match result with
      | some result => .done result
      | none => .reap t)
  -- os_thread_reap
  | .reap t =>
    some (m.reap t, if (m.thread t).completion.handle then .reapDelete t else .done 0)
  | .reapDelete _ => some (m, .done 0)

/-- A wait for the completion ends without a token. -/
def joinExpire (m : Mem T M Q) : JoinPc T → Option (JoinPc T)
  | .joinWaiting t timeout =>
    if timeout ≠ OS_WAIT_FOREVER ∧ (m.thread t).completion.count = 0 then
      some (.joinAbandon t timeout)
    else none
  | _ => none

/-! ## The record -/

/-- `lateGives` counts the gives after the semaphore has been deleted; `byAbort` says that
`os_thread_abort` has deleted the native task. -/
structure TaskRecord where
  deletes : Nat
  gives : Nat
  lateGives : Nat
  byAbort : Bool
  semDeleted : Bool

namespace TaskRecord

def empty : TaskRecord :=
  { deletes := 0, gives := 0, lateGives := 0, byAbort := false, semDeleted := false }

variable (r : TaskRecord)

def delete : TaskRecord := { r with deletes := r.deletes + 1 }

def abortDelete : TaskRecord := { r.delete with byAbort := true }

def give : TaskRecord :=
  { r with
    gives := r.gives + 1
    lateGives := if r.semDeleted then r.lateGives + 1 else r.lateGives }

def semDelete : TaskRecord := { r with semDeleted := true }

end TaskRecord

/-- What the step of a caller that is at `p` does to the task or the semaphore of a thread. -/
def Pc.record (c : Caller T N) : Pc T M Q → Option (T × (TaskRecord → TaskRecord))
  | .abortDelete t => some (t, .abortDelete)
  | .abortGive t => some (t, .give)
  | .exitGive => c.current.map fun t => (t, .give)
  | .exitDelete => c.current.map fun t => (t, .delete)
  | _ => none

def JoinPc.record : JoinPc T → Option (T × (TaskRecord → TaskRecord))
  | .reapDelete t => some (t, .semDelete)
  | _ => none

/-- The records behind a step. -/
def note (record : T → TaskRecord) : Option (T × (TaskRecord → TaskRecord)) → T → TaskRecord
  | some (t, f) => Function.update record t (f (record t))
  | none => record

/-! ## The whole system -/

structure LifeState (T M Q N : Type) where
  base : State T M Q N
  join : Caller T N → JoinPc T
  record : T → TaskRecord

inductive LifeAct (T M Q N : Type) where
  | base (a : Act T M Q N)
  | join (c : Caller T N) (op : JoinOp T)
  | joinStep (c : Caller T N)
  | joinExpire (c : Caller T N)

namespace LifeState

variable (s : LifeState T M Q N)

/-- The next step of a join or a delete, and where it gets. -/
def setJoin (c : Caller T N) (m : Mem T M Q) (p : JoinPc T) : LifeState T M Q N where
  base := { s.base with mem := m }
  join := Function.update s.join c p
  record := note s.record (s.join c).record

/-- A step of a call of `System`. -/
def setBase (c : Caller T N) (base : State T M Q N) : LifeState T M Q N :=
  { s with base, record := note s.record ((s.base.call c).record c) }

end LifeState

def lifeStep (port : Port) (s : LifeState T M Q N) : LifeAct T M Q N → Option (LifeState T M Q N)
  | .base (.call c op) =>
    if (s.join c).free then (step port s.base (.call c op)).map fun base => { s with base }
    else none
  | .base (.step c) => (step port s.base (.step c)).map fun base => s.setBase c base
  | .base a => (step port s.base a).map fun base => { s with base }
  | .join c op =>
    if s.base.alive c && (s.base.call c).free && (s.join c).free then
      some { s with join := Function.update s.join c op.entry }
    else none
  | .joinStep c =>
    if s.base.alive c then
      (joinStep c s.base.mem (s.join c)).map fun (m, p) => s.setJoin c m p
    else none
  | .joinExpire c =>
    if s.base.alive c then
      (joinExpire s.base.mem (s.join c)).map fun p =>
        { s with join := Function.update s.join c p }
    else none

/-- The kinds of steps, with the tests that have succeeded. -/
inductive LifeCase (port : Port) (s : LifeState T M Q N) :
    LifeAct T M Q N → LifeState T M Q N → Prop
  | call (hf : (s.base.call c).free = true) :
    LifeCase port s (.base (.call c op)) { s with base := s.base.setCall c s.base.mem op.entry }
  | step (ha : s.base.alive c = true)
    (h : callStep port c s.base.mem (s.base.call c) = some (m', p')) :
    LifeCase port s (.base (.step c)) (s.setBase c (s.base.setCall c m' p'))
  | expire (h : callExpire c s.base.mem (s.base.call c) = some p') :
    LifeCase port s (.base (.expire c)) { s with base := s.base.setCall c s.base.mem p' }
  | tick : LifeCase port s (.base .tick)
    { s with base := { s.base with mem := { s.base.mem with tick := s.base.mem.tick + 1 } } }
  | join : LifeCase port s (.join c jop) { s with join := Function.update s.join c jop.entry }
  | joinStep (h : joinStep c s.base.mem (s.join c) = some (m', j')) :
    LifeCase port s (.joinStep c) (s.setJoin c m' j')
  | joinExpire (h : joinExpire s.base.mem (s.join c) = some j') :
    LifeCase port s (.joinExpire c) { s with join := Function.update s.join c j' }

theorem lifeStep_cases {port : Port} {s s' : LifeState T M Q N} {a : LifeAct T M Q N}
    (h : lifeStep port s a = some s') : LifeCase port s a s' := by
  cases a with
  | base a =>
    cases a with
    | call c op =>
      obtain ⟨-, h⟩ := Option.ite_none_right_eq_some.mp h
      obtain ⟨base, hs, h⟩ := Option.map_eq_some_iff.mp h
      cases h
      cases step_cases hs with
      | call _ hf => exact .call hf
    | step c =>
      obtain ⟨base, hs, h⟩ := Option.map_eq_some_iff.mp h
      cases h
      cases step_cases hs with
      | step ha hstep => exact .step ha hstep
    | expire c =>
      obtain ⟨base, hs, h⟩ := Option.map_eq_some_iff.mp h
      cases h
      cases step_cases hs with
      | expire _ hexpire => exact .expire hexpire
    | tick => cases h; exact .tick
  | join c op =>
    obtain ⟨-, h⟩ := Option.ite_none_right_eq_some.mp h
    cases h
    exact .join
  | joinStep c =>
    obtain ⟨-, h⟩ := Option.ite_none_right_eq_some.mp h
    obtain ⟨⟨m', p'⟩, hs, h⟩ := Option.map_eq_some_iff.mp h
    cases h
    exact .joinStep hs
  | joinExpire c =>
    obtain ⟨-, h⟩ := Option.ite_none_right_eq_some.mp h
    obtain ⟨p', hs, h⟩ := Option.map_eq_some_iff.mp h
    cases h
    exact .joinExpire hs

structure LifeInit (port : Port) (prio : T → Int) (s : LifeState T M Q N) : Prop where
  base : Init port prio s.base
  join : ∀ c, s.join c = .idle
  record : ∀ t, s.record t = .empty

/-- The initial state in which every mutex is initialized. -/
def LifeState.initial (port : Port) (prio : T → Int) : LifeState T M Q N where
  base := .initial port prio
  join := fun _ => .idle
  record := fun _ => .empty

omit [DecidableEq T] [DecidableEq M] [DecidableEq Q] [DecidableEq N] in
theorem LifeState.init_initial (port : Port) (prio : T → Int) :
    LifeInit port prio (.initial port prio : LifeState T M Q N) :=
  ⟨State.init_initial port prio, fun _ => rfl, fun _ => rfl⟩

/-- The wait queues and mutexes of the backend, with joins. -/
def lifeSystem (port : Port) (prio : T → Int) : System (LifeState T M Q N) (LifeAct T M Q N) where
  init := LifeInit port prio
  step := lifeStep port

end HazelOsal.FreeRtos
