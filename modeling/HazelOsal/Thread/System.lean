import HazelOsal.Library.Callers
import HazelOsal.Thread.State

/-! # Joins, deletes and the whole system

`Pc` is the point a caller of `os_thread_join` or `os_thread_delete` has reached; behind its first
critical section it carries the incarnation that it is about. A step is one critical section or one
operation on the native semaphore. Any number of callers and the tasks of all incarnations
interleave their steps in any order, and a wait with a finite timeout may end whenever no token is
there. Once a join or a delete has returned 0 the object may be created again. -/

namespace HazelOsal.Thread

open TransitionSystem

variable {T N : Type} [DecidableEq T] [DecidableEq N]

/-- `reap` is the call of the reap function; `reapDelete` is behind its critical section on
FreeRTOS, `reapCritical` before it on RT-Thread. -/
inductive Pc where
  | idle
  | done (result : Int)
  | joinEnter (timeout : UInt32)
  | joinBegin (timeout : UInt32)
  | joinTake (k : Nat) (timeout : UInt32)
  | joinWaiting (k : Nat) (timeout : UInt32)
  | joinAbandon (k : Nat) (timeout : UInt32)
  | deleteEnter
  | deleteBegin
  | reap (k : Nat)
  | reapDelete (k : Nat)
  | reapCritical (k : Nat)
  deriving DecidableEq

/-- The API calls. -/
inductive Op where
  | join (timeout : UInt32)
  | delete

def Op.entry : Op → Pc
  | .join timeout => .joinEnter timeout
  | .delete => .deleteEnter

/-- How far the caller is whose turn it is to join or delete. -/
inductive Phase where
  | joining
  | reaping
  | detached
  deriving DecidableEq

namespace Pc

/-- No call is in progress. -/
def free : Pc → Bool
  | .idle | .done _ => true
  | _ => false

/-- The call has set `join_active` and not cleared it, for the given incarnation. -/
def phase : Pc → Option (Phase × Nat)
  | .joinTake k _ | .joinWaiting k _ | .joinAbandon k _ => some (.joining, k)
  | .reap k => some (.reaping, k)
  | .reapCritical k => some (.detached, k)
  | _ => none

/-- The call is about to delete the semaphore of an incarnation, behind its critical section. -/
def deleting : Pc → Option Nat
  | .reapDelete k => some k
  | _ => none

end Pc

/-- The semaphore that a join takes: FreeRTOS reads the pointer in the critical section, RT-Thread
uses the storage in the object. -/
def joinSem (backend : Backend) (m : Mem) (k : Nat) : Nat :=
  match backend with
  | .freeRtos => k
  | .rtThread => m.current

/-- The first step of the reap function. -/
def reapStep (backend : Backend) (m : Mem) (k : Nat) : Mem × Pc :=
  let m := m.countReap k
  match backend with
  | .freeRtos =>
    let object := m.object
    let m := { m with object := object.reap }
    match object.completionHandle with
    | some j => (m, .reapDelete j)
    | none => (m.setJoined k, .done 0)
  | .rtThread => (m.setCompletion m.current (m.completion m.current).deinit, .reapCritical k)

/-- The next step of a call; `none` while it waits. -/
def callStep (backend : Backend) (self : T) (c : Caller T N) (m : Mem) : Pc → Option (Mem × Pc)
  | .idle | .done _ => none
  -- os_thread_join
  | .joinEnter timeout =>
    some (m, if c.inIsr then .done (-EWOULDBLOCK)
      else if c.current = some self then .done (-EDEADLK)
      else .joinBegin timeout)
  | .joinBegin timeout =>
    match m.object.joinBegin with
    | .error result => some (if result = 0 then m.setJoined m.current else m, .done result)
    | .ok k => some ({ m with object := m.object.activate }, .joinTake k timeout)
  | .joinTake k timeout =>
    let j := joinSem backend m k
    match (m.completion j).tryTake with
    | some sem => some (m.setCompletion j sem, .reap k)
    | none => some (m, if timeout = 0 then .joinAbandon k timeout else .joinWaiting k timeout)
  | .joinWaiting k _ =>
    let j := joinSem backend m k
    (m.completion j).tryTake.map fun sem => (m.setCompletion j sem, .reap k)
  | .joinAbandon _ timeout =>
    some ({ m with object := m.object.abandon }, .done (OsThread.joinTimeoutResult timeout))
  -- os_thread_delete
  | .deleteEnter => some (m, if c.inIsr then .done (-EWOULDBLOCK) else .deleteBegin)
  | .deleteBegin =>
    match m.object.deleteBegin with
    | .error result => some (if result = 0 then m.setJoined m.current else m, .done result)
    | .ok k => some ({ m with object := m.object.activate }, .reap k)
  -- os_thread_reap and os_rt_thread_reap
  | .reap k => some (reapStep backend m k)
  | .reapDelete k => some ((m.setCompletion k (m.completion k).deinit).setJoined k, .done 0)
  | .reapCritical k => some ({ m with object := m.object.reap }.setJoined k, .done 0)

/-- A wait for the completion ends without a token. -/
def callExpire (backend : Backend) (m : Mem) : Pc → Option Pc
  | .joinWaiting k timeout =>
    if timeout ≠ OS_WAIT_FOREVER ∧ (m.completion (joinSem backend m k)).count = 0 then
      some (.joinAbandon k timeout)
    else none
  | _ => none

/-- What happens besides the calls. -/
inductive Event where
  | task (k : Nat)
  | create

def event (m : Mem) : Event → Option Mem
  | .task k => m.taskStep k
  | .create => if m.joined m.current then some m.create else none

/-- What the users of a thread run; `self` is the thread. -/
def program (backend : Backend) (self : T) : Program (Caller T N) Mem Pc Op Event where
  free := Pc.free
  entry := Op.entry
  step := callStep backend self
  expire := callExpire backend
  event := fun e m => event m e

abbrev State (T N : Type) := Callers (Caller T N) Mem Pc

abbrev Act (T N : Type) := CallAct (Caller T N) Op Event

/-- A thread that has just been created, and its users. -/
def system (backend : Backend) (self : T) : System (State T N) (Act T N) :=
  (program backend self).system (· = .initial) .idle

/-! ## What a step does -/

/-- The steps of a call at `p`. -/
inductive Effect (backend : Backend) (m : Mem) : Pc → Mem → Pc → Prop
  | quiet (hp : p'.phase = p.phase) (hd : p.deleting = none) (hd' : p'.deleting = none) :
    Effect backend m p m p'
  | zero (hp : p.phase = none) (hd : p.deleting = none)
      (hr : m.object.completionReaped = true) :
    Effect backend m p (m.setJoined m.current) (.done 0)
  | joinBegin (hb : m.object.joinBegin = .ok k) :
    Effect backend m (.joinBegin timeout) { m with object := m.object.activate }
      (.joinTake k timeout)
  | deleteBegin (hb : m.object.deleteBegin = .ok k) :
    Effect backend m .deleteBegin { m with object := m.object.activate } (.reap k)
  | take {k : Nat} {sem : OsSem 1} (hp : p.phase = some (.joining, k)) (hd : p.deleting = none)
      (hw : ∃ timeout, p = .joinTake k timeout ∨ p = .joinWaiting k timeout)
      (ht : (m.completion (joinSem backend m k)).tryTake = some sem) :
    Effect backend m p (m.setCompletion (joinSem backend m k) sem) (.reap k)
  | abandon : Effect backend m (.joinAbandon k timeout) { m with object := m.object.abandon }
    (.done (OsThread.joinTimeoutResult timeout))
  | reap (k : Nat) : Effect backend m (.reap k) (reapStep backend m k).1 (reapStep backend m k).2
  | reapDelete (k : Nat) : Effect backend m (.reapDelete k)
    ((m.setCompletion k (m.completion k).deinit).setJoined k) (.done 0)
  | reapCritical (k : Nat) : Effect backend m (.reapCritical k)
    ({ m with object := m.object.reap }.setJoined k) (.done 0)

section
variable {backend : Backend} {self : T} {c : Caller T N} {m m' : Mem} {p p' : Pc} {k : Nat}
  {thread : Object}

theorem Object.test_eq_ok {busy : Bool} (h : thread.test busy = .ok k) :
    thread.completionReaped = false ∧ thread.completionHandle = some k ∧ busy = false := by
  simp only [Object.test] at h
  split at h
  case isTrue => cases h
  case isFalse hr =>
    split at h
    case h_1 => cases h
    case h_2 hk =>
      split at h
      case isTrue => cases h
      case isFalse hb =>
        cases h
        exact ⟨Bool.eq_false_iff.mpr hr, hk, Bool.eq_false_iff.mpr hb⟩

/-- 0 is returned at once only where the thread has been reaped. -/
theorem Object.test_eq_zero {busy : Bool} (h : thread.test busy = .error 0) :
    thread.completionReaped = true := by
  simp only [Object.test] at h
  split at h
  case isTrue hr => exact hr
  case isFalse =>
    split at h
    case h_1 => cases h
    case h_2 => split at h <;> cases h

omit [DecidableEq N] in
theorem callStep_effect (h : callStep backend self c m p = some (m', p')) :
    Effect backend m p m' p' := by
  cases p with
  | idle | done => cases h
  | joinEnter timeout =>
    cases h
    split
    case isTrue => exact .quiet rfl rfl rfl
    case isFalse => split <;> exact .quiet rfl rfl rfl
  | deleteEnter =>
    cases h
    split <;> exact .quiet rfl rfl rfl
  | joinBegin timeout =>
    simp only [callStep] at h
    split at h
    case h_1 result hb =>
      cases h
      split
      case isTrue hz => subst hz; exact .zero rfl rfl (Object.test_eq_zero hb)
      case isFalse => exact .quiet rfl rfl rfl
    case h_2 hb => cases h; exact .joinBegin hb
  | deleteBegin =>
    simp only [callStep] at h
    split at h
    case h_1 result hb =>
      cases h
      split
      case isTrue hz => subst hz; exact .zero rfl rfl (Object.test_eq_zero hb)
      case isFalse => exact .quiet rfl rfl rfl
    case h_2 hb => cases h; exact .deleteBegin hb
  | joinTake k timeout =>
    simp only [callStep] at h
    split at h
    case h_1 ht => cases h; exact .take rfl rfl ⟨_, .inl rfl⟩ ht
    case h_2 =>
      cases h
      split <;> exact .quiet rfl rfl rfl
  | joinWaiting k timeout =>
    obtain ⟨sem, ht, h⟩ := Option.map_eq_some_iff.mp h
    cases h
    exact .take rfl rfl ⟨_, .inr rfl⟩ ht
  | joinAbandon => cases h; exact .abandon
  | reap k =>
    have he : Effect backend m (.reap k) (reapStep backend m k).1 (reapStep backend m k).2 :=
      .reap k
    rwa [Option.some.inj h] at he
  | reapDelete k => cases h; exact .reapDelete k
  | reapCritical k => cases h; exact .reapCritical k

/-- The callers leave what the tasks write alone. -/
theorem Effect.frame (h : Effect backend m p m' p') : m'.task = m.task ∧ m'.current = m.current ∧
    m'.object.completed = m.object.completed ∧
    m'.object.completionSignaled = m.object.completionSignaled := by
  cases h with
  | quiet | zero | joinBegin | deleteBegin | take | abandon | reapDelete | reapCritical =>
    exact ⟨rfl, rfl, rfl, rfl⟩
  | reap k =>
    cases backend with
    | freeRtos =>
      simp only [reapStep]
      split <;> exact ⟨rfl, rfl, rfl, rfl⟩
    | rtThread => exact ⟨rfl, rfl, rfl, rfl⟩

/-- A wait that ends without a token goes on to give the turn back. -/
theorem callExpire_eq (h : callExpire backend m p = some p') :
    p'.phase = p.phase ∧ p.deleting = none ∧ p'.deleting = none := by
  cases p with
  | joinWaiting =>
    obtain ⟨-, h⟩ := Option.ite_none_right_eq_some.mp h
    cases h
    exact ⟨rfl, rfl, rfl⟩
  | _ => cases h

end

end HazelOsal.Thread
