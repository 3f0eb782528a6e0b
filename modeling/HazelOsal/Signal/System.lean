import HazelOsal.Kernel.Thread
import HazelOsal.Library.Callers
import HazelOsal.Library.Mailbox

/-! # The signal: data model, calls and the whole system

`signal.c`, with one definition for each `os_enter_critical` … `os_exit_critical` block. A step is
one semaphore operation outside a critical section, one critical section, or one read outside both;
any number of callers interleave their steps in any order. The null checks on pointers are left out
with the pointers, and a wait with a finite timeout may end whenever no token is there. -/

namespace HazelOsal

/-- The loop of `os_signal_reset`, with at most `n` tokens left to take. -/
def OsSem.drain {limit : Nat} (sem : OsSem limit) : Nat → OsSem limit
  | 0 => sem
  | n + 1 =>
    match sem.tryTake with
    | some sem => sem.drain n
    | none => sem

theorem OsSem.drain_handle {limit n : Nat} {sem : OsSem limit} :
    (sem.drain n).handle = sem.handle := by
  induction n generalizing sem with
  | zero => rfl
  | succ n ih =>
    rw [drain]
    split
    case h_1 ht => exact ih.trans (tryTake_eq_some ht).1
    case h_2 => rfl

/-- The loop ends because no token is left. -/
theorem OsSem.drain_count {limit n : Nat} {sem : OsSem limit} (hs : sem.handle = true)
    (hn : sem.count ≤ n) : (sem.drain n).count = 0 := by
  induction n generalizing sem with
  | zero => exact Nat.le_zero.mp hn
  | succ n ih =>
    rw [drain]
    split
    case h_1 ht =>
      obtain ⟨hhandle, hcount⟩ := tryTake_eq_some ht
      exact ih (hhandle.trans hs) (by omega)
    case h_2 ht => exact tryTake_eq_none hs ht

namespace Signal

open TransitionSystem

variable {T N : Type} [DecidableEq T] [DecidableEq N]

/-- `struct os_signal`. -/
structure OsSignal where
  notification : OsSem 1
  result : Int
  raised : Bool
  initialized : Bool

/-- The signal, and the record of the successful raises, the waits that have begun, those that have
returned a result, and the resets. No modelled function reads the record. -/
structure Mem (T N : Type) where
  signal : OsSignal
  log : List (MailEvent (Caller T N) Int)

namespace Mem

variable (m : Mem T N)

def setNotification (notification : OsSem 1) : Mem T N :=
  { m with signal := { m.signal with notification } }

def record (e : MailEvent (Caller T N) Int) : Mem T N := { m with log := m.log ++ [e] }

end Mem

/-- The critical section of `os_signal_raise`; `none` where it fails with `-EBUSY`. -/
def osSignalRaiseCritical (m : Mem T N) (result : Int) : Option (Mem T N) :=
  if m.signal.raised then none
  else
    let signal := { m.signal with result, raised := true }
    some (Mem.record { m with signal := { signal with notification := signal.notification.give } }
      (.raise result))

/-- The critical section of `os_signal_wait`, and the result that it returns. -/
def osSignalWaitCritical (c : Caller T N) (m : Mem T N) : Mem T N × Int :=
  let result := m.signal.result
  (Mem.record { m with signal := { m.signal with raised := false } } (.deliver c result), result)

/-- The critical section of `os_signal_reset`. -/
def osSignalResetCritical (m : Mem T N) : Mem T N :=
  let notification := m.signal.notification.drain m.signal.notification.count
  let signal := { m.signal with notification, raised := false, result := 0 }
  Mem.record { m with signal } .reset

/-- `received` is the return of 0 by `os_signal_wait` with the given result. -/
inductive Pc where
  | idle
  | done (result : Int)
  | received (result : Int)
  | raiseEnter (result : Int)
  | raiseCritical (result : Int)
  | waitEnter (timeout : UInt32)
  | waitTake (timeout : UInt32)
  | waitWaiting (timeout : UInt32)
  | waitCritical
  | resetEnter
  | resetCritical
  deriving DecidableEq

/-- The API calls. -/
inductive Op where
  | raise (result : Int)
  | wait (timeout : UInt32)
  | reset

def Op.entry : Op → Pc
  | .raise result => .raiseEnter result
  | .wait timeout => .waitEnter timeout
  | .reset => .resetEnter

namespace Pc

/-- No call is in progress. -/
def free : Pc → Bool
  | .idle | .done _ | .received _ => true
  | _ => false

/-- The call is a wait between its take and its critical section. -/
def gap : Pc → Option Unit
  | .waitCritical => some ()
  | _ => none

theorem eq_of_gap {p : Pc} (h : p.gap = some ()) : p = .waitCritical := by
  cases p <;> first | rfl | cases h

end Pc

/-- The next step of a call; `none` while it waits. -/
def callStep (c : Caller T N) (m : Mem T N) : Pc → Option (Mem T N × Pc)
  | .idle | .done _ | .received _ => none
  -- os_signal_raise
  | .raiseEnter result =>
    some (m, if m.signal.initialized then .raiseCritical result else .done (-EINVAL))
  | .raiseCritical result =>
    match osSignalRaiseCritical m result with
    | some m => some (m, .done 0)
    | none => some (m, .done (-EBUSY))
  -- os_signal_wait
  | .waitEnter timeout =>
    some (m.record (.wait c), if m.signal.initialized then .waitTake timeout else .done (-EINVAL))
  | .waitTake timeout =>
    match m.signal.notification.take c.inIsr timeout with
    | .fail result => some (m, .done result)
    | .taken notification => some (m.setNotification notification, .waitCritical)
    | .wait => some (m, .waitWaiting timeout)
  | .waitWaiting _ =>
    m.signal.notification.tryTake.map fun notification =>
      (m.setNotification notification, .waitCritical)
  | .waitCritical =>
    let (m, result) := osSignalWaitCritical c m
    some (m, .received result)
  -- os_signal_reset
  | .resetEnter => some (m, if m.signal.initialized then .resetCritical else .done (-EINVAL))
  | .resetCritical => some (osSignalResetCritical m, .done 0)

/-- A wait for the notification ends without a token. -/
def callExpire (m : Mem T N) : Pc → Option Pc
  | .waitWaiting timeout =>
    if timeout ≠ OS_WAIT_FOREVER ∧ m.signal.notification.count = 0 then some (.done (-ETIMEDOUT))
    else none
  | _ => none

/-- What the users of the signal run. -/
def program : Program (Caller T N) (Mem T N) Pc Op Empty where
  free := Pc.free
  entry := Op.entry
  step := callStep
  expire := callExpire
  event := fun _ _ => none

abbrev State (T N : Type) := Callers (Caller T N) (Mem T N) Pc

abbrev Act (T N : Type) := CallAct (Caller T N) Op Empty

/-- `os_signal_init` has just succeeded. -/
def Mem.initial : Mem T N where
  signal :=
    { notification := .init
      result := 0
      raised := false
      initialized := true }
  log := []

/-- The users of the signal. -/
def system : System (State T N) (Act T N) := program.system (· = .initial) .idle

/-! ## What a step does -/

/-- The steps of a call at `p`. -/
inductive Effect (c : Caller T N) (m : Mem T N) : Pc → Mem T N → Pc → Prop
  | quiet (hp : p.gap = none) (hp' : p'.gap = none) : Effect c m p m p'
  | wait (hp : p.gap = none) (hp' : p'.gap = none) : Effect c m p (m.record (.wait c)) p'
  | take (hp : p.gap = none) (ht : m.signal.notification.tryTake = some notification) :
    Effect c m p (m.setNotification notification) .waitCritical
  | raise (hr : osSignalRaiseCritical m result = some m') :
    Effect c m (.raiseCritical result) m' (.done 0)
  | receive : Effect c m .waitCritical (osSignalWaitCritical c m).1
    (.received (osSignalWaitCritical c m).2)
  | reset : Effect c m .resetCritical (osSignalResetCritical m) (.done 0)

section
variable {c : Caller T N} {m m' : Mem T N} {p p' : Pc}
omit [DecidableEq N] [DecidableEq T]

theorem callStep_effect (h : callStep c m p = some (m', p')) : Effect c m p m' p' := by
  cases p with
  | idle | done | received => cases h
  | raiseEnter | resetEnter =>
    cases h
    split
    all_goals exact .quiet rfl rfl
  | raiseCritical result =>
    simp only [callStep] at h
    split at h
    case h_1 hr => cases h; exact .raise hr
    case h_2 => cases h; exact .quiet rfl rfl
  | waitEnter timeout =>
    cases h
    split
    all_goals exact .wait rfl rfl
  | waitTake timeout =>
    simp only [callStep] at h
    split at h
    case h_1 => cases h; exact .quiet rfl rfl
    case h_2 ht => cases h; exact .take rfl (OsSem.take_eq_taken ht)
    case h_3 => cases h; exact .quiet rfl rfl
  | waitWaiting =>
    obtain ⟨notification, ht, h⟩ := Option.map_eq_some_iff.mp h
    cases h
    exact .take rfl ht
  | waitCritical => cases h; exact .receive
  | resetCritical => cases h; exact .reset

/-- A call whose wait ends was waiting, and fails. -/
theorem callExpire_eq (h : callExpire m p = some p') :
    p.gap = none ∧ p' = .done (-ETIMEDOUT) := by
  cases p with
  | waitWaiting =>
    obtain ⟨-, h⟩ := Option.ite_none_right_eq_some.mp h
    exact ⟨rfl, (Option.some.inj h).symm⟩
  | _ => cases h

end

end Signal

end HazelOsal
