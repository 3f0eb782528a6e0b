import HazelOsal.Event.Adapters
import HazelOsal.Time.Conversion

/-! # Timeouts of the RT-Thread backend

The five calls of the backend that may wait, up to the native call that does. The native calls take
a signed number of ticks, and wait without a timer where it is negative. `os_to_rt_timeout` gives
them a negative number for `OS_WAIT_FOREVER`, and also for the timeouts from 2^31 on. -/

namespace HazelOsal.RtThread

open Event (OsEvent OS_EVENT_BITS_MASK)
open Event.RtThread (recvOption)
open Time (osMsToTicksCeil osMsToTicksCeil_toNat osMsToTicksCeil_ne_forever ticksCeil)
open Uptime (TickRate)

/-! ## Native calls -/

/-- The native calls that may wait. -/
inductive NativeCall where
  | rtSemTrytake
  | rtSemTake (timeout : Int32)
  | rtMutexTake (timeout : Int32)
  | rtEventRecv (set : UInt32) (option : UInt8) (timeout : Int32)
  deriving DecidableEq

/-- The most ticks that a native call waits: none where the number is 0, and any number, without a
timer, where it is negative. -/
def rtWait (timeout : Int32) : Option Nat :=
  if timeout < 0 then none else some timeout.toInt.toNat

def NativeCall.wait : NativeCall → Option Nat
  | .rtSemTrytake => some 0
  | .rtSemTake timeout | .rtMutexTake timeout | .rtEventRecv _ _ timeout => rtWait timeout

/-- How far a call gets without waiting: it returns, or makes a native call. -/
inductive Reached where
  | returned (result : Int)
  | native (call : NativeCall)
  deriving DecidableEq

/-! ## The calls of the backend -/

/-- `os_sem_take` of a semaphore with a handle or without. -/
def osSemTake (handle : Bool) (interruptNest : Nat) (timeout : UInt32) : Reached :=
  if !handle then .returned (-EINVAL)
  else if interruptNest ≠ 0 ∧ timeout ≠ 0 then .returned (-EWOULDBLOCK)
  else
    let ticks := if timeout = OS_WAIT_FOREVER then RT_WAITING_FOREVER else timeout.toInt32
    .native (if timeout = 0 then .rtSemTrytake else .rtSemTake ticks)

/-- `os_mutex_lock`. -/
def osMutexLock (initialized nativeHandle inIsr : Bool) (timeout : UInt32) : Reached :=
  if !initialized || !nativeHandle then .returned (-EINVAL)
  else if inIsr then .returned (-EWOULDBLOCK)
  else .native (.rtMutexTake (osToRtTimeout timeout))

/-- `os_waitq_block`; `current` says whether the caller is an OSAL thread. -/
def osWaitqBlock (inIsr current : Bool) (timeout : UInt32) : Reached :=
  if inIsr then .returned (-EWOULDBLOCK)
  else if !current then .returned (-EINVAL)
  else .native (.rtSemTake (osToRtTimeout timeout))

/-- `os_event_wait`. -/
def osEventWait (event : OsEvent) (inIsr : Bool) (requested : UInt32) (waitAll clear : Bool)
    (timeout : UInt32) : Reached :=
  if !event.initialized || !event.handle || requested = 0 ||
      requested &&& ~~~OS_EVENT_BITS_MASK ≠ 0 then
    .returned (-EINVAL)
  else if inIsr then .returned (-EWOULDBLOCK)
  else .native (.rtEventRecv requested (recvOption waitAll clear) (osToRtTimeout timeout))

/-- `os_thread_join`; `self` says whether the thread is the caller. -/
def osThreadJoin (thread : HazelOsal.OsThread) (inIsr self : Bool) (timeout : UInt32) : Reached :=
  if inIsr then .returned (-EWOULDBLOCK)
  else if self then .returned (-EDEADLK)
  else
    match thread.joinBegin.2 with
    | some result => .returned result
    | none =>
      .native (if timeout = 0 then .rtSemTrytake else .rtSemTake (osToRtTimeout timeout))

/-- A call that may wait, with all but its timeout. -/
inductive BlockingCall where
  | semTake (handle : Bool) (interruptNest : Nat)
  | mutexLock (initialized nativeHandle inIsr : Bool)
  | waitqBlock (inIsr current : Bool)
  | eventWait (event : OsEvent) (inIsr : Bool) (requested : UInt32) (waitAll clear : Bool)
  | threadJoin (thread : HazelOsal.OsThread) (inIsr self : Bool)

def BlockingCall.run : BlockingCall → UInt32 → Reached
  | .semTake handle interruptNest => osSemTake handle interruptNest
  | .mutexLock initialized nativeHandle inIsr => osMutexLock initialized nativeHandle inIsr
  | .waitqBlock inIsr current => osWaitqBlock inIsr current
  | .eventWait event inIsr requested waitAll clear =>
    osEventWait event inIsr requested waitAll clear
  | .threadJoin thread inIsr self => osThreadJoin thread inIsr self

/-- The wait that a timeout asks for. -/
def askedWait (timeout : UInt32) : Option Nat :=
  if timeout = OS_WAIT_FOREVER then none else some timeout.toNat

section
variable {timeout : UInt32} {b : BlockingCall} {call : NativeCall}

/-- A timeout of zero does not wait, whichever native call it leads to. -/
theorem trytake_wait_eq : (if timeout = 0 then NativeCall.rtSemTrytake
    else .rtSemTake (osToRtTimeout timeout)).wait = rtWait (osToRtTimeout timeout) := by
  split
  case isTrue h => rw [h]; rfl
  case isFalse => rfl

/-- **All calls convert their timeout in the same way.** -/
theorem BlockingCall.wait_eq (h : b.run timeout = .native call) :
    call.wait = rtWait (osToRtTimeout timeout) := by
  cases b with
  | semTake handle interruptNest =>
    simp only [run, osSemTake] at h
    split at h
    case isTrue => cases h
    case isFalse =>
      split at h
      case isTrue => cases h
      case isFalse =>
        cases h
        exact trytake_wait_eq
  | mutexLock | waitqBlock | eventWait =>
    simp only [run, osMutexLock, osWaitqBlock, osEventWait] at h
    split at h
    case isTrue => cases h
    case isFalse =>
      split at h <;> cases h
      rfl
  | threadJoin thread inIsr self =>
    simp only [run, osThreadJoin] at h
    split at h
    case isTrue => cases h
    case isFalse =>
      split at h
      case isTrue => cases h
      case isFalse =>
        split at h <;> cases h
        exact trytake_wait_eq

/-- The conversion keeps the timeouts below 2^31, and makes all others endless. -/
theorem rtWait_osToRtTimeout (timeout : UInt32) :
    rtWait (osToRtTimeout timeout) =
      if timeout.toNat < 2 ^ 31 then some timeout.toNat else none := by
  have hlt := timeout.toNat_lt
  have hvalue : timeout.toInt32.toInt =
      if 2 * timeout.toNat < 2 ^ 32 then (timeout.toNat : Int) else timeout.toNat - 2 ^ 32 :=
    BitVec.toInt_eq_toNat_cond timeout.toBitVec
  rw [osToRtTimeout]
  split
  case isTrue h => rw [h]; rfl
  case isFalse =>
    have hneg : timeout.toInt32 < 0 ↔ ¬ timeout.toNat < 2 ^ 31 := by
      rw [Int32.lt_iff_toInt_lt, hvalue, Int32.toInt_zero]
      split <;> omega
    simp only [rtWait, hneg]
    by_cases hsmall : timeout.toNat < 2 ^ 31
    · rw [if_neg (not_not.mpr hsmall), if_pos hsmall, hvalue, if_pos (by omega), Int.toNat_natCast]
    · rw [if_pos hsmall, if_neg hsmall]

/-- **A finite timeout stays finite** exactly where it is below 2^31 ticks, in all calls that may
wait. -/
theorem finite_timeout_stays_finite (b : BlockingCall) :
    (∀ timeout call, b.run timeout = .native call →
      (call.wait = askedWait timeout ↔ timeout.toNat < 2 ^ 31 ∨ timeout = OS_WAIT_FOREVER)) ∧
    ∀ rate ms call, b.run (osMsToTicksCeil rate ms) = .native call →
      (call.wait = some (osMsToTicksCeil rate ms).toNat ↔ ticksCeil rate ms.toNat < 2 ^ 31) := by
  refine ⟨fun timeout call h => ?_, fun rate ms call h => ?_⟩
  · rw [BlockingCall.wait_eq h, rtWait_osToRtTimeout, askedWait]
    by_cases hforever : timeout = OS_WAIT_FOREVER
    · rw [hforever]
      decide
    · simp [hforever]
  · rw [BlockingCall.wait_eq h, rtWait_osToRtTimeout, osMsToTicksCeil_toNat]
    simp

end

theorem finite_timeout_stays_finite_take : ∃ call,
    (BlockingCall.semTake true 0).run (osMsToTicksCeil ⟨100, by decide⟩ 42) = .native call ∧
    call.wait = some 5 := by
  refine ⟨.rtSemTake 5, rfl, ?_⟩
  have h := finite_timeout_stays_finite (.semTake true 0)
  exact (h.2 ⟨100, by decide⟩ 42 (.rtSemTake 5) rfl).mpr (by decide)

/-- 2^31 milliseconds at 1000 ticks a second: the take waits for ever. -/
theorem not_finite_timeout_stays_finite :
    (BlockingCall.semTake true 0).run (osMsToTicksCeil ⟨1000, by decide⟩ 2147483648) =
      .native (.rtSemTake (-2147483648)) ∧
    (NativeCall.rtSemTake (-2147483648)).wait = none := by
  decide

end HazelOsal.RtThread
