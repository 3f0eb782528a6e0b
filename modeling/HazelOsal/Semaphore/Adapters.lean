import HazelOsal.Kernel.Basic
import Mathlib.Algebra.Ring.Nat

/-! # The semaphores of the three backends

`semaphore.c` of the FreeRTOS, the RT-Thread and the Zephyr backend, over the native calls as their
kernels document them. A semaphore is used by one caller at a time, so a call that waits gets no
token from anybody. The null checks on pointers are left out with the pointers. -/

namespace HazelOsal.Semaphore

/-- A native semaphore, and how many threads are suspended on it. -/
structure Native where
  max : Nat
  tokens : Counting max
  suspended : Nat

/-- A new one, if there may be so many tokens. -/
def Native.new (max count : Nat) : Option Native :=
  if h : count ≤ max then some ⟨max, ⟨count, h⟩, 0⟩ else none

/-- Nobody is suspended on it. -/
def Native.give (native : Native) : Native := { native with tokens := native.tokens.give }

/-- What a native call for a token does: it gets one, gives up after so many ticks, or waits for
ever. -/
inductive NativeTake where
  | taken (native : Native)
  | expired (ticks : Nat)
  | waits (native : Native)

def Native.take (native : Native) (ticks : Option Nat) : NativeTake :=
  match native.tokens.take? with
  | some tokens => .taken { native with tokens }
  | none =>
    match ticks with
    | some ticks => .expired ticks
    | none => .waits { native with suspended := native.suspended + 1 }

/-- `struct os_sem`; `handle` leads to the native semaphore in the storage. -/
structure Sem where
  handle : Option Native
  limit : UInt32

def Sem.zero : Sem := { handle := none, limit := 0 }

/-- What a call does: it returns `result` after so many ticks, or waits for ever. -/
inductive Answer where
  | returned (result : Int) (after : Nat)
  | waits
  | void
  | count (count : UInt32)
  deriving DecidableEq

/-- The end of `os_sem_take`, which all backends have in common. -/
def osSemTaken (sem : Sem) (timeout : UInt32) : NativeTake → Sem × Answer
  | .taken native => ({ sem with handle := some native }, .returned 0 0)
  | .expired ticks => (sem, .returned (if timeout = 0 then -EBUSY else -ETIMEDOUT) ticks)
  | .waits native => ({ sem with handle := some native }, .waits)

/-- `os_sem_give`; the native calls report a full semaphore and leave it as it is. -/
def osSemGive (sem : Sem) : Sem × Answer :=
  match sem.handle with
  | none => (sem, .void)
  | some native => ({ sem with handle := some native.give }, .void)

def osSemCountGet (sem : Sem) : Sem × Answer :=
  match sem.handle with
  | none => (sem, .count 0)
  | some native => (sem, .count (.ofNat native.tokens.count))

/-! ## FreeRTOS -/

namespace FreeRtos

/-- `configUSE_16_BIT_TICKS`, and the width of `UBaseType_t`. -/
structure Port where
  use16BitTicks : Bool
  baseBits : Nat

/-- `(UBaseType_t)value`. -/
def Port.uBaseType (port : Port) (value : UInt32) : Nat := value.toNat % 2 ^ port.baseBits

/-- `portMAX_DELAY`. -/
def Port.maxDelay (port : Port) : UInt32 := if port.use16BitTicks then 0xffff else 0xffffffff

/-- `(TickType_t)timeout`. -/
def Port.tickType (port : Port) (timeout : UInt32) : UInt32 :=
  if port.use16BitTicks then timeout &&& 0xffff else timeout

/-- `xSemaphoreCreateCountingStatic`. -/
def xSemaphoreCreateCountingStatic (uxMaxCount uxInitialCount : Nat) : Option Native :=
  if uxMaxCount = 0 then none else Native.new uxMaxCount uxInitialCount

/-- `xSemaphoreTake`. -/
def xSemaphoreTake (port : Port) (native : Native) (ticks : UInt32) : NativeTake :=
  native.take (if ticks = port.maxDelay then none else some ticks.toNat)

/-- `xSemaphoreTakeFromISR`. -/
def xSemaphoreTakeFromISR (native : Native) : NativeTake := native.take (some 0)

def osSemInit (port : Port) (sem : Sem) (initialCount limit : UInt32) : Sem × Answer :=
  if limit = 0 || initialCount > limit then (sem, .returned (-EINVAL) 0)
  else
    match xSemaphoreCreateCountingStatic (port.uBaseType limit) (port.uBaseType initialCount) with
    | none => (.zero, .returned (-ENOMEM) 0)
    | some native => ({ handle := some native, limit }, .returned 0 0)

/-- `os_sem_deinit`; `vSemaphoreDelete` returns nothing. -/
def osSemDeinit (sem : Sem) (inIsr : Bool) : Sem × Answer :=
  match sem.handle with
  | none => (sem, .returned (-EINVAL) 0)
  | some _ => if inIsr then (sem, .returned (-EWOULDBLOCK) 0) else (.zero, .returned 0 0)

def osSemTake (port : Port) (sem : Sem) (inIsr : Bool) (timeout : UInt32) : Sem × Answer :=
  match sem.handle with
  | none => (sem, .returned (-EINVAL) 0)
  | some native =>
    if inIsr then
      if timeout ≠ 0 then (sem, .returned (-EWOULDBLOCK) 0)
      else osSemTaken sem timeout (xSemaphoreTakeFromISR native)
    else
      let ticks := if timeout = OS_WAIT_FOREVER then port.maxDelay else port.tickType timeout
      osSemTaken sem timeout (xSemaphoreTake port native ticks)

end FreeRtos

/-! ## RT-Thread -/

namespace RtThread

def RT_EOK : Int := 0
def RT_SEM_VALUE_MAX : UInt32 := UINT16_MAX
def RT_WAITING_FOREVER : Int32 := -1

/-- `rt_sem_init`. -/
def rtSemInit (value : Nat) : Option Native := Native.new RT_SEM_VALUE_MAX.toNat value

/-- `rt_sem_control` with `RT_IPC_CMD_SET_VLIMIT`; the value is not above the new maximum. -/
def rtSemControlSetVlimit (native : Native) (maxValue : Nat) : Option Native :=
  if maxValue > RT_SEM_VALUE_MAX.toNat || maxValue < 1 then none
  else Native.new maxValue native.tokens.count

/-- `rt_sem_detach`: it wakes who is suspended, and does not fail. -/
def rtSemDetach (_ : Native) : Int := RT_EOK

/-- `rt_sem_take`: no timer is armed for a negative number of ticks. -/
def rtSemTake (native : Native) (ticks : Int32) : NativeTake :=
  native.take (if ticks < 0 then none else some ticks.toInt.toNat)

/-- `rt_sem_trytake`. -/
def rtSemTrytake (native : Native) : NativeTake := rtSemTake native 0

def osSemInit (sem : Sem) (initialCount limit : UInt32) : Sem × Answer :=
  if limit = 0 || initialCount > limit || limit > RT_SEM_VALUE_MAX then (sem, .returned (-EINVAL) 0)
  else
    match rtSemInit initialCount.toNat with
    | none => (.zero, .returned (-ENOMEM) 0)
    | some native =>
      match rtSemControlSetVlimit native limit.toNat with
      | none => (.zero, .returned (-EINVAL) 0)
      | some native => ({ handle := some native, limit }, .returned 0 0)

def osSemDeinit (sem : Sem) (inIsr : Bool) : Sem × Answer :=
  match sem.handle with
  | none => (sem, .returned (-EINVAL) 0)
  | some native =>
    if inIsr then (sem, .returned (-EWOULDBLOCK) 0)
    -- the list of the suspended threads is not empty
    else if native.suspended ≠ 0 then (sem, .returned (-EBUSY) 0)
    else if rtSemDetach native ≠ RT_EOK then (sem, .returned (-EBUSY) 0)
    else (.zero, .returned 0 0)

def osSemTake (sem : Sem) (inIsr : Bool) (timeout : UInt32) : Sem × Answer :=
  match sem.handle with
  | none => (sem, .returned (-EINVAL) 0)
  | some native =>
    if inIsr && timeout ≠ 0 then (sem, .returned (-EWOULDBLOCK) 0)
    else
      let ticks := if timeout = OS_WAIT_FOREVER then RT_WAITING_FOREVER else timeout.toInt32
      osSemTaken sem timeout (if timeout = 0 then rtSemTrytake native else rtSemTake native ticks)

end RtThread

/-! ## Zephyr -/

namespace Zephyr

/-- `os_sem_deinit`; there is no native call. -/
def osSemDeinit (sem : Sem) (inIsr : Bool) : Sem × Answer :=
  match sem.handle with
  | none => (sem, .returned (-EINVAL) 0)
  | some _ => if inIsr then (sem, .returned (-EWOULDBLOCK) 0) else (.zero, .returned 0 0)

/-- `k_timeout_t`, as `os_sem_take` makes it. -/
inductive Timeout where
  | forever
  | noWait
  | ticks (timeout : UInt32)

/-- `k_sem_init`. -/
def kSemInit (initialCount limit : Nat) : Option Native :=
  if limit = 0 || initialCount > limit then none else Native.new limit initialCount

/-- `k_sem_take`. -/
def kSemTake (native : Native) : Timeout → NativeTake
  | .forever => native.take none
  | .noWait => native.take (some 0)
  | .ticks timeout => native.take (some timeout.toNat)

def osSemInit (sem : Sem) (initialCount limit : UInt32) : Sem × Answer :=
  if limit = 0 || initialCount > limit then (sem, .returned (-EINVAL) 0)
  else
    match kSemInit initialCount.toNat limit.toNat with
    | none => (sem, .returned (-EINVAL) 0)
    | some native => ({ handle := some native, limit }, .returned 0 0)

def osSemTake (sem : Sem) (inIsr : Bool) (timeout : UInt32) : Sem × Answer :=
  match sem.handle with
  | none => (sem, .returned (-EINVAL) 0)
  | some native =>
    if inIsr && timeout ≠ 0 then (sem, .returned (-EWOULDBLOCK) 0)
    else
      let wait : Timeout :=
        if timeout = OS_WAIT_FOREVER then .forever
        else if timeout = 0 then .noWait
        else .ticks timeout
      osSemTaken sem timeout (kSemTake native wait)

end Zephyr

end HazelOsal.Semaphore
