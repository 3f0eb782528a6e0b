import HazelOsal.RtThread.WaitQueue

/-! # The event groups of the three backends

`event.c` of the FreeRTOS, the RT-Thread and the Zephyr backend, over the native calls as their
kernels document them. An event group is used by one caller at a time, so that nobody waits while
another one sets bits. The null checks on pointers are left out with the pointers. -/

namespace HazelOsal.Event

/-- `struct os_event`; `set` is what the native storage holds. -/
structure OsEvent where
  handle : Bool
  initialized : Bool
  set : UInt32
  deriving DecidableEq

/-- The event group as `os_event_init` leaves it on success. -/
def osEventInit : OsEvent := { handle := true, initialized := true, set := 0 }

/-- What a native call that may wait does: it returns, or waits. -/
inductive Native (A : Type) where
  | returned (set : UInt32) (value : A)
  | waits (set : UInt32)

/-- What a call of `os_event_wait` has done so far: it has returned, with what it has stored in
`*received`, or it waits. -/
inductive Wait where
  | returned (result : Int) (received : Option UInt32)
  | waits

/-- The bits that a wait is for are there. -/
def matched (set bits : UInt32) (all : Bool) : Bool :=
  if all then set &&& bits == bits else set &&& bits != 0

/-! ## FreeRTOS -/

namespace FreeRtos

/-- `configUSE_16_BIT_TICKS`. -/
structure Port where
  use16BitTicks : Bool

/-- `OS_EVENT_BITS_MASK`. -/
def Port.eventBitsMask (port : Port) : UInt32 := if port.use16BitTicks then 0xff else 0xffffff

/-- `(EventBits_t)bits`. -/
def Port.eventBits (port : Port) (bits : UInt32) : UInt32 :=
  if port.use16BitTicks then bits &&& 0xffff else bits

/-- `(timeout == OS_WAIT_FOREVER) ? portMAX_DELAY : (TickType_t)timeout`. -/
def Port.ticksToWait (port : Port) (timeout : UInt32) : UInt32 :=
  if port.use16BitTicks then
    if timeout = OS_WAIT_FOREVER then 0xffff else timeout &&& 0xffff
  else timeout

def xEventGroupSetBits (set bits : UInt32) : UInt32 := set ||| bits

def xEventGroupClearBits (set bits : UInt32) : UInt32 := set &&& ~~~bits

/-- `xEventGroupWaitBits` returns the bits as they were before it clears the awaited ones. -/
def xEventGroupWaitBits (set bits : UInt32) (clearOnExit waitForAllBits : Bool)
    (ticksToWait : UInt32) : Native UInt32 :=
  if matched set bits waitForAllBits then
    .returned (if clearOnExit then set &&& ~~~bits else set) set
  else if ticksToWait = 0 then .returned set set
  else .waits set

def osEventSet (port : Port) (event : OsEvent) (inIsr : Bool) (bits : UInt32) : OsEvent × Int :=
  if !event.initialized || !event.handle || bits = 0 || bits &&& ~~~port.eventBitsMask ≠ 0 then
    (event, -EINVAL)
  else if inIsr then (event, -EWOULDBLOCK)
  else ({ event with set := xEventGroupSetBits event.set (port.eventBits bits) }, 0)

def osEventClear (port : Port) (event : OsEvent) (inIsr : Bool) (bits : UInt32) : OsEvent × Int :=
  if !event.initialized || !event.handle || bits &&& ~~~port.eventBitsMask ≠ 0 then
    (event, -EINVAL)
  else if inIsr then (event, -EWOULDBLOCK)
  else ({ event with set := xEventGroupClearBits event.set (port.eventBits bits) }, 0)

def osEventWait (port : Port) (event : OsEvent) (inIsr : Bool) (requested : UInt32)
    (waitAll clear : Bool) (timeout : UInt32) : OsEvent × Wait :=
  if !event.initialized || !event.handle || requested = 0 ||
      requested &&& ~~~port.eventBitsMask ≠ 0 then
    (event, .returned (-EINVAL) none)
  else if inIsr then (event, .returned (-EWOULDBLOCK) none)
  else
    match xEventGroupWaitBits event.set (port.eventBits requested) clear waitAll
      (port.ticksToWait timeout) with
    | .waits set => ({ event with set }, .waits)
    | .returned set bits =>
      let received := bits &&& requested
      let isMatched := if waitAll then received == requested else received != 0
      ({ event with set },
        .returned (if isMatched then 0 else if timeout = 0 then -EBUSY else -ETIMEDOUT)
          (some received))

end FreeRtos

/-- `OS_EVENT_BITS_MASK` where no backend defines it. -/
def OS_EVENT_BITS_MASK : UInt32 := 0xffffff

/-! ## RT-Thread -/

namespace RtThread

open HazelOsal.RtThread (RT_EOK RT_ETIMEOUT osToRtTimeout)

def RT_ERROR : Int := 1
def RT_EVENT_FLAG_AND : UInt8 := 0x01
def RT_EVENT_FLAG_OR : UInt8 := 0x02
def RT_EVENT_FLAG_CLEAR : UInt8 := 0x04

def rtEventSend (set bits : UInt32) : UInt32 × Int :=
  if bits = 0 then (set, -RT_ERROR) else (set ||| bits, RT_EOK)

/-- `rt_event_recv` stores the awaited bits that are set in `*recved` where they match. -/
def rtEventRecv (set bits : UInt32) (option : UInt8) (timeout : Int32) :
    Native (Int × Option UInt32) :=
  if matched set bits (option &&& RT_EVENT_FLAG_AND != 0) then
    .returned (if option &&& RT_EVENT_FLAG_CLEAR != 0 then set &&& ~~~bits else set)
      (RT_EOK, some (set &&& bits))
  else if timeout = 0 then .returned set (-RT_ETIMEOUT, none)
  else .waits set

def osEventSet (event : OsEvent) (inIsr : Bool) (bits : UInt32) : OsEvent × Int :=
  if !event.initialized || !event.handle || bits = 0 || bits &&& ~~~OS_EVENT_BITS_MASK ≠ 0 then
    (event, -EINVAL)
  else if inIsr then (event, -EWOULDBLOCK)
  else
    let (set, result) := rtEventSend event.set bits
    ({ event with set }, if result = RT_EOK then 0 else -EINVAL)

def osEventClear (event : OsEvent) (inIsr : Bool) (bits : UInt32) : OsEvent × Int :=
  if !event.initialized || !event.handle || bits &&& ~~~OS_EVENT_BITS_MASK ≠ 0 then
    (event, -EINVAL)
  else if inIsr then (event, -EWOULDBLOCK)
  else ({ event with set := event.set &&& ~~~bits }, 0)

/-- `option` of `os_event_wait`. -/
def recvOption (waitAll clear : Bool) : UInt8 :=
  let option := if waitAll then RT_EVENT_FLAG_AND else RT_EVENT_FLAG_OR
  if clear then option ||| RT_EVENT_FLAG_CLEAR else option

def osEventWait (event : OsEvent) (inIsr : Bool) (requested : UInt32) (waitAll clear : Bool)
    (timeout : UInt32) : OsEvent × Wait :=
  if !event.initialized || !event.handle || requested = 0 ||
      requested &&& ~~~OS_EVENT_BITS_MASK ≠ 0 then
    (event, .returned (-EINVAL) none)
  else if inIsr then (event, .returned (-EWOULDBLOCK) none)
  else
    match rtEventRecv event.set requested (recvOption waitAll clear) (osToRtTimeout timeout) with
    | .waits set => ({ event with set }, .waits)
    | .returned set (status, result) =>
      ({ event with set },
        .returned (if status = RT_EOK then 0 else if timeout = 0 then -EBUSY else -ETIMEDOUT)
          (some (result.getD 0 &&& requested)))

end RtThread

/-! ## Zephyr -/

namespace Zephyr

/-- `k_timeout_t`, as `os_event_wait` makes it. -/
inductive Timeout where
  | forever
  | noWait
  | ticks (timeout : UInt32)
  deriving DecidableEq

def kEventPost (set bits : UInt32) : UInt32 := set ||| bits

def kEventClear (set bits : UInt32) : UInt32 := set &&& ~~~bits

/-- `k_event_wait` and `k_event_wait_all`: `reset` clears all tracked events before the wait. -/
def kEventWait (set events : UInt32) (reset all : Bool) (timeout : Timeout) : Native UInt32 :=
  let set := if reset then 0 else set
  if matched set events all then .returned set (set &&& events)
  else if timeout = .noWait then .returned set 0
  else .waits set

def osEventSet (event : OsEvent) (inIsr : Bool) (bits : UInt32) : OsEvent × Int :=
  if !event.initialized || !event.handle || bits = 0 || bits &&& ~~~OS_EVENT_BITS_MASK ≠ 0 then
    (event, -EINVAL)
  else if inIsr then (event, -EWOULDBLOCK)
  else ({ event with set := kEventPost event.set bits }, 0)

def osEventClear (event : OsEvent) (inIsr : Bool) (bits : UInt32) : OsEvent × Int :=
  if !event.initialized || !event.handle || bits &&& ~~~OS_EVENT_BITS_MASK ≠ 0 then
    (event, -EINVAL)
  else if inIsr then (event, -EWOULDBLOCK)
  else ({ event with set := kEventClear event.set bits }, 0)

def osEventWait (event : OsEvent) (inIsr : Bool) (requested : UInt32) (waitAll clear : Bool)
    (timeout : UInt32) : OsEvent × Wait :=
  if !event.initialized || !event.handle || requested = 0 ||
      requested &&& ~~~OS_EVENT_BITS_MASK ≠ 0 then
    (event, .returned (-EINVAL) none)
  else if inIsr then (event, .returned (-EWOULDBLOCK) none)
  else
    let wait : Timeout :=
      if timeout = OS_WAIT_FOREVER then .forever
      else if timeout = 0 then .noWait
      else .ticks timeout
    match kEventWait event.set requested clear waitAll wait with
    | .waits set => ({ event with set }, .waits)
    | .returned set result =>
      let received := result &&& requested
      ({ event with set },
        .returned (if (if waitAll then received == requested else received != 0) then 0
          else if timeout = 0 then -EBUSY else -ETIMEDOUT) (some received))

end Zephyr

end HazelOsal.Event
