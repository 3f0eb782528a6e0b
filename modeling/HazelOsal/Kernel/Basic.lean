import HazelOsal.Library.Semaphore

/-! # Constants, semaphores and the intrusive FIFO of the kernel API

`kernel.h` and the part of `semaphore.c` and `fifo.c` that the common services use. A
`sys_dlist_t` is the list of the objects whose nodes it links, in order; `sys_dlist_append`
adds at the end, `sys_dlist_get` removes the head and `sys_dlist_remove` unlinks one node. -/

namespace HazelOsal

/-! ## Error codes and limits -/

def EPERM : Int := 1
def EINVAL : Int := 22
def EAGAIN : Int := 11
def ENOMEM : Int := 12
def EBUSY : Int := 16
def ENOSPC : Int := 28
def ENODEV : Int := 19
def EALREADY : Int := 114
def EDEADLK : Int := 35
def ETIMEDOUT : Int := 110
def ECANCELED : Int := 125
def EWOULDBLOCK : Int := EAGAIN

def UINT16_MAX : UInt32 := 65535
def INT32_MAX : UInt32 := 2147483647

/-- The timeout that never expires. -/
def OS_WAIT_FOREVER : UInt32 := 4294967295

/-- The tick at which a timed wait that starts at `tick` expires. -/
def waitExpiry (tick : Nat) (timeout : UInt32) : Option Nat :=
  if timeout = OS_WAIT_FOREVER then none else some (tick + timeout.toNat)

/-! ## Semaphores -/

/-- `struct os_sem` with its native count; `handle` is false before `os_sem_init` and after
`os_sem_deinit`. -/
structure OsSem (limit : Nat) where
  handle : Bool
  native : Counting limit

namespace OsSem

variable {limit : Nat}

abbrev count (s : OsSem limit) : Nat := s.native.count

/-- `os_sem_init(sem, 0, limit)`. -/
def init : OsSem limit := ⟨true, .zero⟩

/-- `os_sem_init(sem, limit, limit)`. -/
def initFull : OsSem limit := ⟨true, .full⟩

/-- `os_sem_deinit`, as far as the object is concerned. -/
def deinit (_ : OsSem limit) : OsSem limit := ⟨false, .zero⟩

/-- `os_sem_give`: nothing happens without a handle, and a full semaphore stays full. -/
def give (s : OsSem limit) : OsSem limit :=
  if s.handle then { s with native := s.native.give } else s

/-- The attempt of `os_sem_take` to get a token without waiting. -/
def tryTake (s : OsSem limit) : Option (OsSem limit) :=
  if s.handle then s.native.take?.map fun native => { s with native } else none

/-- How `os_sem_take` goes on after its first attempt. -/
inductive Take (limit : Nat) where
  | fail (result : Int)
  | taken (sem : OsSem limit)
  | wait

/-- `os_sem_take` up to where it waits. -/
def take (s : OsSem limit) (inIsr : Bool) (timeout : UInt32) : Take limit :=
  if !s.handle then .fail (-EINVAL)
  else if inIsr && timeout != 0 then .fail (-EWOULDBLOCK)
  else
    match s.tryTake with
    | some s' => .taken s'
    | none => if timeout = 0 then .fail (-EBUSY) else .wait

/-- `os_sem_trytake`, whose result the callers here discard. -/
def trytake (s : OsSem limit) : OsSem limit := s.tryTake.getD s

@[simp] theorem give_handle (s : OsSem limit) : s.give.handle = s.handle := by
  simp only [give]; split <;> simp [*]

theorem give_count (s : OsSem limit) :
    s.give.count = if s.handle then min (s.count + 1) limit else s.count := by
  simp only [give, count]; split <;> simp [Counting.give_count]

theorem give_count_of_handle {s : OsSem limit} (h : s.handle = true) :
    s.give.count = min (s.count + 1) limit := by
  simp [give_count, h]

theorem tryTake_eq_some {s s' : OsSem limit} (h : s.tryTake = some s') :
    s'.handle = s.handle ∧ s.count = s'.count + 1 := by
  simp only [tryTake] at h
  split at h
  · obtain ⟨native, hn, rfl⟩ := Option.map_eq_some_iff.mp h
    exact ⟨rfl, Counting.take?_eq_some hn⟩
  · cases h

theorem tryTake_eq_none {s : OsSem limit} (hs : s.handle = true) (h : s.tryTake = none) :
    s.count = 0 := by
  simp only [tryTake, hs, if_true, Option.map_eq_none_iff] at h
  exact Counting.take?_eq_none h

theorem take_eq_taken {s s' : OsSem limit} {inIsr : Bool} {timeout : UInt32}
    (h : s.take inIsr timeout = .taken s') : s.tryTake = some s' := by
  simp only [take] at h
  split at h
  · cases h
  · split at h
    · cases h
    · split at h
      case h_1 ht => cases h; exact ht
      case h_2 => split at h <;> cases h

@[simp] theorem trytake_handle (s : OsSem limit) : s.trytake.handle = s.handle := by
  simp only [trytake]
  cases h : s.tryTake with
  | none => rfl
  | some s' => exact (tryTake_eq_some h).1

end OsSem

/-! ## The intrusive FIFO -/

/-- `struct os_fifo` over nodes named by `N`. -/
structure OsFifo (N : Type) where
  list : List N
  items : OsSem 65535
  count : UInt32
  initialized : Bool

/-- `os_fifo_init`. -/
def osFifoInit : OsFifo N := { list := [], items := .init, count := 0, initialized := true }

/-- The part of `os_fifo_deinit` before `os_sem_deinit`: the error, if there is one. -/
def osFifoDeinitCheck (fifo : OsFifo N) : Option Int :=
  if fifo.list.isEmpty then none else some (-EBUSY)

/-- The `os_common_zero` at the end of `os_fifo_deinit`. -/
def osFifoZero (fifo : OsFifo N) : OsFifo N :=
  { fifo with list := [], items := fifo.items.deinit, count := 0, initialized := false }

end HazelOsal
