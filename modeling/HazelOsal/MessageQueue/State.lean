import HazelOsal.Kernel.Thread
import HazelOsal.Library.Fifo
import Mathlib.Logic.Function.Basic

/-! # Data model of the message queue

`message_queue.c`: the ring of messages, its two semaphores, and one definition for each
`os_enter_critical` … `os_exit_critical` block. Memory is the function from offsets to bytes that a
pointer gives access to, one for the buffer and one for the message of each caller. The null checks
on pointers are left out with the pointers. -/

namespace HazelOsal.MessageQueue

open TransitionSystem

/-- What the configuration determines: `SIZE_MAX`, and the limits for which `os_sem_init` can make
a native semaphore. -/
structure Port where
  sizeMax : Nat
  semCreated : UInt32 → Bool

/-! ## Bytes -/

/-- The bytes that a pointer points to. -/
abbrev Bytes := Nat → UInt8

/-- `size` of them, from `offset` on. -/
def bytes (memory : Bytes) (offset size : Nat) : List UInt8 :=
  (List.range size).map fun i => memory (offset + i)

/-- `os_common_copy`, from `source + input` to `destination + output`. -/
def osCommonCopy (destination source : Bytes) (output input : Nat) : Nat → Bytes
  | 0 => destination
  | size + 1 =>
    osCommonCopy (Function.update destination output (source input)) source (output + 1)
      (input + 1) size

section
variable {destination source : Bytes} {output input offset size n : Nat}

theorem osCommonCopy_apply (j : Nat) : osCommonCopy destination source output input size j =
    if output ≤ j ∧ j < output + size then source (input + (j - output)) else destination j := by
  induction size generalizing destination output input with
  | zero => rw [if_neg (by omega)]; rfl
  | succ size ih =>
    rw [osCommonCopy, ih, Function.update_apply]
    by_cases hj : j = output
    · subst hj
      rw [if_neg (by omega), if_pos rfl, if_pos (by omega), Nat.sub_self, Nat.add_zero]
    · rw [if_neg hj]
      by_cases hin : output ≤ j ∧ j < output + (size + 1)
      · rw [if_pos hin, if_pos (by omega)]
        congr 1
        omega
      · rw [if_neg hin, if_neg (by omega)]

/-- What has been copied is there. -/
theorem bytes_osCommonCopy : bytes (osCommonCopy destination source output input size) output size =
    bytes source input size := by
  refine List.map_congr_left fun i hi => ?_
  have hi := List.mem_range.mp hi
  rw [osCommonCopy_apply, if_pos (by omega), Nat.add_sub_cancel_left]

/-- Elsewhere nothing changes. -/
theorem bytes_osCommonCopy_of_disjoint (h : offset + n ≤ output ∨ output + size ≤ offset) :
    bytes (osCommonCopy destination source output input size) offset n =
      bytes destination offset n := by
  refine List.map_congr_left fun i hi => ?_
  have hi := List.mem_range.mp hi
  rw [osCommonCopy_apply, if_neg (by omega)]

end

/-! ## The queue -/

/-- `struct os_msgq`. -/
structure OsMsgq where
  messageSize : Nat
  capacity : UInt32
  readIndex : UInt32
  writeIndex : UInt32
  count : UInt32
  items : OsSem capacity.toNat
  spaces : OsSem capacity.toNat
  initialized : Bool

/-- `os_sem_init` succeeds. -/
def Port.osSemInit (port : Port) (initial limit : UInt32) : Bool :=
  limit ≠ 0 && initial ≤ limit && port.semCreated limit

/-- The queue as `os_msgq_init` leaves it on success. -/
def OsMsgq.empty (messageSize : Nat) (capacity : UInt32) : OsMsgq where
  messageSize := messageSize
  capacity := capacity
  readIndex := 0
  writeIndex := 0
  count := 0
  items := .init
  spaces := .initFull
  initialized := true

/-- `os_msgq_init`: the queue, or the error. -/
def osMsgqInit (port : Port) (messageSize : Nat) (capacity : UInt32) : Except Int OsMsgq :=
  if messageSize = 0 ∨ capacity = 0 ∨ messageSize > port.sizeMax / capacity.toNat then
    .error (-EINVAL)
  else if !port.osSemInit 0 capacity then .error (-ENOMEM)
  else if !port.osSemInit capacity capacity then .error (-ENOMEM)
  else .ok (.empty messageSize capacity)

/-- `index * msgq->message_size`. -/
def OsMsgq.offset (port : Port) (msgq : OsMsgq) (index : UInt32) : Nat :=
  index.toNat * msgq.messageSize % (port.sizeMax + 1)

/-- The queue, the bytes from `msgq->buffer` on, and the record of what the critical sections have
put and got, with the callers. No modelled function reads the record. -/
structure Mem (T N : Type) where
  msgq : OsMsgq
  memory : Bytes
  hist : List (Caller T N × FifoEvent (List UInt8))

namespace Mem

variable {T N : Type} (m : Mem T N)

def setItems (items : OsSem m.msgq.capacity.toNat) : Mem T N :=
  { m with msgq := { m.msgq with items } }

def setSpaces (spaces : OsSem m.msgq.capacity.toNat) : Mem T N :=
  { m with msgq := { m.msgq with spaces } }

end Mem

variable {T N : Type}

/-- The critical section of `os_msgq_put`. -/
def osMsgqPutCritical (port : Port) (c : Caller T N) (m : Mem T N) (message : Bytes) : Mem T N where
  memory :=
    osCommonCopy m.memory message (m.msgq.offset port m.msgq.writeIndex) 0 m.msgq.messageSize
  msgq :=
    { m.msgq with
      writeIndex := (m.msgq.writeIndex + 1) % m.msgq.capacity
      count := m.msgq.count + 1 }
  hist := m.hist ++ [(c, .put (bytes message 0 m.msgq.messageSize))]

/-- The critical section of `os_msgq_get`, and what the message of the caller becomes. -/
def osMsgqGetCritical (port : Port) (c : Caller T N) (m : Mem T N) (message : Bytes) :
    Mem T N × Bytes :=
  let message :=
    osCommonCopy message m.memory 0 (m.msgq.offset port m.msgq.readIndex) m.msgq.messageSize
  ({ m with
      msgq :=
        { m.msgq with
          readIndex := (m.msgq.readIndex + 1) % m.msgq.capacity
          count := m.msgq.count - 1 }
      hist := m.hist ++ [(c, .get (bytes message 0 m.msgq.messageSize))] },
    message)

end HazelOsal.MessageQueue
