import HazelOsal.Event.Adapters
import HazelOsal.Library.Mealy

/-! # One meaning for the event groups

`reference` is what an event group is for. The FreeRTOS and the RT-Thread adapter give its answers
in every run of calls that do not wait; the Zephyr adapter does exactly where no wait with the clear
option finds a bit set, since `k_event_wait` clears all bits before it looks at them. -/

namespace HazelOsal.Event

/-- The calls on an event group, with a timeout of zero. -/
inductive Op where
  | set (bits : UInt32)
  | clear (bits : UInt32)
  | wait (requested : UInt32) (waitAll clear : Bool)

structure Call where
  inIsr : Bool
  op : Op

/-- The value returned and, for a wait that succeeds, the bits it has received. `*received` means
nothing after an error. -/
abbrev Answer := Int × Option UInt32

def Wait.answer : Wait → Option Answer
  | .returned result received => some (result, if result = 0 then received else none)
  | .waits => none

/-! ## The reference -/

/-- The event group is not there, or the bits are none of its bits. -/
def refused (mask : UInt32) (event : OsEvent) : Op → Bool
  | .set bits | .wait bits _ _ =>
    !event.initialized || !event.handle || bits = 0 || bits &&& ~~~mask ≠ 0
  | .clear bits => !event.initialized || !event.handle || bits &&& ~~~mask ≠ 0

/-- A set of bits: a wait succeeds if the bits that it is for are there, receives those of them that
are set, and may remove the bits that it is for. -/
def reference (mask : UInt32) : Mealy OsEvent Call (Option Answer) where
  step event call :=
    if refused mask event call.op then (event, some (-EINVAL, none))
    else if call.inIsr then (event, some (-EWOULDBLOCK, none))
    else
      match call.op with
      | .set bits => ({ event with set := event.set ||| bits }, some (0, none))
      | .clear bits => ({ event with set := event.set &&& ~~~bits }, some (0, none))
      | .wait requested waitAll clear =>
        if matched event.set requested waitAll then
          ({ event with set := if clear then event.set &&& ~~~requested else event.set },
            some (0, some (event.set &&& requested)))
        else (event, some (-EBUSY, none))

/-! ## The adapters -/

/-- The machine of the three functions of an adapter. -/
def machine (osEventSet osEventClear : OsEvent → Bool → UInt32 → OsEvent × Int)
    (osEventWait : OsEvent → Bool → UInt32 → Bool → Bool → UInt32 → OsEvent × Wait) :
    Mealy OsEvent Call (Option Answer) where
  step event call :=
    match call.op with
    | .set bits => (osEventSet event call.inIsr bits).map id fun result => some (result, none)
    | .clear bits => (osEventClear event call.inIsr bits).map id fun result => some (result, none)
    | .wait requested waitAll clear =>
      (osEventWait event call.inIsr requested waitAll clear 0).map id Wait.answer

def freeRtos (port : FreeRtos.Port) : Mealy OsEvent Call (Option Answer) :=
  machine (FreeRtos.osEventSet port) (FreeRtos.osEventClear port) (FreeRtos.osEventWait port)

def rtThread : Mealy OsEvent Call (Option Answer) :=
  machine RtThread.osEventSet RtThread.osEventClear RtThread.osEventWait

def zephyr : Mealy OsEvent Call (Option Answer) :=
  machine Zephyr.osEventSet Zephyr.osEventClear Zephyr.osEventWait

/-- A wait with the clear option that gets to `k_event_wait` while a bit is set. -/
def Resets (event : OsEvent) (call : Call) : Prop :=
  ∃ requested waitAll, call.op = .wait requested waitAll true ∧
    refused OS_EVENT_BITS_MASK event call.op = false ∧ call.inIsr = false ∧ event.set ≠ 0

section
variable {mask bits set : UInt32} {event : OsEvent} {call : Call}

theorem and_eq_self_of_and_not_eq_zero (h : bits &&& ~~~mask = 0) : bits &&& mask = bits := by
  have hsplit : (bits &&& mask) ||| (bits &&& ~~~mask) = bits := by
    rw [← UInt32.toBitVec_inj, UInt32.toBitVec_or, UInt32.toBitVec_and, UInt32.toBitVec_and,
      ← BitVec.and_or_distrib_left, UInt32.toBitVec_not, BitVec.or_not_self, BitVec.and_allOnes]
  rwa [h, UInt32.or_zero] at hsplit

/-- The conversion to `EventBits_t` loses no bit of the portable mask. -/
theorem eventBits_eq {port : FreeRtos.Port} (h : bits &&& ~~~port.eventBitsMask = 0) :
    port.eventBits bits = bits := by
  rw [FreeRtos.Port.eventBits]
  split
  case isFalse => rfl
  case isTrue h16 =>
    rw [FreeRtos.Port.eventBitsMask, if_pos h16] at h
    have hbits := and_eq_self_of_and_not_eq_zero h
    rw [← hbits, UInt32.and_assoc]
    rfl

theorem matched_zero {all : Bool} (h : bits ≠ 0) : matched 0 bits all = false := by
  cases all <;> simp [matched, h.symm]

@[simp] theorem answer_ok (received : Option UInt32) :
    Wait.answer (.returned 0 received) = some (0, received) := rfl

@[simp] theorem answer_busy (received : Option UInt32) :
    Wait.answer (.returned (-EBUSY) received) = some (-EBUSY, none) := rfl

theorem of_check (h : ¬ (!event.initialized || !event.handle || decide (bits = 0) ||
    decide (bits &&& ~~~mask ≠ 0)) = true) : bits ≠ 0 ∧ bits &&& ~~~mask = 0 := by
  simp only [ne_eq, decide_not, Bool.or_eq_true, decide_eq_true_eq, not_or, Bool.not_eq_true',
    decide_eq_false_iff_not, not_not] at h
  exact ⟨h.1.2, h.2⟩

theorem of_clear_check (h : ¬ (!event.initialized || !event.handle ||
    decide (bits &&& ~~~mask ≠ 0)) = true) : bits &&& ~~~mask = 0 := by
  simp only [ne_eq, decide_not, Bool.or_eq_true, not_or, Bool.not_eq_true',
    decide_eq_false_iff_not, not_not] at h
  exact h.2

/-- The test of the adapters on the bits that they have received. -/
theorem matched_eq {all : Bool} :
    (if all = true then set &&& bits == bits else set &&& bits != 0) = matched set bits all := rfl

/-! ## Step by step -/

/-- **A step of the FreeRTOS adapter** is one of the reference. -/
theorem freeRtos_step (port : FreeRtos.Port) (event : OsEvent) (call : Call) :
    (freeRtos port).step event call = (reference port.eventBitsMask).step event call := by
  obtain ⟨inIsr, op⟩ := call
  cases op with
  | set bits =>
    simp only [freeRtos, machine, reference, refused, FreeRtos.osEventSet]
    split
    case isTrue => rfl
    case isFalse h =>
      rw [eventBits_eq (of_check h).2]
      split <;> rfl
  | clear bits =>
    simp only [freeRtos, machine, reference, refused, FreeRtos.osEventClear]
    split
    case isTrue => rfl
    case isFalse h =>
      rw [eventBits_eq (of_clear_check h)]
      split <;> rfl
  | wait requested waitAll clear =>
    have hticks : port.ticksToWait 0 = 0 := by
      rw [FreeRtos.Port.ticksToWait]
      split <;> rfl
    simp only [freeRtos, machine, reference, refused, FreeRtos.osEventWait]
    split
    case isTrue => rfl
    case isFalse h =>
      rw [eventBits_eq (of_check h).2, FreeRtos.xEventGroupWaitBits, hticks, if_pos rfl]
      split
      case isTrue => rfl
      case isFalse =>
        cases hm : matched event.set requested waitAll with
        | true => simp only [if_pos, matched_eq, hm, Prod.map, id, answer_ok]
        | false => simp [matched_eq, hm]

theorem recvOption_and (waitAll clear : Bool) :
    (RtThread.recvOption waitAll clear &&& RtThread.RT_EVENT_FLAG_AND != 0) = waitAll := by
  cases waitAll <;> cases clear <;> rfl

theorem recvOption_clear (waitAll clear : Bool) :
    (RtThread.recvOption waitAll clear &&& RtThread.RT_EVENT_FLAG_CLEAR != 0) = clear := by
  cases waitAll <;> cases clear <;> rfl

/-- **A step of the RT-Thread adapter** is one of the reference. -/
theorem rtThread_step (event : OsEvent) (call : Call) :
    rtThread.step event call = (reference OS_EVENT_BITS_MASK).step event call := by
  obtain ⟨inIsr, op⟩ := call
  cases op with
  | set bits =>
    simp only [rtThread, machine, reference, refused, RtThread.osEventSet]
    split
    case isTrue => rfl
    case isFalse h =>
      rw [RtThread.rtEventSend, if_neg (of_check h).1]
      split <;> rfl
  | clear bits =>
    simp only [rtThread, machine, reference, refused, RtThread.osEventClear]
    split
    case isTrue => rfl
    case isFalse => split <;> rfl
  | wait requested waitAll clear =>
    have htimeout : HazelOsal.RtThread.osToRtTimeout 0 = 0 := rfl
    simp only [rtThread, machine, reference, refused, RtThread.osEventWait]
    split
    case isTrue => rfl
    case isFalse h =>
      rw [RtThread.rtEventRecv, recvOption_and, recvOption_clear, htimeout, if_pos rfl]
      split
      case isTrue => rfl
      case isFalse =>
        cases hm : matched event.set requested waitAll with
        | true =>
          simp only [if_pos, Prod.map, id, answer_ok, Option.getD_some]
          rw [UInt32.and_assoc, UInt32.and_self]
        | false => rfl

theorem resets_iff {requested : UInt32} {inIsr waitAll clear : Bool} :
    Resets event ⟨inIsr, .wait requested waitAll clear⟩ ↔ clear = true ∧
      refused OS_EVENT_BITS_MASK event (.wait requested waitAll clear) = false ∧
      inIsr = false ∧ event.set ≠ 0 := by
  constructor
  · rintro ⟨_, _, ⟨rfl, rfl, rfl⟩, h⟩
    exact ⟨rfl, h⟩
  · rintro ⟨rfl, h⟩
    exact ⟨requested, waitAll, rfl, h⟩

/-- A wait that resets finds no bits, and leaves none. -/
theorem zephyr_wait {requested : UInt32} {waitAll clear : Bool}
    (h : ¬ refused OS_EVENT_BITS_MASK event (.wait requested waitAll clear) = true) :
    zephyr.step event ⟨false, .wait requested waitAll clear⟩ =
      if clear then ({ event with set := 0 }, some (-EBUSY, none))
      else (reference OS_EVENT_BITS_MASK).step event ⟨false, .wait requested waitAll clear⟩ := by
  simp only [zephyr, machine, reference, Zephyr.osEventWait]
  rw [if_neg h]
  simp only [refused] at h
  rw [if_neg h, Zephyr.kEventWait]
  have hne : 0 ≠ requested := (of_check h).1.symm
  cases clear with
  | true => simp [matched_zero (of_check h).1, hne, OS_WAIT_FOREVER]
  | false =>
    cases hm : matched event.set requested waitAll with
    | true => simp [matched_eq, hm, UInt32.and_assoc]
    | false => simp [hm, hne, OS_WAIT_FOREVER]

/-- Losing all bits and failing is what the reference does exactly where there are none. -/
theorem reset_iff {requested : UInt32} {waitAll : Bool}
    (h : ¬ refused mask event (.wait requested waitAll true) = true) :
    ({ event with set := 0 }, some (-EBUSY, none)) =
      (reference mask).step event ⟨false, .wait requested waitAll true⟩ ↔ event.set = 0 := by
  simp only [reference, if_neg h]
  constructor
  · intro he
    cases hm : matched event.set requested waitAll with
    | true =>
      rw [hm] at he
      cases congrArg Prod.snd he
    | false =>
      rw [hm] at he
      exact (congrArg (fun r => r.1.set) he).symm
  · intro hz
    simp only [refused] at h
    rw [hz, matched_zero (of_check h).1]
    simp [← hz]

/-- **A step of the Zephyr adapter** is one of the reference exactly where it does not reset bits
that are set. -/
theorem zephyr_step_iff (event : OsEvent) (call : Call) :
    zephyr.step event call = (reference OS_EVENT_BITS_MASK).step event call ↔
      ¬ Resets event call := by
  obtain ⟨inIsr, op⟩ := call
  cases op with
  | set bits =>
    have hno : ¬ Resets event ⟨inIsr, .set bits⟩ := by rintro ⟨_, _, h, -⟩; cases h
    simp only [hno, not_false_eq_true, iff_true]
    simp only [zephyr, machine, reference, refused, Zephyr.osEventSet]
    split
    case isTrue => rfl
    case isFalse => split <;> rfl
  | clear bits =>
    have hno : ¬ Resets event ⟨inIsr, .clear bits⟩ := by rintro ⟨_, _, h, -⟩; cases h
    simp only [hno, not_false_eq_true, iff_true]
    simp only [zephyr, machine, reference, refused, Zephyr.osEventClear]
    split
    case isTrue => rfl
    case isFalse => split <;> rfl
  | wait requested waitAll clear =>
    rw [resets_iff]
    by_cases hr : refused OS_EVENT_BITS_MASK event (.wait requested waitAll clear) = true
    case pos =>
      simp only [hr, Bool.true_eq_false, false_and, and_false, not_false_eq_true, iff_true]
      simp only [zephyr, machine, reference, Zephyr.osEventWait, if_pos hr]
      simp only [refused] at hr
      rw [if_pos hr]
      rfl
    case neg =>
      cases inIsr with
      | true =>
        simp only [Bool.true_eq_false, false_and, and_false, not_false_eq_true, iff_true]
        simp only [zephyr, machine, reference, Zephyr.osEventWait, if_neg hr]
        simp only [refused] at hr
        rw [if_neg hr]
        rfl
      | false =>
        rw [zephyr_wait hr]
        cases clear with
        | false => simp
        | true =>
          rw [if_pos rfl, reset_iff hr]
          simp [hr]

/-! ## Runs -/

/-- **An event group means the same on all backends**, but for the waits with the clear option that
the Zephyr adapter makes while a bit is set. -/
theorem event_group_same (event : OsEvent) (calls : List Call) :
    (∀ port, (freeRtos port).trace event calls =
      (reference port.eventBitsMask).trace event calls) ∧
    rtThread.trace event calls = (reference OS_EVENT_BITS_MASK).trace event calls ∧
    (zephyr.trace event calls = (reference OS_EVENT_BITS_MASK).trace event calls ↔
      ∀ v ∈ (reference OS_EVENT_BITS_MASK).visits event calls, ¬ Resets v.1 v.2) :=
  ⟨fun port => Mealy.trace_congr (freeRtos_step port), Mealy.trace_congr rtThread_step,
    Mealy.trace_eq_iff zephyr_step_iff⟩

/-- Bits 0 and 1 are set, and a wait for bit 0 clears it. -/
def clearRun : List Call :=
  [⟨false, .set 3⟩, ⟨false, .wait 1 false true⟩, ⟨false, .wait 2 false false⟩]

/-- On Zephyr the wait fails, and both bits are lost. -/
theorem not_event_group_same :
    (rtThread.trace osEventInit clearRun).map Prod.snd =
      [some (0, none), some (0, some 1), some (0, some 2)] ∧
    (zephyr.trace osEventInit clearRun).map Prod.snd =
      [some (0, none), some (-EBUSY, none), some (-EBUSY, none)] := by
  decide

end

end HazelOsal.Event
