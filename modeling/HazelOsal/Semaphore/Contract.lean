import HazelOsal.Semaphore.Adapters
import HazelOsal.Library.Mealy
import Mathlib.Order.Basic

/-! # One contract for the semaphores

The services of the kernel use semaphores as `OsSem` has them. `contract` is the machine of its
operations. A run ends with a call that waits for ever. The Zephyr adapter gives the answers of the
contract in every run; the other two do exactly where no limit is beyond the native counter and no
caller waits longer than the native timeouts can say. -/

namespace HazelOsal.Semaphore

/-- The calls on a semaphore. -/
inductive Op where
  | init (initialCount limit : UInt32)
  | deinit
  | take (timeout : UInt32)
  | give
  | countGet

structure Call where
  inIsr : Bool
  op : Op

/-! ## The contract -/

/-- The native semaphore as the services see it. -/
def Native.osSem (native : Native) : OsSem native.max := ⟨true, native.tokens⟩

/-- The native semaphore behind a semaphore of the services, on which so many are suspended. -/
def OsSem.toNative {limit : Nat} (sem : OsSem limit) (suspended : Nat) : Native :=
  ⟨limit, sem.native, suspended⟩

/-- The semaphore with the operations of `OsSem`: who waits for a token that does not come returns
after the timeout. Nobody is suspended on it before a call. -/
def contract : Mealy Sem Call Answer where
  step sem call :=
    match call.op, sem.handle with
    | .init initialCount limit, _ =>
      if h : limit = 0 ∨ initialCount > limit then (sem, .returned (-EINVAL) 0)
      else
        ({ handle := some ⟨limit.toNat, ⟨initialCount.toNat, UInt32.not_lt.mp (not_or.mp h).2⟩, 0⟩,
           limit }, .returned 0 0)
    | .deinit, none | .take _, none => (sem, .returned (-EINVAL) 0)
    | .deinit, some _ =>
      if call.inIsr then (sem, .returned (-EWOULDBLOCK) 0) else (.zero, .returned 0 0)
    | .take timeout, some native =>
      match native.osSem.take call.inIsr timeout with
      | .fail result => (sem, .returned result 0)
      | .taken osSem =>
        ({ sem with handle := some (OsSem.toNative osSem native.suspended) }, .returned 0 0)
      | .wait =>
        if timeout = OS_WAIT_FOREVER then
          ({ sem with handle := some { native with suspended := native.suspended + 1 } }, .waits)
        else (sem, .returned (-ETIMEDOUT) timeout.toNat)
    | .give, none => (sem, .void)
    | .give, some native =>
      ({ sem with handle := some (OsSem.toNative native.osSem.give native.suspended) }, .void)
    | .countGet, none => (sem, .count 0)
    | .countGet, some native => (sem, .count (.ofNat native.osSem.count))

/-! ## The adapters -/

/-- The machine of the functions of an adapter. -/
def machine (osSemInit : Sem → UInt32 → UInt32 → Sem × Answer)
    (osSemDeinit : Sem → Bool → Sem × Answer) (osSemTake : Sem → Bool → UInt32 → Sem × Answer) :
    Mealy Sem Call Answer where
  step sem call :=
    match call.op with
    | .init initialCount limit => osSemInit sem initialCount limit
    | .deinit => osSemDeinit sem call.inIsr
    | .take timeout => osSemTake sem call.inIsr timeout
    | .give => osSemGive sem
    | .countGet => osSemCountGet sem

def freeRtos (port : FreeRtos.Port) : Mealy Sem Call Answer :=
  machine (FreeRtos.osSemInit port) FreeRtos.osSemDeinit (FreeRtos.osSemTake port)

def rtThread : Mealy Sem Call Answer :=
  machine RtThread.osSemInit RtThread.osSemDeinit RtThread.osSemTake

def zephyr : Mealy Sem Call Answer :=
  machine Zephyr.osSemInit Zephyr.osSemDeinit Zephyr.osSemTake

/-- The caller does not come back, and calls no more. -/
def Answer.ends : Answer → Bool
  | .waits => true
  | _ => false

/-- Nobody is suspended on the native semaphore. -/
def Sem.Unused (sem : Sem) : Prop := ∀ native, sem.handle = some native → native.suspended = 0

/-- The call is for a token that is not there, and may wait for one. -/
def Unserved (sem : Sem) (call : Call) (timeout : UInt32) : Prop :=
  call.op = .take timeout ∧ call.inIsr = false ∧
    ∃ native, sem.handle = some native ∧ native.tokens.count = 0

/-- A limit that `os_sem_init` should take is below `bound`, and a timeout other than for ever,
after which a call should give up, is below `ticks`. -/
structure Within (bound ticks : Nat) (sem : Sem) (call : Call) : Prop where
  limit : ∀ initialCount limit, call.op = .init initialCount limit → limit ≠ 0 →
    initialCount ≤ limit → limit.toNat < bound
  timeout : ∀ timeout, Unserved sem call timeout → timeout ≠ OS_WAIT_FOREVER →
    timeout.toNat < ticks

/-- `portMAX_DELAY`, and with ticks of 32 bits no bound at all. -/
def FreeRtos.Port.ticksBound (port : FreeRtos.Port) : Nat :=
  if port.use16BitTicks then 0xffff else 2 ^ 32

section
variable {sem : Sem} {call : Call} {native : Native} {inIsr : Bool} {timeout : UInt32}
  {bound ticks : Nat}

/-! ## Calls for a token -/

/-- How long the contract says that a call without a token waits. -/
def waitTicks (timeout : UInt32) : Option Nat :=
  if timeout = OS_WAIT_FOREVER then none else some timeout.toNat

theorem take?_eq_none_iff {limit : Nat} {tokens : Counting limit} :
    tokens.take? = none ↔ tokens.count = 0 := by
  rw [Counting.take?]
  split
  case isTrue h => exact iff_of_false (by simp) (Nat.ne_of_gt h)
  case isFalse h => exact iff_of_true rfl (Nat.eq_zero_of_not_pos h)

/-- The contract of `os_sem_take` in the form of the adapters. -/
theorem contract_take (h : sem.handle = some native) :
    contract.step sem ⟨inIsr, .take timeout⟩ =
      if inIsr && timeout ≠ 0 then (sem, .returned (-EWOULDBLOCK) 0)
      else osSemTaken sem timeout (native.take (waitTicks timeout)) := by
  simp only [contract, h, OsSem.take, OsSem.tryTake, Native.osSem, Native.take, Bool.not_true,
    Bool.false_eq_true, if_false, if_true]
  by_cases hisr : (inIsr && timeout != 0) = true
  case pos =>
    have hisr' : (inIsr && decide (timeout ≠ 0)) = true := by simpa using hisr
    rw [if_pos hisr, if_pos hisr']
  case neg =>
    have hisr' : ¬ (inIsr && decide (timeout ≠ 0)) = true := by simpa using hisr
    rw [if_neg hisr, if_neg hisr']
    cases native.tokens.take? with
    | some tokens => rfl
    | none =>
      by_cases hzero : timeout = 0
      case pos =>
        subst hzero
        rfl
      case neg =>
        simp only [Option.map_none, if_neg hzero, waitTicks]
        split <;> simp [osSemTaken, hzero]

/-- Two native calls lead to the same unless there is no token and they wait for different times. -/
theorem osSemTaken_eq_iff {a b : Option Nat} :
    osSemTaken sem timeout (native.take a) = osSemTaken sem timeout (native.take b) ↔
      (native.tokens.count = 0 → a = b) := by
  rw [← take?_eq_none_iff]
  simp only [Native.take]
  cases h : native.tokens.take? with
  | some tokens => simp
  | none =>
    cases a <;> cases b <;> simp [osSemTaken]

/-- A call that may wait leads to the same where the times are the same. -/
theorem unserved_iff {a : Option Nat} (h : sem.handle = some native)
    (ha : a = waitTicks timeout ↔ (timeout ≠ OS_WAIT_FOREVER → timeout.toNat < ticks)) :
    osSemTaken sem timeout (native.take a) =
        osSemTaken sem timeout (native.take (waitTicks timeout)) ↔
      Within bound ticks sem ⟨false, .take timeout⟩ := by
  rw [osSemTaken_eq_iff, ha]
  constructor
  · intro hcount
    refine ⟨fun _ _ he => (by cases he), ?_⟩
    rintro _ ⟨he, -, native', h', hzero⟩
    cases he
    cases h.symm.trans h'
    exact hcount hzero
  · intro hin hzero
    exact hin.timeout timeout ⟨rfl, rfl, native, h, hzero⟩

/-- A call that may not wait is within all bounds. -/
theorem within_of_isr : Within bound ticks sem ⟨true, .take timeout⟩ := by
  refine ⟨fun _ _ he => (by cases he), ?_⟩
  rintro _ ⟨-, he, -⟩
  cases he

theorem within_of_none (h : sem.handle = none) : Within bound ticks sem ⟨inIsr, .take timeout⟩ := by
  refine ⟨fun _ _ he => (by cases he), ?_⟩
  rintro _ ⟨-, -, native, h', -⟩
  cases h.symm.trans h'

theorem within_init_iff {initialCount limit : UInt32} :
    Within bound ticks sem ⟨inIsr, .init initialCount limit⟩ ↔
      (limit ≠ 0 → initialCount ≤ limit → limit.toNat < bound) := by
  constructor
  · exact fun h => h.limit initialCount limit rfl
  · intro h
    refine ⟨fun _ _ he => (by cases he; exact h), ?_⟩
    rintro _ ⟨he, -⟩
    cases he

/-- The contract of `os_sem_init`. -/
theorem contract_init {initialCount limit : UInt32} (hzero : limit ≠ 0)
    (hle : initialCount ≤ limit) :
    contract.step sem ⟨inIsr, .init initialCount limit⟩ =
      ({ handle := some ⟨limit.toNat, ⟨initialCount.toNat, hle⟩, 0⟩, limit }, .returned 0 0) :=
  dif_neg (not_or.mpr ⟨hzero, UInt32.not_lt.mpr hle⟩)

theorem contract_init_refused {initialCount limit : UInt32}
    (h : limit = 0 ∨ initialCount > limit) :
    contract.step sem ⟨inIsr, .init initialCount limit⟩ = (sem, .returned (-EINVAL) 0) :=
  dif_pos h

theorem Native.max_of_new {max count : Nat} (h : Native.new max count = some native) :
    native.max = max := by
  rw [Native.new] at h
  split at h <;> cases h
  rfl

theorem within_of_op {op : Op} (hinit : ∀ initialCount limit, op ≠ .init initialCount limit)
    (htake : ∀ timeout, op ≠ .take timeout) : Within bound ticks sem ⟨inIsr, op⟩ :=
  ⟨fun _ _ he => absurd he (hinit _ _), fun _ h => absurd h.1 (htake _)⟩

/-- **The functions that the adapters have in common** are those of the contract. -/
theorem machine_give (osSemInit osSemDeinit osSemTake) :
    (machine osSemInit osSemDeinit osSemTake).step sem ⟨inIsr, .give⟩ =
      contract.step sem ⟨inIsr, .give⟩ := by
  obtain ⟨handle, limit⟩ := sem
  cases handle <;> rfl

theorem machine_countGet (osSemInit osSemDeinit osSemTake) :
    (machine osSemInit osSemDeinit osSemTake).step sem ⟨inIsr, .countGet⟩ =
      contract.step sem ⟨inIsr, .countGet⟩ := by
  obtain ⟨handle, limit⟩ := sem
  cases handle <;> rfl

/-! ## FreeRTOS -/

theorem freeRtos_init_iff (port : FreeRtos.Port) {initialCount limit : UInt32} :
    FreeRtos.osSemInit port sem initialCount limit =
        contract.step sem ⟨inIsr, .init initialCount limit⟩ ↔
      (limit ≠ 0 → initialCount ≤ limit → limit.toNat < 2 ^ port.baseBits) := by
  rw [FreeRtos.osSemInit]
  split
  case isTrue h =>
    rw [Bool.or_eq_true, decide_eq_true_eq, decide_eq_true_eq] at h
    refine iff_of_true (contract_init_refused h).symm fun hzero hle => ?_
    exact absurd h (not_or.mpr ⟨hzero, UInt32.not_lt.mpr hle⟩)
  case isFalse h =>
    rw [Bool.or_eq_true, decide_eq_true_eq, decide_eq_true_eq, not_or] at h
    obtain ⟨hzero, hle⟩ := h
    rw [contract_init hzero (UInt32.not_lt.mp hle)]
    constructor
    · intro he _ _
      split at he
      case h_1 => cases congrArg Prod.snd he
      case h_2 native hn =>
        -- the limit that the native semaphore has got
        have hmax : native.max = port.uBaseType limit := by
          rw [FreeRtos.xSemaphoreCreateCountingStatic] at hn
          split at hn
          case isTrue => cases hn
          case isFalse => exact Native.max_of_new hn
        cases congrArg (fun r => r.1.handle) he
        rw [show limit.toNat = limit.toNat % 2 ^ port.baseBits from hmax]
        exact Nat.mod_lt _ (Nat.pow_pos (by decide))
    · intro hlt
      have hlimit := hlt hzero (UInt32.not_lt.mp hle)
      have hcount : initialCount.toNat ≤ limit.toNat := UInt32.not_lt.mp hle
      have hpos : limit.toNat ≠ 0 := fun h => hzero (UInt32.toNat_inj.mp h)
      rw [FreeRtos.Port.uBaseType, FreeRtos.Port.uBaseType, Nat.mod_eq_of_lt hlimit,
        Nat.mod_eq_of_lt (Nat.lt_of_le_of_lt hcount hlimit),
        FreeRtos.xSemaphoreCreateCountingStatic, if_neg hpos, Native.new, dif_pos hcount]

theorem freeRtos_ticks (port : FreeRtos.Port) :
    (let ticks := if timeout = OS_WAIT_FOREVER then port.maxDelay else port.tickType timeout
     if ticks = port.maxDelay then none else some ticks.toNat) = waitTicks timeout ↔
      (timeout ≠ OS_WAIT_FOREVER → timeout.toNat < port.ticksBound) := by
  rw [waitTicks, FreeRtos.Port.ticksBound]
  split
  case isTrue h => exact iff_of_true (if_pos rfl) fun hne => absurd h hne
  case isFalse h =>
    simp only [ne_eq, h, not_false_eq_true, true_imp_iff]
    rw [FreeRtos.Port.tickType, FreeRtos.Port.maxDelay]
    split
    case isFalse => exact iff_of_true (if_neg h) timeout.toNat_lt
    case isTrue =>
      have hlow : (timeout &&& 0xffff).toNat = timeout.toNat % 2 ^ 16 :=
        (UInt32.toNat_and ..).trans (Nat.and_two_pow_sub_one_eq_mod _ 16)
      have hmax : timeout &&& 0xffff = 0xffff ↔ timeout.toNat % 2 ^ 16 = 0xffff := by
        rw [← UInt32.toNat_inj, hlow]
        rfl
      simp only [hmax, hlow]
      split
      case isTrue hmax =>
        refine iff_of_false (by simp) (Nat.not_lt.mpr ?_)
        exact hmax.symm.trans_le (Nat.mod_le ..)
      case isFalse hmax =>
        rw [Option.some_inj]
        omega

/-- **A step of the FreeRTOS adapter** is one of the contract exactly within the bounds of the
port. -/
theorem freeRtos_step_iff (port : FreeRtos.Port) (sem : Sem) (call : Call) :
    (freeRtos port).step sem call = contract.step sem call ↔
      Within (2 ^ port.baseBits) port.ticksBound sem call := by
  obtain ⟨inIsr, op⟩ := call
  cases op with
  | init => exact (freeRtos_init_iff port).trans within_init_iff.symm
  | deinit =>
    refine iff_of_true ?_ (within_of_op (by simp) (by simp))
    obtain ⟨handle, limit⟩ := sem
    cases handle <;> rfl
  | give => exact iff_of_true (machine_give ..) (within_of_op (by simp) (by simp))
  | countGet => exact iff_of_true (machine_countGet ..) (within_of_op (by simp) (by simp))
  | take timeout =>
    change FreeRtos.osSemTake port sem inIsr timeout = _ ↔ _
    rw [FreeRtos.osSemTake]
    cases h : sem.handle with
    | none => exact iff_of_true (by simp [contract, h]) (within_of_none h)
    | some native =>
      rw [contract_take h]
      cases inIsr with
      | false => exact unserved_iff h (freeRtos_ticks port)
      | true =>
        refine iff_of_true ?_ within_of_isr
        by_cases hzero : timeout = 0
        case pos =>
          subst hzero
          rfl
        case neg => simp [hzero]

/-! ## RT-Thread -/

theorem rtThread_check {initialCount limit : UInt32} :
    (limit = 0 || initialCount > limit || limit > RtThread.RT_SEM_VALUE_MAX) = true ↔
      limit ≠ 0 → initialCount ≤ limit → ¬ limit.toNat < 2 ^ 16 := by
  have hbound : limit > RtThread.RT_SEM_VALUE_MAX ↔ ¬ limit.toNat < 2 ^ 16 := Nat.not_lt.symm
  rw [Bool.or_eq_true, Bool.or_eq_true, decide_eq_true_eq, decide_eq_true_eq, decide_eq_true_eq,
    hbound, or_assoc, or_iff_not_imp_left, or_iff_not_imp_left, gt_iff_lt, UInt32.not_lt]

/-- The native calls of `os_sem_init` succeed after its checks. -/
theorem rtThread_native {count limit : Nat} (hzero : limit ≠ 0) (hle : count ≤ limit)
    (hlimit : limit < 2 ^ 16) : (RtThread.rtSemInit count).bind
      (RtThread.rtSemControlSetVlimit · limit) = some ⟨limit, ⟨count, hle⟩, 0⟩ := by
  have hmax : RtThread.RT_SEM_VALUE_MAX.toNat = 2 ^ 16 - 1 := rfl
  have hvalue : count ≤ RtThread.RT_SEM_VALUE_MAX.toNat := by omega
  have hcheck : ¬ (limit > RtThread.RT_SEM_VALUE_MAX.toNat || limit < 1) = true := by
    rw [Bool.or_eq_true, decide_eq_true_eq, decide_eq_true_eq]
    omega
  rw [RtThread.rtSemInit, Native.new, dif_pos hvalue, Option.bind_some,
    RtThread.rtSemControlSetVlimit, if_neg hcheck, Native.new, dif_pos hle]

theorem rtThread_init_iff {initialCount limit : UInt32} :
    RtThread.osSemInit sem initialCount limit =
        contract.step sem ⟨inIsr, .init initialCount limit⟩ ↔
      (limit ≠ 0 → initialCount ≤ limit → limit.toNat < 2 ^ 16) := by
  rw [RtThread.osSemInit]
  by_cases h : limit = 0 ∨ initialCount > limit
  case pos =>
    have hno {P : Prop} (hzero : limit ≠ 0) (hle : initialCount ≤ limit) : P :=
      absurd h (not_or.mpr ⟨hzero, UInt32.not_lt.mpr hle⟩)
    rw [contract_init_refused h, if_pos (rtThread_check.mpr hno)]
    exact iff_of_true rfl hno
  case neg =>
    obtain ⟨hzero, hle⟩ := not_or.mp h
    have hle : initialCount ≤ limit := UInt32.not_lt.mp hle
    have hcount : initialCount.toNat ≤ limit.toNat := hle
    rw [contract_init hzero hle]
    split
    case isTrue hcheck =>
      refine iff_of_false (fun he => by cases congrArg Prod.snd he) fun hlt => ?_
      exact rtThread_check.mp hcheck hzero hle (hlt hzero hle)
    case isFalse hcheck =>
      have hlimit : limit.toNat < 2 ^ 16 :=
        not_not.mp fun hn => hcheck (rtThread_check.mpr fun _ _ => hn)
      have hnative := rtThread_native (fun h => hzero (UInt32.toNat_inj.mp h)) hcount hlimit
      obtain ⟨native, hinit, hcontrol⟩ := Option.bind_eq_some_iff.mp hnative
      refine iff_of_true ?_ fun _ _ => hlimit
      rw [hinit]
      simp only [hcontrol]

theorem rtThread_ticks :
    (let ticks := if timeout = OS_WAIT_FOREVER then RtThread.RT_WAITING_FOREVER else timeout.toInt32
     if ticks < 0 then none else some ticks.toInt.toNat) = waitTicks timeout ↔
      (timeout ≠ OS_WAIT_FOREVER → timeout.toNat < 2 ^ 31) := by
  rw [waitTicks]
  split
  case isTrue h => exact iff_of_true (if_pos (by decide)) fun hne => absurd h hne
  case isFalse h =>
    simp only [ne_eq, h, not_false_eq_true, true_imp_iff]
    have hneg : timeout.toInt32 < 0 ↔ ¬ timeout.toNat < 2 ^ 31 := by
      rw [Int32.lt_iff_toInt_lt]
      have hpos : 0 ≤ timeout.toInt32.toInt ↔ 2 * timeout.toNat < 2 ^ 32 := BitVec.toInt_pos_iff
      rw [show (0 : Int32).toInt = 0 from rfl, ← Int.not_le, hpos]
      omega
    split
    case isTrue hlt => exact iff_of_false (by simp) (hneg.mp hlt)
    case isFalse hlt =>
      have hlow := not_not.mp (hneg.not.mp hlt)
      refine iff_of_true ?_ hlow
      have htoInt : timeout.toInt32.toInt = timeout.toNat :=
        BitVec.toInt_eq_toNat_of_lt (show 2 * timeout.toNat < 2 ^ 32 by omega)
      rw [htoInt, Int.toNat_natCast]

/-- `os_sem_deinit` finds nobody suspended. -/
theorem rtThread_deinit (hs : sem.Unused) :
    RtThread.osSemDeinit sem inIsr = contract.step sem ⟨inIsr, .deinit⟩ := by
  rw [RtThread.osSemDeinit]
  cases h : sem.handle with
  | none => simp [contract, h]
  | some native => simp [contract, h, hs native h, RtThread.rtSemDetach]

/-- **A step of the RT-Thread adapter** is one of the contract exactly where the limit is not beyond
`RT_SEM_VALUE_MAX` and the timeout not beyond `INT32_MAX`. -/
theorem rtThread_step_iff (sem : Sem) (call : Call) (hs : sem.Unused) :
    rtThread.step sem call = contract.step sem call ↔ Within (2 ^ 16) (2 ^ 31) sem call := by
  obtain ⟨inIsr, op⟩ := call
  cases op with
  | init => exact rtThread_init_iff.trans within_init_iff.symm
  | deinit => exact iff_of_true (rtThread_deinit hs) (within_of_op (by simp) (by simp))
  | give => exact iff_of_true (machine_give ..) (within_of_op (by simp) (by simp))
  | countGet => exact iff_of_true (machine_countGet ..) (within_of_op (by simp) (by simp))
  | take timeout =>
    change RtThread.osSemTake sem inIsr timeout = _ ↔ _
    rw [RtThread.osSemTake]
    cases h : sem.handle with
    | none => exact iff_of_true (by simp [contract, h]) (within_of_none h)
    | some native =>
      have hnative (ticks : Int32) (hticks : timeout = 0 → ticks = 0) :
          (if timeout = 0 then RtThread.rtSemTrytake native else RtThread.rtSemTake native ticks) =
            RtThread.rtSemTake native ticks := by
        split
        case isTrue hzero => rw [hticks hzero, RtThread.rtSemTrytake]
        case isFalse => rfl
      simp only []
      rw [contract_take h, hnative _ (by rintro rfl; rfl)]
      cases inIsr with
      | false => exact unserved_iff h rtThread_ticks
      | true =>
        refine iff_of_true ?_ within_of_isr
        by_cases hzero : timeout = 0
        case pos =>
          subst hzero
          rfl
        case neg => simp [hzero]

/-! ## Zephyr -/

theorem zephyr_init {initialCount limit : UInt32} :
    Zephyr.osSemInit sem initialCount limit =
      contract.step sem ⟨inIsr, .init initialCount limit⟩ := by
  rw [Zephyr.osSemInit]
  split
  case isTrue h =>
    rw [Bool.or_eq_true, decide_eq_true_eq, decide_eq_true_eq] at h
    exact (contract_init_refused h).symm
  case isFalse h =>
    rw [Bool.or_eq_true, decide_eq_true_eq, decide_eq_true_eq, not_or] at h
    obtain ⟨hzero, hle⟩ := h
    have hle : initialCount.toNat ≤ limit.toNat := UInt32.not_lt.mp hle
    have hcheck : ¬ (limit.toNat = 0 || initialCount.toNat > limit.toNat) = true := by
      rw [Bool.or_eq_true, decide_eq_true_eq, decide_eq_true_eq, not_or]
      exact ⟨fun h => hzero (UInt32.toNat_inj.mp h), Nat.not_lt.mpr hle⟩
    rw [contract_init hzero hle, Zephyr.kSemInit, if_neg hcheck, Native.new, dif_pos hle]

theorem zephyr_take : Zephyr.osSemTake sem inIsr timeout =
    contract.step sem ⟨inIsr, .take timeout⟩ := by
  rw [Zephyr.osSemTake]
  cases h : sem.handle with
  | none => simp [contract, h]
  | some native =>
    have hnative :
        Zephyr.kSemTake native (if timeout = OS_WAIT_FOREVER then .forever
          else if timeout = 0 then .noWait else .ticks timeout) =
        native.take (waitTicks timeout) := by
      rw [waitTicks]
      split
      case isTrue => rfl
      case isFalse =>
        split
        case isTrue hzero => rw [hzero]; rfl
        case isFalse => rfl
    simp only []
    rw [contract_take h, hnative]

/-- **A step of the Zephyr adapter** is one of the contract. -/
theorem zephyr_step (sem : Sem) (call : Call) : zephyr.step sem call = contract.step sem call := by
  obtain ⟨inIsr, op⟩ := call
  cases op with
  | init => exact zephyr_init
  | deinit =>
    obtain ⟨handle, limit⟩ := sem
    cases handle <;> rfl
  | give => exact machine_give ..
  | countGet => exact machine_countGet ..
  | take => exact zephyr_take

/-! ## Runs -/

/-- A call that comes back leaves nobody suspended. -/
theorem contract_unused (hs : sem.Unused) (hends : (contract.step sem call).2.ends = false) :
    (contract.step sem call).1.Unused := by
  obtain ⟨inIsr, op⟩ := call
  have hhandle (native : Native) (limit : UInt32) (hn : native.suspended = 0) :
      Sem.Unused ⟨some native, limit⟩ := by
    rintro _ ⟨⟩
    exact hn
  cases op with
  | init initialCount limit =>
    by_cases h : limit = 0 ∨ initialCount > limit
    case pos => rwa [contract_init_refused h]
    case neg =>
      obtain ⟨hzero, hle⟩ := not_or.mp h
      rw [contract_init hzero (UInt32.not_lt.mp hle)]
      exact hhandle _ limit rfl
  | deinit =>
    obtain ⟨handle, limit⟩ := sem
    cases handle with
    | none => exact hs
    | some native =>
      cases inIsr with
      | false => exact fun _ h => by cases h
      | true => exact hs
  | give =>
    obtain ⟨handle, limit⟩ := sem
    cases handle with
    | none => exact hs
    | some native => exact hhandle _ limit (hs native rfl)
  | countGet =>
    obtain ⟨handle, limit⟩ := sem
    cases handle <;> exact hs
  | take timeout =>
    cases h : sem.handle with
    | none =>
      have hstep : contract.step sem ⟨inIsr, .take timeout⟩ = (sem, .returned (-EINVAL) 0) := by
        simp [contract, h]
      rwa [hstep]
    | some native =>
      rw [contract_take h] at hends ⊢
      split
      case isTrue => exact hs
      case isFalse hisr =>
        rw [if_neg hisr] at hends
        simp only [Native.take] at hends ⊢
        cases htake : native.tokens.take? with
        | some tokens => exact hhandle _ sem.limit (hs native h)
        | none =>
          simp only [htake] at hends
          cases hticks : waitTicks timeout with
          | some ticks => exact hs
          | none =>
            rw [hticks] at hends
            cases hends

/-- **The semaphores keep the contract of the services.** In a run on a semaphore on which nobody is
suspended, up to a call that waits for ever, the Zephyr adapter answers as the contract says. The
FreeRTOS adapter does exactly where every limit fits `UBaseType_t`, and, with ticks of 16 bits, no
call without a token has a timeout from `portMAX_DELAY` on; the RT-Thread adapter does exactly where
no limit is beyond `RT_SEM_VALUE_MAX` and no such timeout beyond `INT32_MAX`. -/
theorem semaphore_contract (hs : sem.Unused) (calls : List Call) :
    (∀ port, (freeRtos port).traceUntil Answer.ends sem calls =
        contract.traceUntil Answer.ends sem calls ↔
      ∀ v ∈ contract.visitsUntil Answer.ends sem calls,
        Within (2 ^ port.baseBits) port.ticksBound v.1 v.2) ∧
    (rtThread.traceUntil Answer.ends sem calls = contract.traceUntil Answer.ends sem calls ↔
      ∀ v ∈ contract.visitsUntil Answer.ends sem calls, Within (2 ^ 16) (2 ^ 31) v.1 v.2) ∧
    zephyr.traceUntil Answer.ends sem calls = contract.traceUntil Answer.ends sem calls := by
  have hkeep (s : Sem) (c : Call) (hs : s.Unused) (he : (contract.step s c).2.ends = false) :=
    contract_unused hs he
  refine ⟨fun port => ?_, ?_, ?_⟩
  · exact Mealy.traceUntil_eq_iff hkeep (fun s c _ => freeRtos_step_iff port s c) hs
  · exact Mealy.traceUntil_eq_iff hkeep rtThread_step_iff hs
  · have hstep (s : Sem) (c : Call) (_ : s.Unused) :
        zephyr.step s c = contract.step s c ↔ True := iff_of_true (zephyr_step s c) trivial
    exact (Mealy.traceUntil_eq_iff hkeep hstep hs).mpr fun _ _ => trivial

/-- A port with ticks of 16 bits gives up at once where the timeout is 2 ^ 16 ticks. -/
example : ((freeRtos ⟨true, 32⟩).traceUntil Answer.ends .zero
    [⟨false, .init 0 1⟩, ⟨false, .take 0x10000⟩]).map Prod.snd =
      [.returned 0 0, .returned (-ETIMEDOUT) 0] := by decide

end

/-- A semaphore is given twice up to its limit and taken once, and the next call waits for ever. -/
def takesRun : List Call :=
  [⟨false, .init 0 1⟩, ⟨true, .give⟩, ⟨false, .give⟩, ⟨false, .take 5⟩, ⟨false, .countGet⟩,
    ⟨false, .take OS_WAIT_FOREVER⟩, ⟨false, .deinit⟩]

theorem semaphore_contract_takes :
    rtThread.traceUntil Answer.ends .zero takesRun =
        contract.traceUntil Answer.ends .zero takesRun ∧
      (contract.traceUntil Answer.ends .zero takesRun).map Prod.snd =
        [.returned 0 0, .void, .void, .returned 0 0, .count 0, .waits] := by
  have hunused : Sem.zero.Unused := fun _ h => by cases h
  refine ⟨(semaphore_contract hunused takesRun).2.1.mpr fun v hv => ?_, by decide⟩
  have hcall : v.2 ∈ takesRun := Mealy.mem_of_mem_visitsUntil hv
  simp only [takesRun, List.mem_cons, List.not_mem_nil, or_false] at hcall
  constructor
  · rintro initialCount limit hop - -
    rcases hcall with h | h | h | h | h | h | h <;> rw [h] at hop <;> cases hop
    decide
  · rintro timeout ⟨hop, -⟩ hne
    rcases hcall with h | h | h | h | h | h | h <;> rw [h] at hop <;> cases hop
    · decide
    · exact absurd rfl hne

end HazelOsal.Semaphore
