import HazelOsal.MessageQueue.State

/-! # Calls and the whole system

`Pc` is the point a caller has reached: a step is one semaphore operation, one critical section, or
one read outside a critical section. Any number of callers interleave their steps in any order. The
clock is left out: a wait for a semaphore with a finite timeout may end whenever no token is
there. -/

namespace HazelOsal.MessageQueue

open TransitionSystem

/-- A token that a caller has taken from a semaphore, or is about to give to it. -/
inductive Token where
  | item
  | space
  deriving DecidableEq

/-- `received` is the return of 0 by `os_msgq_get` to a caller whose message is now the given
one. -/
inductive Pc where
  | idle
  | done (result : Int)
  | received (message : List UInt8)
  | counted (count : UInt32)
  | putEnter (message : Bytes) (timeout : UInt32)
  | putTake (message : Bytes) (timeout : UInt32)
  | putWaiting (message : Bytes) (timeout : UInt32)
  | putCritical (message : Bytes)
  | putGive (message : Bytes)
  | getEnter (message : Bytes) (timeout : UInt32)
  | getTake (message : Bytes) (timeout : UInt32)
  | getWaiting (message : Bytes) (timeout : UInt32)
  | getCritical (message : Bytes)
  | getGive (message : Bytes)
  | countEnter
  | countLock

/-- The API calls. -/
inductive Op where
  | put (message : Bytes) (timeout : UInt32)
  | get (message : Bytes) (timeout : UInt32)
  | countGet

def Op.entry : Op → Pc
  | .put message timeout => .putEnter message timeout
  | .get message timeout => .getEnter message timeout
  | .countGet => .countEnter

namespace Pc

/-- No call is in progress. -/
def free : Pc → Bool
  | .idle | .done _ | .received _ | .counted _ => true
  | _ => false

/-- The token of a call between its two semaphore operations. -/
def held : Pc → Option Token
  | .putCritical _ | .getGive _ => some .space
  | .putGive _ | .getCritical _ => some .item
  | _ => none

/-- What the call has put or got, after its critical section. -/
def event (messageSize : Nat) : Pc → Option (FifoEvent (List UInt8))
  | .putGive message => some (.put (bytes message 0 messageSize))
  | .getGive message => some (.get (bytes message 0 messageSize))
  | .received message => some (.get message)
  | _ => none

end Pc

variable {T N : Type} [DecidableEq T] [DecidableEq N]

/-- The next step of a call; `none` while it waits. -/
def callStep (port : Port) (c : Caller T N) (m : Mem T N) : Pc → Option (Mem T N × Pc)
  | .idle | .done _ | .received _ | .counted _ => none
  -- os_msgq_put
  | .putEnter message timeout =>
    some (m, if m.msgq.initialized then .putTake message timeout else .done (-EINVAL))
  | .putTake message timeout =>
    match m.msgq.spaces.take c.inIsr timeout with
    | .fail result => some (m, .done result)
    | .taken spaces => some (m.setSpaces spaces, .putCritical message)
    | .wait => some (m, .putWaiting message timeout)
  | .putWaiting message _ =>
    m.msgq.spaces.tryTake.map fun spaces => (m.setSpaces spaces, .putCritical message)
  | .putCritical message => some (osMsgqPutCritical port c m message, .putGive message)
  | .putGive _ => some (m.setItems m.msgq.items.give, .done 0)
  -- os_msgq_get
  | .getEnter message timeout =>
    some (m, if m.msgq.initialized then .getTake message timeout else .done (-EINVAL))
  | .getTake message timeout =>
    match m.msgq.items.take c.inIsr timeout with
    | .fail result => some (m, .done result)
    | .taken items => some (m.setItems items, .getCritical message)
    | .wait => some (m, .getWaiting message timeout)
  | .getWaiting message _ =>
    m.msgq.items.tryTake.map fun items => (m.setItems items, .getCritical message)
  | .getCritical message =>
    let (m, message) := osMsgqGetCritical port c m message
    some (m, .getGive message)
  | .getGive message =>
    some (m.setSpaces m.msgq.spaces.give, .received (bytes message 0 m.msgq.messageSize))
  -- os_msgq_count_get
  | .countEnter => some (m, if m.msgq.initialized then .countLock else .counted 0)
  | .countLock => some (m, .counted m.msgq.count)

/-- A wait for a semaphore ends without a token. -/
def callExpire (m : Mem T N) : Pc → Option Pc
  | .putWaiting _ timeout =>
    if timeout ≠ OS_WAIT_FOREVER ∧ m.msgq.spaces.count = 0 then some (.done (-ETIMEDOUT)) else none
  | .getWaiting _ timeout =>
    if timeout ≠ OS_WAIT_FOREVER ∧ m.msgq.items.count = 0 then some (.done (-ETIMEDOUT)) else none
  | _ => none

/-- The state of the whole system. -/
structure State (T N : Type) where
  mem : Mem T N
  call : Caller T N → Pc

namespace State

variable (s : State T N)

def setCall (c : Caller T N) (m : Mem T N) (p : Pc) : State T N :=
  { mem := m, call := Function.update s.call c p }

@[simp] theorem setCall_mem (c : Caller T N) (m : Mem T N) (p : Pc) : (s.setCall c m p).mem = m :=
  rfl

theorem setCall_call (c d : Caller T N) (m : Mem T N) (p : Pc) :
    (s.setCall c m p).call d = if d = c then p else s.call d := Function.update_apply ..

/-- The tokens that the callers hold. -/
def held (c : Caller T N) : Option Token := (s.call c).held

theorem setCall_held (c : Caller T N) (m : Mem T N) (p : Pc) :
    (s.setCall c m p).held = Function.update s.held c p.held := by
  funext d
  rw [held, setCall_call, Function.update_apply]
  split <;> rfl

end State

/-- What may happen next. -/
inductive Act (T N : Type) where
  | call (c : Caller T N) (op : Op)
  | step (c : Caller T N)
  | expire (c : Caller T N)

/-- The caller that acts. -/
def Act.caller : Act T N → Caller T N
  | .call c _ | .step c | .expire c => c

def step (port : Port) (s : State T N) : Act T N → Option (State T N)
  | .call c op => if (s.call c).free then some (s.setCall c s.mem op.entry) else none
  | .step c => (callStep port c s.mem (s.call c)).map fun (m, p) => s.setCall c m p
  | .expire c => (callExpire s.mem (s.call c)).map fun p => s.setCall c s.mem p

/-- The queue has just been initialized. -/
structure Init (port : Port) (messageSize : Nat) (capacity : UInt32) (s : State T N) : Prop where
  msgq : osMsgqInit port messageSize capacity = .ok s.mem.msgq
  hist : s.mem.hist = []
  call : ∀ c, s.call c = .idle

/-- The state in which the buffer is all zero. -/
def State.initial (messageSize : Nat) (capacity : UInt32) : State T N where
  mem := { msgq := .empty messageSize capacity, memory := fun _ => 0, hist := [] }
  call := fun _ => .idle

/-- A call and its first `n` steps. -/
def callSteps (c : Caller T N) (op : Op) (n : Nat) : List (Act T N) :=
  .call c op :: List.replicate n (.step c)

/-- The users of a message queue that `os_msgq_init(msgq, buffer, messageSize, capacity)` has
accepted. -/
def system (port : Port) (messageSize : Nat) (capacity : UInt32) :
    System (State T N) (Act T N) where
  init := Init port messageSize capacity
  step := step port

/-! ## What a step does -/

/-- The steps of a call at `p`: all but those that touch a semaphore successfully and the critical
sections leave the memory alone. -/
inductive Effect (port : Port) (c : Caller T N) (m : Mem T N) : Pc → Mem T N → Pc → Prop
  | quiet (hp : p.held = none) (hp' : p'.held = none)
    (he : ∀ messageSize, p'.event messageSize = none) : Effect port c m p m p'
  | takeSpace (hp : p.held = none) (ht : m.msgq.spaces.tryTake = some spaces) :
    Effect port c m p (m.setSpaces spaces) (.putCritical message)
  | put : Effect port c m (.putCritical message) (osMsgqPutCritical port c m message)
    (.putGive message)
  | giveItem : Effect port c m (.putGive message) (m.setItems m.msgq.items.give) (.done 0)
  | takeItem (hp : p.held = none) (ht : m.msgq.items.tryTake = some items) :
    Effect port c m p (m.setItems items) (.getCritical message)
  | get : Effect port c m (.getCritical message) (osMsgqGetCritical port c m message).1
    (.getGive (osMsgqGetCritical port c m message).2)
  | giveSpace : Effect port c m (.getGive message) (m.setSpaces m.msgq.spaces.give)
    (.received (bytes message 0 m.msgq.messageSize))

section
variable {port : Port} {c : Caller T N} {m m' : Mem T N} {p p' : Pc}
omit [DecidableEq N] [DecidableEq T]

theorem callStep_effect (h : callStep port c m p = some (m', p')) : Effect port c m p m' p' := by
  cases p with
  | idle | done | received | counted => cases h
  | putEnter | getEnter | countEnter =>
    cases h
    split
    all_goals exact .quiet rfl rfl fun _ => rfl
  | putTake message timeout =>
    simp only [callStep] at h
    split at h
    case h_1 => cases h; exact .quiet rfl rfl fun _ => rfl
    case h_2 ht => cases h; exact .takeSpace rfl (OsSem.take_eq_taken ht)
    case h_3 => cases h; exact .quiet rfl rfl fun _ => rfl
  | getTake message timeout =>
    simp only [callStep] at h
    split at h
    case h_1 => cases h; exact .quiet rfl rfl fun _ => rfl
    case h_2 ht => cases h; exact .takeItem rfl (OsSem.take_eq_taken ht)
    case h_3 => cases h; exact .quiet rfl rfl fun _ => rfl
  | putWaiting =>
    obtain ⟨spaces, ht, h⟩ := Option.map_eq_some_iff.mp h
    cases h
    exact .takeSpace rfl ht
  | getWaiting =>
    obtain ⟨items, ht, h⟩ := Option.map_eq_some_iff.mp h
    cases h
    exact .takeItem rfl ht
  | putCritical => cases h; exact .put
  | putGive => cases h; exact .giveItem
  | getCritical => cases h; exact .get
  | getGive => cases h; exact .giveSpace
  | countLock => cases h; exact .quiet rfl rfl fun _ => rfl

/-- A call whose wait ends was waiting, and fails. -/
theorem callExpire_eq (h : callExpire m p = some p') : p.held = none ∧ p' = .done (-ETIMEDOUT) := by
  cases p with
  | putWaiting | getWaiting =>
    obtain ⟨-, h⟩ := Option.ite_none_right_eq_some.mp h
    cases h
    exact ⟨rfl, rfl⟩
  | _ => cases h

end

end HazelOsal.MessageQueue
