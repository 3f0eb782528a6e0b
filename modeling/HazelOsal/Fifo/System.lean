import HazelOsal.Kernel.Thread
import HazelOsal.Library.Callers
import HazelOsal.Library.Fifo

/-! # The intrusive FIFO: data model, calls and the whole system

`fifo.c`, with one definition for each `os_enter_critical` … `os_exit_critical` block. There are any
number of initialized FIFOs, which nobody deinitializes, of nodes that link into them, and of
callers, which interleave their steps in any order: a step is one semaphore operation, one critical
section, or one read outside a critical section. The null checks on pointers are left out with the
pointers, and a wait with a finite timeout may end whenever no token is there. -/

namespace HazelOsal.Fifo

open TransitionSystem

variable {F E T N : Type} [DecidableEq F] [DecidableEq E] [DecidableEq T] [DecidableEq N]

/-- The FIFOs, the flag `queued` of each node, and the record of what the critical sections have put
in a FIFO and got from it. No modelled function reads the record. -/
structure Mem (F E : Type) where
  fifo : F → OsFifo E
  queued : E → Bool
  log : F → List (FifoEvent E)

namespace Mem

variable (m : Mem F E)

def setFifo (f : F) (fifo : OsFifo E) : Mem F E := { m with fifo := Function.update m.fifo f fifo }

/-- An operation on the semaphore `items`. -/
def setItems (f : F) (items : OsSem 65535) : Mem F E := m.setFifo f { m.fifo f with items }

def record (f : F) (e : FifoEvent E) : Mem F E :=
  { m with log := Function.update m.log f (m.log f ++ [e]) }

end Mem

/-- The critical section of `os_fifo_put`. -/
def osFifoPutCritical (m : Mem F E) (f : F) (node : E) : Except Int (Mem F E) :=
  let fifo := m.fifo f
  if m.queued node then .error (-EBUSY)
  else if fifo.count ≥ UINT16_MAX then .error (-ENOSPC)
  else
    let m := { m with queued := Function.update m.queued node true }
    let m := m.setFifo f { fifo with list := fifo.list ++ [node], count := fifo.count + 1 }
    .ok (m.record f (.put node))

/-- The critical section of `os_fifo_get`. -/
def osFifoGetCritical (m : Mem F E) (f : F) : Except Int (Mem F E × E) :=
  let fifo := m.fifo f
  match fifo.list with
  | [] => .error (-EAGAIN)
  | node :: list =>
    let m := m.setFifo f { fifo with list, count := fifo.count - 1 }
    let m := { m with queued := Function.update m.queued node false }
    .ok (m.record f (.get node), node)

/-- `got` is the return of 0 by `os_fifo_get` with the given node. -/
inductive Pc (F E : Type) where
  | idle
  | done (result : Int)
  | got (node : E)
  | putEnter (f : F) (node : E)
  | putCritical (f : F) (node : E)
  | putGive (f : F)
  | getEnter (f : F) (timeout : UInt32)
  | getTake (f : F) (timeout : UInt32)
  | getWaiting (f : F) (timeout : UInt32)
  | getCritical (f : F)
  deriving DecidableEq

/-- The API calls. -/
inductive Op (F E : Type) where
  | put (f : F) (node : E)
  | get (f : F) (timeout : UInt32)

def Op.entry : Op F E → Pc F E
  | .put f node => .putEnter f node
  | .get f timeout => .getEnter f timeout

namespace Pc

/-- No call is in progress. -/
def free : Pc F E → Bool
  | .idle | .done _ | .got _ => true
  | _ => false

/-- The FIFO of a put that has still to give, or of a get that has taken and has still to remove a
node. -/
def inFlight : Pc F E → Option F
  | .putGive f | .getCritical f => some f
  | _ => none

end Pc

/-- The next step of a call; `none` while it waits. -/
def callStep (c : Caller T N) (m : Mem F E) : Pc F E → Option (Mem F E × Pc F E)
  | .idle | .done _ | .got _ => none
  -- os_fifo_put
  | .putEnter f node =>
    some (m, if (m.fifo f).initialized then .putCritical f node else .done (-EINVAL))
  | .putCritical f node =>
    match osFifoPutCritical m f node with
    | .ok m => some (m, .putGive f)
    | .error result => some (m, .done result)
  | .putGive f => some (m.setItems f (m.fifo f).items.give, .done 0)
  -- os_fifo_get
  | .getEnter f timeout =>
    some (m, if (m.fifo f).initialized then .getTake f timeout else .done (-EINVAL))
  | .getTake f timeout =>
    match (m.fifo f).items.take c.inIsr timeout with
    | .fail result => some (m, .done result)
    | .taken items => some (m.setItems f items, .getCritical f)
    | .wait => some (m, .getWaiting f timeout)
  | .getWaiting f _ =>
    (m.fifo f).items.tryTake.map fun items => (m.setItems f items, .getCritical f)
  | .getCritical f =>
    match osFifoGetCritical m f with
    | .ok (m, node) => some (m, .got node)
    | .error result => some (m, .done result)

/-- A wait for an item ends without a token. -/
def callExpire (m : Mem F E) : Pc F E → Option (Pc F E)
  | .getWaiting f timeout =>
    if timeout ≠ OS_WAIT_FOREVER ∧ (m.fifo f).items.count = 0 then some (.done (-ETIMEDOUT))
    else none
  | _ => none

/-- What the users of the FIFOs run. -/
def program : Program (Caller T N) (Mem F E) (Pc F E) (Op F E) Empty where
  free := Pc.free
  entry := Op.entry
  step := callStep
  expire := callExpire
  event := fun _ _ => none

abbrev State (F E T N : Type) := Callers (Caller T N) (Mem F E) (Pc F E)

abbrev Act (F E T N : Type) := CallAct (Caller T N) (Op F E) Empty

/-- Every FIFO and every node has just been initialized. -/
def Mem.initial : Mem F E where
  fifo := fun _ => osFifoInit
  queued := fun _ => false
  log := fun _ => []

/-- The users of the FIFOs. -/
def system : System (State F E T N) (Act F E T N) := program.system (· = .initial) .idle

/-! ## What a step does -/

/-- The steps of a call at `p`: those that go on elsewhere leave the memory alone, and the others
change one FIFO. -/
inductive Effect (m : Mem F E) : Pc F E → Mem F E → Pc F E → Prop
  | quiet (hp : p.inFlight = none) (hp' : p'.inFlight = none) : Effect m p m p'
  | take {f : F} {items : OsSem 65535} (hp : p.inFlight = none)
      (ht : (m.fifo f).items.tryTake = some items) :
    Effect m p (m.setItems f items) (.getCritical f)
  | put (hput : osFifoPutCritical m f node = .ok m') :
    Effect m (.putCritical f node) m' (.putGive f)
  | give : Effect m (.putGive f) (m.setItems f (m.fifo f).items.give) (.done 0)
  | get (hget : osFifoGetCritical m f = .ok (m', node)) :
    Effect m (.getCritical f) m' (.got node)
  | again (hget : osFifoGetCritical m f = .error result) :
    Effect m (.getCritical f) m (.done result)

section
variable {c : Caller T N} {m m' : Mem F E} {p p' : Pc F E}

omit [DecidableEq T] [DecidableEq N] in
theorem callStep_effect (h : callStep c m p = some (m', p')) : Effect m p m' p' := by
  cases p with
  | idle | done | got => cases h
  | putEnter | getEnter =>
    cases h
    split
    all_goals exact .quiet rfl rfl
  | putCritical f node =>
    simp only [callStep] at h
    split at h
    case h_1 hput => cases h; exact .put hput
    case h_2 => cases h; exact .quiet rfl rfl
  | putGive => cases h; exact .give
  | getTake f timeout =>
    simp only [callStep] at h
    split at h
    case h_1 => cases h; exact .quiet rfl rfl
    case h_2 ht => cases h; exact .take rfl (OsSem.take_eq_taken ht)
    case h_3 => cases h; exact .quiet rfl rfl
  | getWaiting =>
    obtain ⟨items, ht, h⟩ := Option.map_eq_some_iff.mp h
    cases h
    exact .take rfl ht
  | getCritical f =>
    simp only [callStep] at h
    split at h
    case h_1 hget => cases h; exact .get hget
    case h_2 hget => cases h; exact .again hget

omit [DecidableEq F] [DecidableEq E] in
/-- A call whose wait ends was waiting, and fails. -/
theorem callExpire_eq (h : callExpire m p = some p') :
    p.inFlight = none ∧ p' = .done (-ETIMEDOUT) := by
  cases p with
  | getWaiting =>
    obtain ⟨-, h⟩ := Option.ite_none_right_eq_some.mp h
    exact ⟨rfl, (Option.some.inj h).symm⟩
  | _ => cases h

end

end HazelOsal.Fifo
