import HazelOsal.Library.Callers
import HazelOsal.MemSlab.State

/-! # Calls and the whole system

`Pc` is the point a caller has reached: a step is one semaphore operation, one critical section, or
one read outside a critical section. Any number of callers interleave their steps in any order, and
between them whoever holds a block writes to it. A wait for a block with a finite timeout may end
whenever no token is there. -/

namespace HazelOsal.MemSlab

open TransitionSystem

/-- `allocated` is the return of 0 by `os_mem_slab_alloc` with the given block. -/
inductive Pc where
  | idle
  | done (result : Int)
  | allocated (memory : Nat)
  | counted (count : UInt32)
  | allocEnter (timeout : UInt32)
  | allocTake (timeout : UInt32)
  | allocWaiting (timeout : UInt32)
  | allocCritical
  | freeEnter (memory : Nat)
  | freeCritical (memory : Nat)
  | freeGive (memory : Nat)
  | countEnter
  | countLock
  deriving DecidableEq

/-- The API calls. -/
inductive Op where
  | alloc (timeout : UInt32)
  | free (memory : Nat)
  | numFreeGet

def Op.entry : Op → Pc
  | .alloc timeout => .allocEnter timeout
  | .free memory => .freeEnter memory
  | .numFreeGet => .countEnter

namespace Pc

/-- No call is in progress. -/
def free : Pc → Bool
  | .idle | .done _ | .allocated _ | .counted _ => true
  | _ => false

/-- The call is between its semaphore operation and its critical section. -/
def inFlight : Pc → Option Unit
  | .allocCritical | .freeGive _ => some ()
  | _ => none

end Pc

variable {T N : Type} [DecidableEq T] [DecidableEq N]

/-- The next step of a call; `none` while it waits. -/
def callStep (port : Port) (c : Caller T N) (m : Mem) : Pc → Option (Mem × Pc)
  | .idle | .done _ | .allocated _ | .counted _ => none
  -- os_mem_slab_alloc
  | .allocEnter timeout =>
    some (m, if m.slab.initialized then .allocTake timeout else .done (-EINVAL))
  | .allocTake timeout =>
    match m.slab.available.take c.inIsr timeout with
    | .fail result => some (m, .done result)
    | .taken available => some (m.setAvailable available, .allocCritical)
    | .wait => some (m, .allocWaiting timeout)
  | .allocWaiting _ =>
    m.slab.available.tryTake.map fun available => (m.setAvailable available, .allocCritical)
  | .allocCritical =>
    let (m, memory) := osMemSlabAllocCritical m
    some (m, .allocated memory)
  -- os_mem_slab_free
  | .freeEnter memory =>
    some (m, if !m.slab.initialized || memory = NULL then .done (-EINVAL)
      else if osMemSlabIsBlock port m.slab memory then .freeCritical memory
      else .done (-EINVAL))
  | .freeCritical memory =>
    match osMemSlabFreeCritical m memory with
    | some m => some (m, .freeGive memory)
    | none => some (m, .done (-EINVAL))
  | .freeGive _ => some (m.setAvailable m.slab.available.give, .done 0)
  -- os_mem_slab_num_free_get
  | .countEnter => some (m, if m.slab.initialized then .countLock else .counted 0)
  | .countLock => some (m, .counted m.slab.freeBlocks)

/-- A wait for a block ends without a token. -/
def callExpire (m : Mem) : Pc → Option Pc
  | .allocWaiting timeout =>
    if timeout ≠ OS_WAIT_FOREVER ∧ m.slab.available.count = 0 then some (.done (-ETIMEDOUT))
    else none
  | _ => none

/-- What the users of the slab run; the events are the writes to a block by whoever holds it. -/
def program (port : Port) : Program (Caller T N) Mem Pc Op (Nat × (Nat → Nat)) where
  free := Pc.free
  entry := Op.entry
  step := callStep port
  expire := callExpire
  event := fun (block, content) m => if m.held block then some (m.write block content) else none

abbrev State (T N : Type) := Callers (Caller T N) Mem Pc

abbrev Act (T N : Type) := CallAct (Caller T N) Op (Nat × (Nat → Nat))

/-- The slab has just been initialized. -/
structure Init (port : Port) (buffer blockSize : Nat) (numBlocks : UInt32) (m : Mem) : Prop where
  slab : ∃ memory, osMemSlabInit port memory buffer blockSize numBlocks = .ok (m.slab, m.memory)
  held : ∀ block, m.held block = false

/-- The memory in which the buffer was all zero. -/
def Mem.initial (port : Port) (buffer blockSize : Nat) (numBlocks : UInt32) : Mem where
  slab := .full buffer blockSize numBlocks
  memory := osMemSlabLink port (fun _ => 0) buffer blockSize numBlocks numBlocks.toNat
  held := fun _ => false

/-- The users of a slab that `os_mem_slab_init(slab, buffer, blockSize, numBlocks)` has accepted. -/
def system (port : Port) (buffer blockSize : Nat) (numBlocks : UInt32) :
    System (State T N) (Act T N) :=
  (program port).system (Init port buffer blockSize numBlocks) .idle

/-! ## What a step does -/

/-- The steps of a call at `p`: all but those that touch the semaphore successfully and the critical
sections leave the memory alone. -/
inductive Effect (port : Port) (m : Mem) : Pc → Mem → Pc → Prop
  | quiet (hp : p.inFlight = none) (hp' : p'.inFlight = none) (hm : ∀ a, p' ≠ .freeCritical a) :
    Effect port m p m p'
  | take (hp : p.inFlight = none) (ht : m.slab.available.tryTake = some available) :
    Effect port m p (m.setAvailable available) .allocCritical
  | alloc : Effect port m .allocCritical (osMemSlabAllocCritical m).1
    (.allocated (osMemSlabAllocCritical m).2)
  | enterFree (hb : osMemSlabIsBlock port m.slab memory = true) (hne : memory ≠ NULL) :
    Effect port m (.freeEnter memory) m (.freeCritical memory)
  | free (hf : osMemSlabFreeCritical m memory = some m') :
    Effect port m (.freeCritical memory) m' (.freeGive memory)
  | refuse (hf : osMemSlabFreeCritical m memory = none) :
    Effect port m (.freeCritical memory) m (.done (-EINVAL))
  | give : Effect port m (.freeGive memory) (m.setAvailable m.slab.available.give) (.done 0)

section
variable {port : Port} {c : Caller T N} {m m' : Mem} {p p' : Pc}

omit [DecidableEq T] [DecidableEq N] in
theorem callStep_effect (h : callStep port c m p = some (m', p')) : Effect port m p m' p' := by
  cases p with
  | idle | done | allocated | counted => cases h
  | allocEnter | countEnter =>
    cases h
    split
    all_goals exact .quiet rfl rfl fun _ h => by cases h
  | allocTake timeout =>
    simp only [callStep] at h
    split at h
    case h_1 => cases h; exact .quiet rfl rfl fun _ h => by cases h
    case h_2 ht => cases h; exact .take rfl (OsSem.take_eq_taken ht)
    case h_3 => cases h; exact .quiet rfl rfl fun _ h => by cases h
  | allocWaiting =>
    obtain ⟨available, ht, h⟩ := Option.map_eq_some_iff.mp h
    cases h
    exact .take rfl ht
  | allocCritical => cases h; exact .alloc
  | freeEnter memory =>
    cases h
    split
    case isTrue => exact .quiet rfl rfl fun _ h => by cases h
    case isFalse hok =>
      split
      case isTrue hb =>
        simp only [Bool.or_eq_true, decide_eq_true_eq, not_or] at hok
        exact .enterFree hb hok.2
      case isFalse => exact .quiet rfl rfl fun _ h => by cases h
  | freeCritical memory =>
    simp only [callStep] at h
    split at h
    case h_1 hf => cases h; exact .free hf
    case h_2 hf => cases h; exact .refuse hf
  | freeGive => cases h; exact .give
  | countLock => cases h; exact .quiet rfl rfl fun _ h => by cases h

/-- A call whose wait ends was waiting, and fails. -/
theorem callExpire_eq (h : callExpire m p = some p') :
    p.inFlight = none ∧ p' = .done (-ETIMEDOUT) := by
  cases p with
  | allocWaiting =>
    obtain ⟨-, h⟩ := Option.ite_none_right_eq_some.mp h
    exact ⟨rfl, (Option.some.inj h).symm⟩
  | _ => cases h

end

end HazelOsal.MemSlab
