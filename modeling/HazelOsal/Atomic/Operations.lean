import HazelOsal.Library.BitArray
import HazelOsal.Library.Linearizable
import Mathlib.Algebra.Ring.Nat

/-! # Atomic operations

`common/atomic.c` and the operations on bits of `sys/atomic.h`, on words of `ATOMIC_BITS = 2 ^ k`
bits. The builtins are sequentially consistent, so that an operation on memory is one step of its
caller. `atomic_gcc.h` has another `atomic_nand`, which reads the word and then tries to exchange it
until it is as it was read. The operations on pointers, `atomic_ptr_…`, are left out. -/

namespace HazelOsal.Atomic

open TransitionSystem BitArray

/-- `atomic_val_t`. -/
abbrev AtomicVal (k : Nat) := BitVec (2 ^ k)

/-- The words of memory, by their addresses. -/
abbrev Mem (k : Nat) := Nat → AtomicVal k

section
variable {k : Nat}

/-! ## Words -/

/-- `__atomic_fetch_…`, which returns the value that it replaces. -/
def fetch (f : AtomicVal k → AtomicVal k) (m : Mem k) (target : Nat) : Mem k × AtomicVal k :=
  (Function.update m target (f (m target)), m target)

def atomicCas (m : Mem k) (target : Nat) (oldValue newValue : AtomicVal k) : Mem k × Bool :=
  if m target = oldValue then (Function.update m target newValue, true) else (m, false)

def atomicAdd (m : Mem k) (target : Nat) (value : AtomicVal k) : Mem k × AtomicVal k :=
  fetch (· + value) m target

def atomicSub (m : Mem k) (target : Nat) (value : AtomicVal k) : Mem k × AtomicVal k :=
  fetch (· - value) m target

def atomicInc (m : Mem k) (target : Nat) : Mem k × AtomicVal k := atomicAdd m target 1

def atomicDec (m : Mem k) (target : Nat) : Mem k × AtomicVal k := atomicSub m target 1

def atomicGet (m : Mem k) (target : Nat) : AtomicVal k := m target

def atomicSet (m : Mem k) (target : Nat) (value : AtomicVal k) : Mem k × AtomicVal k :=
  fetch (fun _ => value) m target

def atomicClear (m : Mem k) (target : Nat) : Mem k × AtomicVal k := atomicSet m target 0

def atomicOr (m : Mem k) (target : Nat) (value : AtomicVal k) : Mem k × AtomicVal k :=
  fetch (· ||| value) m target

def atomicXor (m : Mem k) (target : Nat) (value : AtomicVal k) : Mem k × AtomicVal k :=
  fetch (· ^^^ value) m target

def atomicAnd (m : Mem k) (target : Nat) (value : AtomicVal k) : Mem k × AtomicVal k :=
  fetch (· &&& value) m target

def atomicNand (m : Mem k) (target : Nat) (value : AtomicVal k) : Mem k × AtomicVal k :=
  fetch (fun old => ~~~(old &&& value)) m target

/-! ## Bits -/

/-- `ATOMIC_BITS`. -/
def atomicBits (k : Nat) : Nat := 2 ^ k

/-- `ATOMIC_MASK`. -/
def atomicMask (bit : Nat) : AtomicVal k := 1#(2 ^ k) <<< (bit &&& (atomicBits k - 1))

/-- `ATOMIC_ELEM`. -/
def atomicElem (k addr bit : Nat) : Nat := addr + bit / atomicBits k

def atomicTestBit (m : Mem k) (target bit : Nat) : Bool :=
  let val := atomicGet m (atomicElem k target bit)
  1 &&& val.sshiftRight (bit &&& (atomicBits k - 1)) != 0

def atomicTestAndClearBit (m : Mem k) (target bit : Nat) : Mem k × Bool :=
  let mask : AtomicVal k := atomicMask bit
  let r := atomicAnd m (atomicElem k target bit) (~~~mask)
  (r.1, r.2 &&& mask != 0)

def atomicTestAndSetBit (m : Mem k) (target bit : Nat) : Mem k × Bool :=
  let mask : AtomicVal k := atomicMask bit
  let r := atomicOr m (atomicElem k target bit) mask
  (r.1, r.2 &&& mask != 0)

def atomicTestAndSetBitTo (m : Mem k) (target bit : Nat) (val : Bool) : Mem k × Bool :=
  if val then
    let r := atomicTestAndSetBit m target bit
    (r.1, !r.2)
  else atomicTestAndClearBit m target bit

def atomicClearBit (m : Mem k) (target bit : Nat) : Mem k :=
  (atomicAnd m (atomicElem k target bit) (~~~(atomicMask bit))).1

def atomicSetBit (m : Mem k) (target bit : Nat) : Mem k :=
  (atomicOr m (atomicElem k target bit) (atomicMask bit)).1

def atomicSetBitTo (m : Mem k) (target bit : Nat) (val : Bool) : Mem k :=
  let mask : AtomicVal k := atomicMask bit
  if val then (atomicOr m (atomicElem k target bit) mask).1
  else (atomicAnd m (atomicElem k target bit) (~~~mask)).1

end

/-! ## Calls -/

/-- The operations that return the value they replace. -/
inductive FetchOp (k : Nat) where
  | add (value : AtomicVal k)
  | sub (value : AtomicVal k)
  | inc
  | dec
  | set (value : AtomicVal k)
  | clear
  | or (value : AtomicVal k)
  | xor (value : AtomicVal k)
  | and (value : AtomicVal k)
  | nand (value : AtomicVal k)
  deriving DecidableEq

/-- The operations on bits. -/
inductive BitOp where
  | test
  | testAndClear
  | testAndSet
  | testAndSetTo (val : Bool)
  | clear
  | set
  | setTo (val : Bool)
  deriving DecidableEq

inductive Op (k : Nat) where
  | cas (target : Nat) (oldValue newValue : AtomicVal k)
  | get (target : Nat)
  | fetch (op : FetchOp k) (target : Nat)
  | onBit (op : BitOp) (target bit : Nat)
  deriving DecidableEq

/-- What an operation returns. -/
inductive Answer (k : Nat) where
  | value (v : AtomicVal k)
  | flag (b : Bool)
  | void
  deriving DecidableEq

variable {k : Nat}

def FetchOp.run (m : Mem k) (target : Nat) : FetchOp k → Mem k × AtomicVal k
  | .add value => atomicAdd m target value
  | .sub value => atomicSub m target value
  | .inc => atomicInc m target
  | .dec => atomicDec m target
  | .set value => atomicSet m target value
  | .clear => atomicClear m target
  | .or value => atomicOr m target value
  | .xor value => atomicXor m target value
  | .and value => atomicAnd m target value
  | .nand value => atomicNand m target value

def BitOp.run (m : Mem k) (target bit : Nat) : BitOp → Mem k × Answer k
  | .test => (m, .flag (atomicTestBit m target bit))
  | .testAndClear => (atomicTestAndClearBit m target bit).map id .flag
  | .testAndSet => (atomicTestAndSetBit m target bit).map id .flag
  | .testAndSetTo val => (atomicTestAndSetBitTo m target bit val).map id .flag
  | .clear => (atomicClearBit m target bit, .void)
  | .set => (atomicSetBit m target bit, .void)
  | .setTo val => (atomicSetBitTo m target bit val, .void)

/-- What an operation does in its one access to memory, and what it then returns. -/
def Op.run (m : Mem k) : Op k → Mem k × Answer k
  | .cas target oldValue newValue => (atomicCas m target oldValue newValue).map id .flag
  | .get target => (m, .value (atomicGet m target))
  | .fetch op target => (op.run m target).map id .value
  | .onBit op target bit => op.run m target bit

/-- Where a call is. -/
inductive Pc (k : Nat) where
  | idle
  | access (op : Op k)
  /-- The loop of `atomic_nand` in `atomic_gcc.h`. -/
  | nandLoad (target : Nat) (value : AtomicVal k)
  | nandExchange (target : Nat) (value old : AtomicVal k)
  | return (op : Op k) (answer : Answer k)

def Op.entry (gcc : Bool) : Op k → Pc k
  | .fetch (.nand value) target =>
    if gcc then .nandLoad target value else .access (.fetch (.nand value) target)
  | op => .access op

def callStep (m : Mem k) : Pc k → Option (Mem k × Pc k)
  | .idle => none
  | .access op => some ((op.run m).1, .return op (op.run m).2)
  | .nandLoad target value => some (m, .nandExchange target value (atomicGet m target))
  | .nandExchange target value old =>
    let r := atomicCas m target old (~~~(old &&& value))
    some (r.1, if r.2 then .return (.fetch (.nand value) target) (.value old)
      else .nandLoad target value)
  | .return _ _ => some (m, .idle)

/-- The calls of the callers `N`; `gcc` when they are those of `atomic_gcc.h`. -/
def program (N : Type) (k : Nat) (gcc : Bool) : Program N (Mem k) (Pc k) (Op k) Empty where
  free
    | .idle => true
    | _ => false
  entry := Op.entry gcc
  step _ := callStep
  expire _ _ := none
  event _ _ := none

end HazelOsal.Atomic
