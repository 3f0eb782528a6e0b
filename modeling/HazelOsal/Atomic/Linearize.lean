import HazelOsal.Atomic.Operations

/-! # The atomic operations are linearizable

To its callers memory is an array of bits, in which an operation on bits finds and changes the one
that it is told to. Every operation, also the loop of `atomic_nand`, takes effect at once on this
array. -/

namespace HazelOsal.Atomic

open TransitionSystem BitArray

/-- The number that a bit of the array at `target` has in memory. -/
def bitNumber (k target bit : Nat) : Nat := 2 ^ k * target + bit

section
variable {k : Nat}

/-- What an operation leaves of the value that it returns. -/
def FetchOp.apply (old : AtomicVal k) : FetchOp k → AtomicVal k
  | .add value => old + value
  | .sub value => old - value
  | .inc => old + 1
  | .dec => old - 1
  | .set value => value
  | .clear => 0
  | .or value => old ||| value
  | .xor value => old ^^^ value
  | .and value => old &&& value
  | .nand value => ~~~(old &&& value)

/-- What an operation leaves of a bit. -/
def BitOp.apply (old : Bool) : BitOp → Bool
  | .test => old
  | .testAndClear | .clear => false
  | .testAndSet | .set => true
  | .testAndSetTo val | .setTo val => val

/-- What it returns. -/
def BitOp.answer (old : Bool) : BitOp → Answer k
  | .test | .testAndClear | .testAndSet => .flag old
  | .testAndSetTo val => .flag (old != val)
  | .clear | .set | .setTo _ => .void

/-- What the operations do to an array of bits. -/
def specStep (s : Nat → Bool) : Op k → (Nat → Bool) × Answer k
  | .cas target oldValue newValue =>
    if word (2 ^ k) s target = oldValue then (putWord s target newValue, .flag true)
    else (s, .flag false)
  | .get target => (s, .value (word (2 ^ k) s target))
  | .fetch op target =>
    (putWord s target (op.apply (word (2 ^ k) s target)), .value (word (2 ^ k) s target))
  | .onBit op target bit =>
    (Function.update s (bitNumber k target bit) (op.apply (s (bitNumber k target bit))),
      op.answer (s (bitNumber k target bit)))

/-- The machine that the operations are to be. -/
def specification (k : Nat) : Mealy (Nat → Bool) (Op k) (Answer k) := ⟨specStep⟩

/-- The operation that a call is to do, or has done. -/
def Pc.state : Pc k → CallState (Op k) (Answer k)
  | .idle => .idle
  | .access op => .pending op
  | .nandLoad target value | .nandExchange target value _ =>
    .pending (.fetch (.nand value) target)
  | .return op answer => .answered op answer

variable {m m' : Mem k} {p p' : Pc k} {target bit : Nat}

/-! ## The operations on words -/

theorem FetchOp.run_eq (op : FetchOp k) :
    op.run m target = (Function.update m target (op.apply (m target)), m target) := by
  cases op <;> rfl

theorem atomicCas_eq {oldValue newValue : AtomicVal k} :
    specStep (bits m) (.cas target oldValue newValue) =
      (atomicCas m target oldValue newValue).map bits .flag := by
  rw [specStep, word_bits, atomicCas, ← bits_update]
  split <;> rfl

/-! ## The operations on bits -/

theorem atomicElem_eq : atomicElem k target bit = bitNumber k target bit / 2 ^ k :=
  (Nat.mul_add_div (Nat.two_pow_pos k) target bit).symm

theorem atomicMask_eq (target : Nat) :
    (atomicMask bit : AtomicVal k) = 1#(2 ^ k) <<< (bitNumber k target bit % 2 ^ k) := by
  rw [atomicMask, atomicBits, Nat.and_two_pow_sub_one_eq_mod, bitNumber, Nat.mul_add_mod]

theorem bitNumber_mod_lt : bitNumber k target bit % 2 ^ k < 2 ^ k :=
  Nat.mod_lt _ (Nat.two_pow_pos k)

theorem bits_clear : bits (fetch (· &&& ~~~(atomicMask bit)) m (atomicElem k target bit)).1 =
    Function.update (bits m) (bitNumber k target bit) false := by
  rw [fetch, atomicElem_eq, atomicMask_eq target]
  exact bits_and_not_mask (Nat.two_pow_pos k)

theorem bits_set : bits (fetch (· ||| atomicMask bit) m (atomicElem k target bit)).1 =
    Function.update (bits m) (bitNumber k target bit) true := by
  rw [fetch, atomicElem_eq, atomicMask_eq target]
  exact bits_or_mask (Nat.two_pow_pos k)

/-- The bit that a mask finds in the old value of its word. -/
theorem and_atomicMask : (m (atomicElem k target bit) &&& atomicMask bit != 0) =
    bits m (bitNumber k target bit) := by
  rw [atomicElem_eq, atomicMask_eq target]
  exact and_mask_ne_zero bitNumber_mod_lt

theorem atomicTestBit_eq : atomicTestBit m target bit = bits m (bitNumber k target bit) := by
  have hshift : bit &&& (atomicBits k - 1) = bitNumber k target bit % 2 ^ k := by
    rw [atomicBits, Nat.and_two_pow_sub_one_eq_mod, bitNumber, Nat.mul_add_mod]
  rw [atomicTestBit, atomicGet, atomicElem_eq, hshift]
  exact one_and_sshiftRight_ne_zero bitNumber_mod_lt

theorem bits_atomicSetBitTo {val : Bool} : bits (atomicSetBitTo m target bit val) =
    Function.update (bits m) (bitNumber k target bit) val := by
  cases val with
  | true => exact bits_set
  | false => exact bits_clear

theorem BitOp.run_eq (op : BitOp) :
    specStep (bits m) (.onBit op target bit : Op k) = (op.run m target bit).map bits id := by
  cases op with
  | test =>
    refine Prod.ext (Function.update_eq_self ..) ?_
    exact congrArg Answer.flag atomicTestBit_eq.symm
  | testAndClear => exact Prod.ext bits_clear.symm (congrArg Answer.flag and_atomicMask.symm)
  | testAndSet => exact Prod.ext bits_set.symm (congrArg Answer.flag and_atomicMask.symm)
  | testAndSetTo val =>
    cases val with
    | true =>
      refine Prod.ext bits_set.symm (congrArg Answer.flag ?_)
      exact (Bool.bne_true _).trans (congrArg not and_atomicMask.symm)
    | false =>
      refine Prod.ext bits_clear.symm (congrArg Answer.flag ?_)
      exact (Bool.bne_false _).trans and_atomicMask.symm
  | clear => exact Prod.ext bits_clear.symm rfl
  | set => exact Prod.ext bits_set.symm rfl
  | setTo => exact Prod.ext bits_atomicSetBitTo.symm rfl

/-- **Every operation does to the words of memory what its specification does to the bits.** -/
theorem Op.run_eq (op : Op k) : specStep (bits m) op = (op.run m).map bits id := by
  cases op with
  | cas => exact atomicCas_eq
  | get target => exact congrArg (fun v => (bits m, Answer.value v)) (congrFun word_bits target)
  | fetch op target => rw [run, op.run_eq, specStep, word_bits, ← bits_update]; rfl
  | onBit op => exact op.run_eq

/-! ## The loop of `atomic_nand` -/

/-- The exchange takes effect when the word is as it was read, whatever has been done to it in the
meantime; otherwise the call starts again. -/
theorem nandExchange_effect {value old : AtomicVal k}
    (hs : callStep m (.nandExchange target value old) = some (m', p')) :
    Effect (specification k) (bits m) (.pending (.fetch (.nand value) target)) (bits m')
      p'.state := by
  cases hs
  rw [atomicCas]
  split
  case isTrue h =>
    subst h
    exact .effect (Op.run_eq (.fetch (.nand value) target))
  case isFalse => exact .silent

theorem callStep_effect (hs : callStep m p = some (m', p')) :
    Effect (specification k) (bits m) p.state (bits m') p'.state := by
  cases p with
  | idle => cases hs
  | access op =>
    cases hs
    exact .effect (Op.run_eq op)
  | nandLoad =>
    cases hs
    exact .silent
  | nandExchange => exact nandExchange_effect hs
  | «return» =>
    cases hs
    exact .returned

theorem linearizes {N : Type} {gcc : Bool} :
    Linearizes (program N k gcc) (specification k) bits Pc.state where
  free p hp := by cases p <;> first | rfl | cases hp
  entry op := by
    cases op with
    | fetch op => cases op <;> cases gcc <;> rfl
    | _ => rfl
  step _ _ _ _ _ hs := callStep_effect hs
  expire _ _ _ hs := by cases hs
  event e := e.elim

end

/-- The callers, and the record of their calls. -/
abbrev State (N : Type) (k : Nat) :=
  Callers N (Mem k) (Pc k) × List (N × CallEvent (Op k) (Answer k))

/-- The calls on the memory `m₀`. -/
abbrev system (N : Type) [DecidableEq N] (k : Nat) (gcc : Bool) (m₀ : Mem k) :
    System (State N k) (CallAct N (Op k) Empty) :=
  (program N k gcc).recorded Pc.state m₀ .idle

/-- Before the first call. -/
abbrev State.initial (N : Type) {k : Nat} (m₀ : Mem k) : State N k := (⟨m₀, fun _ => .idle⟩, [])

theorem State.init_initial {N : Type} [DecidableEq N] {k : Nat} {gcc : Bool} {m₀ : Mem k} :
    (system N k gcc m₀).init (.initial N m₀) := ⟨⟨rfl, fun _ => rfl⟩, rfl⟩

/-- **The atomic operations are linearizable.** Whatever the callers and the order of their steps,
each call takes effect once between its start and its return, on the bit or the word that it is told
to, and returns what was there. -/
theorem atomic_linearizable {N : Type} [DecidableEq N] {k : Nat} {gcc : Bool} {m₀ : Mem k}
    {r : State N k} (hr : Reachable (system N k gcc m₀) r) :
    Linearizable (specification k) (bits m₀) (bits r.1.mem) (r.1.phase Pc.state) r.2 :=
  linearizes.linearizable rfl hr

/-- Two callers in the loop of `atomic_nand`, the second of which has to start again. -/
def twoNands : List (CallAct Bool (Op 5) Empty) :=
  [.call true (.fetch (.nand 6) 0), .call false (.fetch (.nand 12) 0), .step true, .step false,
    .step true, .step true, .step false, .step false, .step false, .step false]

theorem atomic_linearizable_nand : ∃ r,
    exec (system Bool 5 true fun _ => 10) (.initial Bool fun _ => 10) twoNands = some r ∧
    effects r.2 = [(.fetch (.nand 6) 0, .value 10), (.fetch (.nand 12) 0, .value (~~~2))] ∧
    Linearizable (specification 5) (bits fun _ => (10 : AtomicVal 5)) (bits r.1.mem)
      (r.1.phase Pc.state) r.2 := by
  obtain ⟨r, hr, heff⟩ := exists_of_exec twoNands
    (M := system Bool 5 true fun _ => 10) (s := .initial Bool fun _ => 10)
    (P := fun r => effects r.2 =
      [(.fetch (.nand 6) 0, .value 10), (.fetch (.nand 12) 0, .value (~~~2))]) (by decide +kernel)
  exact ⟨r, hr, heff, atomic_linearizable (reachable_of_exec twoNands State.init_initial hr)⟩

end HazelOsal.Atomic
