import HazelOsal.Atomic.Linearize
import Mathlib.Data.List.Chain

/-! # Bits as flags

Callers that change a bit by the test-and-set operations, and by no others, are told of each change
of the bit. Between two callers that are told that they have set it there is one that is told that
it has cleared it: the bit is a lock. -/

namespace HazelOsal.Atomic

open TransitionSystem BitArray

variable {k : Nat} {n : Nat} {s s' s₀ : Nat → Bool} {op : Op k} {l : List (Op k × Answer k)}

/-- The operation tells its caller when it changes the bit. -/
def BitOp.tells : BitOp → Bool
  | .test | .testAndClear | .testAndSet | .testAndSetTo _ => true
  | .clear | .set | .setTo _ => false

/-- The operation does not change bit `n`, or tells its caller when it does. -/
def Op.tells (n : Nat) : Op k → Bool
  | .get _ => true
  | .cas target _ _ | .fetch _ target => target ≠ n / 2 ^ k
  | .onBit op target bit => op.tells || bitNumber k target bit ≠ n

/-- What the answer says that the bit has become. -/
def BitOp.told : BitOp → Answer k → Option Bool
  | .testAndSet, .flag false => some true
  | .testAndClear, .flag true => some false
  | .testAndSetTo val, .flag true => some val
  | _, _ => none

/-- What a caller is told that bit `n` has become. -/
def told (n : Nat) : Op k × Answer k → Option Bool
  | (.onBit op target bit, answer) => if bitNumber k target bit = n then op.told answer else none
  | _ => none

theorem putWord_of_ne {v : AtomicVal k} {target : Nat} (h : target ≠ n / 2 ^ k) :
    putWord s target v n = s n := if_neg h.symm

theorem BitOp.told_answer {op : BitOp} {old : Bool} (h : op.tells = true) :
    op.told (op.answer old : Answer k) =
      if op.apply old = old then none else some (op.apply old) := by
  cases op with
  | test => exact (if_pos rfl).symm
  | testAndClear | testAndSet => cases old <;> rfl
  | testAndSetTo val => cases old <;> cases val <;> rfl
  | clear | set | setTo => cases h

/-- Each change is told. -/
theorem told_specStep {e : Op k × Answer k} (he : (specStep s e.1).2 = e.2)
    (h : e.1.tells n = true) : told n e =
      if (specStep s e.1).1 n = s n then none else some ((specStep s e.1).1 n) := by
  obtain ⟨op, answer⟩ := e
  obtain rfl : (specStep s op).2 = answer := he
  cases op with
  | get => exact (if_pos rfl).symm
  | cas target oldValue newValue =>
    have hn : (specStep s (.cas target oldValue newValue)).1 n = s n := by
      rw [specStep]
      split
      case isTrue => exact putWord_of_ne (of_decide_eq_true h)
      case isFalse => rfl
    rw [if_pos hn]
    rfl
  | fetch op target => exact (if_pos (putWord_of_ne (of_decide_eq_true h))).symm
  | onBit op target bit =>
    by_cases hn : bitNumber k target bit = n
    case neg =>
      have hsame : (specStep s (.onBit op target bit : Op k)).1 n = s n :=
        Function.update_of_ne (Ne.symm hn) ..
      rw [if_pos hsame]
      exact if_neg hn
    case pos =>
      subst hn
      have htells : op.tells = true := by simpa [Op.tells] using h
      have hput : (specStep s (.onBit op target bit : Op k)).1 (bitNumber k target bit) =
          op.apply (s (bitNumber k target bit)) := Function.update_self ..
      rw [hput]
      exact (if_pos rfl).trans (BitOp.told_answer htells)

/-- The changes that are told, from one state of the array to another. -/
theorem chain_told (h : exec (sequential (specification k) s₀) s l = some s')
    (ht : ∀ e ∈ l, e.1.tells n = true) :
    (s n :: l.filterMap (told n)).IsChain (· ≠ ·) ∧
      (l.filterMap (told n)).getLastD (s n) = s' n := by
  induction l generalizing s with
  | nil =>
    cases h
    exact ⟨.singleton _, rfl⟩
  | cons e l ih =>
    obtain ⟨hanswer, h⟩ := exec_sequential_cons.mp h
    obtain ⟨hchain, hlast⟩ := ih h fun e he => ht e (List.mem_cons_of_mem _ he)
    have htold := told_specStep hanswer (ht e List.mem_cons_self)
    rw [List.filterMap_cons, htold]
    split
    case h_1 hnone =>
      have heq : (specStep s e.1).1 n = s n := by_contra fun hne => by
        rw [if_neg hne] at hnone
        cases hnone
      rw [← heq]
      exact ⟨hchain, hlast⟩
    case h_2 b hsome =>
      obtain ⟨hne, hb⟩ := Option.ite_none_left_eq_some.mp hsome
      cases hb
      exact ⟨.cons_cons (Ne.symm hne) hchain, (List.getLastD_cons ..).trans hlast⟩

/-- **A bit is a lock.** While every call that may change bit `n` is one that tells its caller, the
changes that the callers are told of alternate and lead from the first value of the bit to its
present one. -/
theorem bit_flag_alternates {N : Type} [DecidableEq N] {gcc : Bool} {m₀ : Mem k} {r : State N k}
    (hr : ReachableVia (system N k gcc m₀)
      (fun _ a => ∀ c op, a = .call c op → op.tells n = true) r) :
    (bits m₀ n :: (effects r.2).filterMap (told n)).IsChain (· ≠ ·) ∧
      ((effects r.2).filterMap (told n)).getLastD (bits m₀ n) = bits r.1.mem n :=
  chain_told (linearizes.linearizable rfl hr).legal (linearizes.effects_of_calls rfl hr)

/-- Two callers set a bit, of which the second has to try again when the first has cleared it. -/
def lockRun : List (CallAct Bool (Op 5) Empty) :=
  callSteps true (.onBit .testAndSet 0 33) 2 ++ callSteps false (.onBit .testAndSet 0 33) 2 ++
    callSteps true (.onBit .testAndClear 0 33) 2 ++ callSteps false (.onBit .testAndSet 0 33) 1

theorem bit_flag_alternates_lock : ∃ r,
    exec (system Bool 5 false fun _ => 0) (.initial Bool fun _ => 0) lockRun = some r ∧
    (effects r.2).filterMap (told 33) = [true, false, true] ∧
    (bits (fun _ => (0 : AtomicVal 5)) 33 :: (effects r.2).filterMap (told 33)).IsChain (· ≠ ·) ∧
    ((effects r.2).filterMap (told 33)).getLastD (bits (fun _ => (0 : AtomicVal 5)) 33) =
      bits r.1.mem 33 := by
  obtain ⟨r, hr, htold⟩ := exists_of_exec lockRun
    (M := system Bool 5 false fun _ => 0) (s := .initial Bool fun _ => 0)
    (P := fun r => (effects r.2).filterMap (told 33) = [true, false, true]) (by decide +kernel)
  exact ⟨r, hr, htold, bit_flag_alternates (reachableVia_of_execOk lockRun
    (fun _ _ => CallAct.of_op?) State.init_initial (by decide +kernel) hr)⟩

end HazelOsal.Atomic
