import HazelOsal.Atomic.Linearize
import Mathlib.Data.List.Count

/-! # The retries of `atomic_nand`

An exchange in the loop of `atomic_nand` fails only where another caller has changed the word since
the loop has read it. -/

namespace HazelOsal.Atomic

open TransitionSystem

variable {N : Type} [DecidableEq N] {k : Nat}

/-- What a step does to a word. -/
inductive Touch where
  | changed
  | failed
  deriving DecidableEq

/-- The exchange on the word at `target` has failed. -/
def Pc.retries (target : Nat) : Pc k → Pc k → Bool
  | .nandExchange t _ _, .nandLoad _ _ => t = target
  | _, _ => false

/-- What a step of the caller does to the word at `target`. -/
def touch (target : Nat) (c : N) (m m' : Mem k) (p p' : Pc k) : List (N × Touch) :=
  if m' target ≠ m target then [(c, .changed)]
  else if p.retries target p' then [(c, .failed)]
  else []

def touches (gcc : Bool) (target : Nat) (s : Callers N (Mem k) (Pc k))
    (a : CallAct N (Op k) Empty) : List (N × Touch) :=
  match a.caller?, (program N k gcc).act s a with
  | some c, some s' => touch target c s.mem s'.mem (s.call c) (s'.call c)
  | _, _ => []

/-- The calls on the memory `m₀`, and what they do to the word at `target`. -/
abbrev touching (N : Type) [DecidableEq N] (k : Nat) (gcc : Bool) (m₀ : Mem k) (target : Nat) :
    System (Callers N (Mem k) (Pc k) × List (N × Touch)) (CallAct N (Op k) Empty) :=
  ((program N k gcc).system (· = m₀) .idle).recording (touches gcc target)

/-- The call waits to exchange a word that is not any more what it has read. -/
def Pc.stale (target : Nat) (m : Mem k) : Pc k → Bool
  | .nandExchange t _ old => t = target && m t ≠ old
  | _ => false

variable {gcc : Bool} {target : Nat} {m m' : Mem k} {p p' : Pc k} {s s' : Callers N (Mem k) (Pc k)}
  {c d : N}

/-- How often other callers have changed the word. -/
def changes (hist : List (N × Touch)) (c : N) : Nat :=
  hist.countP fun e => e.1 ≠ c && e.2 = .changed

/-- A step that fails was stale, and no step leaves its own call stale. -/
theorem callStep_stale (hs : callStep m p = some (m', p')) :
    p'.stale target m' = false ∧ (p.retries target p' = true → p.stale target m = true) := by
  cases p with
  | idle => cases hs
  | access | «return» =>
    cases hs
    exact ⟨rfl, fun h => absurd h Bool.false_ne_true⟩
  | nandLoad t =>
    cases hs
    simp [Pc.stale, Pc.retries, atomicGet]
  | nandExchange t value old =>
    cases hs
    rw [atomicCas]
    split
    case isTrue => exact ⟨rfl, fun h => absurd h Bool.false_ne_true⟩
    case isFalse hne =>
      refine ⟨rfl, fun ht => ?_⟩
      obtain rfl : t = target := of_decide_eq_true ht
      simp [Pc.stale, hne]

/-- A call does not become stale while the word stays. -/
theorem stale_of_same (h : m' target = m target) : p.stale target m' = p.stale target m := by
  cases p with
  | nandExchange t value old =>
    by_cases ht : t = target
    case pos => subst ht; rw [Pc.stale, Pc.stale, h]
    case neg => simp [Pc.stale, ht]
  | _ => rfl

theorem Op.entry_stale {op : Op k} : (op.entry gcc).stale target m = false := by
  cases op with
  | fetch op => cases op <;> cases gcc <;> rfl
  | _ => rfl

omit [DecidableEq N] in
/-- A caller that may call has no exchange to make. -/
theorem free_retries (h : (program N k gcc).free p = true) : p.retries target p' = false := by
  cases p with
  | idle => rfl
  | _ => cases h

/-- A caller's failures, and whether it is about to fail once more. -/
def failures (target : Nat) (s : Callers N (Mem k) (Pc k)) (hist : List (N × Touch)) (c : N) :
    Nat :=
  hist.count (c, .failed) + ((s.call c).stale target s.mem).toNat

theorem touch_self (hs : callStep m p = some (m', p')) :
    (touch target d m m' p p').count (d, .failed) + (p'.stale target m').toNat ≤
      (p.stale target m).toNat := by
  obtain ⟨hstale, hretry⟩ := callStep_stale hs
  rw [hstale, touch]
  split
  case isTrue => simp
  case isFalse =>
    split
    case isTrue h => rw [hretry h]; simp
    case isFalse => simp

theorem touch_other {q : Pc k} (hc : d ≠ c) :
    (touch target d m m' p p').count (c, .failed) + (q.stale target m').toNat ≤
      (q.stale target m).toNat + changes (touch target d m m' p p') c := by
  rw [touch]
  split
  case isTrue =>
    have hle := Bool.toNat_le (q.stale target m')
    simp [changes, hc]
    omega
  case isFalse h =>
    rw [stale_of_same (not_not.mp h)]
    split <;> simp [hc]

theorem failures_le_changes {hist : List (N × Touch)} {a : CallAct N (Op k) Empty}
    (hs : (program N k gcc).act s a = some s')
    (hi : ∀ c, failures target s hist c ≤ changes hist c) (c : N) :
    failures target s' (hist ++ touches gcc target s a) c ≤
      changes (hist ++ touches gcc target s a) c := by
  have hc := hi c
  rw [failures] at hc ⊢
  rw [changes, List.countP_append, List.count_append, ← changes, ← changes]
  simp only [touches, hs]
  cases Program.act_move hs with
  | @call d op hfree =>
    have hnil : touch target d s.mem s.mem (s.call d) ((program N k gcc).entry op) = [] := by
      rw [touch, if_neg (not_not.mpr rfl), free_retries hfree]
      rfl
    simp only [CallAct.caller?, Callers.set_mem, Callers.set_call, if_pos, hnil]
    have hstale : ((program N k gcc).entry op).stale target s.mem = false := Op.entry_stale
    split
    case isTrue => rw [hstale]; exact Nat.le_add_right_of_le (Nat.le_of_add_right_le hc)
    case isFalse => exact hc
  | @step d m p hstep =>
    simp only [CallAct.caller?, Callers.set_mem, Callers.set_call, if_pos]
    by_cases hcd : c = d
    case pos =>
      subst hcd
      rw [if_pos rfl]
      have hself : (touch target c s.mem m (s.call c) p).count (c, .failed) + _ ≤ _ :=
        touch_self hstep
      omega
    case neg =>
      rw [if_neg hcd]
      have hother : (touch target d s.mem m (s.call d) p).count (c, .failed) +
        ((s.call c).stale target m).toNat ≤ ((s.call c).stale target s.mem).toNat + _ :=
        touch_other (Ne.symm hcd)
      omega
  | expire hexpire => cases hexpire
  | event e => cases e

/-- **`atomic_nand` starts again only when it has to.** In every run an exchange of a caller fails
no more often than other callers change the word. -/
theorem atomic_nand_retries {m₀ : Mem k} {r : Callers N (Mem k) (Pc k) × List (N × Touch)}
    (hr : Reachable (touching N k gcc m₀ target) r) (c : N) :
    r.2.count (c, .failed) ≤ changes r.2 c := by
  refine Nat.le_of_add_right_le (hr.induction
    (I := fun r => ∀ c, failures target r.1 r.2 c ≤ changes r.2 c)
    (fun r hinit c => ?_) (fun r a r' _ hi _ hs => ?_) c)
  · obtain ⟨⟨-, hcall⟩, hnil⟩ := hinit
    rw [failures, hnil, hcall]
    rfl
  · obtain ⟨s', hact, rfl⟩ := Option.map_eq_some_iff.mp hs
    exact failures_le_changes hact hi

theorem atomic_nand_retries_once : ∃ r,
    exec (touching Bool 5 true (fun _ => 10) 0) (⟨fun _ => 10, fun _ => .idle⟩, []) twoNands =
      some r ∧
    r.2 = [(true, .changed), (false, .failed), (false, .changed)] ∧
    r.2.count (false, .failed) ≤ changes r.2 false := by
  obtain ⟨r, hr, htouch⟩ := exists_of_exec twoNands
    (M := touching Bool 5 true (fun _ => 10) 0) (s := (⟨fun _ => 10, fun _ => .idle⟩, []))
    (P := fun r => r.2 = [(true, .changed), (false, .failed), (false, .changed)])
    (by decide +kernel)
  exact ⟨r, hr, htouch, atomic_nand_retries
    (reachable_of_exec twoNands ⟨⟨rfl, fun _ => rfl⟩, rfl⟩ hr) false⟩

end HazelOsal.Atomic
