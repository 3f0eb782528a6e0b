import HazelOsal.Library.Transition
import Mathlib.Logic.Function.Basic

/-! # Callers that share a memory

A `Program` is what each caller of an API runs: a call starts at the entry point of its operation
and moves from point to point, one step on the memory at a time. The callers, of any type and in any
number, interleave their steps in any order; a wait may also end because its time is over, and the
memory may change by itself. -/

namespace TransitionSystem

/-- A memory, and the point that each caller has reached. -/
structure Callers (C M P : Type) where
  mem : M
  call : C → P

namespace Callers

variable {C M P A : Type} [DecidableEq C] (s : Callers C M P) (c d : C) (m : M) (p : P)

def set : Callers C M P := { mem := m, call := Function.update s.call c p }

@[simp] theorem set_mem : (s.set c m p).mem = m := rfl

theorem set_call : (s.set c m p).call d = if d = c then p else s.call d :=
  Function.update_apply ..

/-- What `f` says of the point of each caller. -/
def phase (f : P → A) (c : C) : A := f (s.call c)

theorem set_phase (f : P → A) : (s.set c m p).phase f = Function.update (s.phase f) c (f p) := by
  funext d
  rw [phase, set_call, Function.update_apply]
  split <;> rfl

/-- A caller whose new point is no different in this respect. -/
theorem set_phase_same (f : P → A) (h : f p = s.phase f c) : (s.set c m p).phase f = s.phase f := by
  rw [set_phase, h, Function.update_eq_self]

end Callers

/-- What callers run: the points `P` of a call, the operations `O`, and the events `E` that are not
the callers'. -/
structure Program (C M P O E : Type) where
  /-- No call is in progress. -/
  free : P → Bool
  entry : O → P
  /-- `none` while the call waits. -/
  step : C → M → P → Option (M × P)
  /-- A wait that ends because its time is over. -/
  expire : M → P → Option P
  event : E → M → Option M

/-- What may happen next. -/
inductive CallAct (C O E : Type) where
  | call (c : C) (op : O)
  | step (c : C)
  | expire (c : C)
  | event (e : E)

/-- A call and its first `n` steps. -/
def callSteps {C O : Type} (c : C) (op : O) (n : Nat) : List (CallAct C O E) :=
  .call c op :: List.replicate n (.step c)

namespace Program

variable {C M P O E : Type} [DecidableEq C]

def act (prog : Program C M P O E) (s : Callers C M P) : CallAct C O E → Option (Callers C M P)
  | .call c op => if prog.free (s.call c) then some (s.set c s.mem (prog.entry op)) else none
  | .step c => (prog.step c s.mem (s.call c)).map fun (m, p) => s.set c m p
  | .expire c => (prog.expire s.mem (s.call c)).map fun p => s.set c s.mem p
  | .event e => (prog.event e s.mem).map fun m => { s with mem := m }

/-- The callers, before their first calls. -/
def system (prog : Program C M P O E) (init : M → Prop) (idle : P) :
    System (Callers C M P) (CallAct C O E) where
  init s := init s.mem ∧ ∀ c, s.call c = idle
  step := prog.act

/-- All that a step of the system can be. -/
inductive Move (prog : Program C M P O E) (s : Callers C M P) :
    CallAct C O E → Callers C M P → Prop
  | call (hfree : prog.free (s.call c) = true) :
    Move prog s (.call c op) (s.set c s.mem (prog.entry op))
  | step (hstep : prog.step c s.mem (s.call c) = some (m, p)) : Move prog s (.step c) (s.set c m p)
  | expire (hexpire : prog.expire s.mem (s.call c) = some p) :
    Move prog s (.expire c) (s.set c s.mem p)
  | event (hevent : prog.event e s.mem = some m) : Move prog s (.event e) { s with mem := m }

variable {prog : Program C M P O E} {s s' : Callers C M P} {a : CallAct C O E} {c : C} {m : M}
  {p : P}

theorem act_move (h : prog.act s a = some s') : Move prog s a s' := by
  cases a with
  | call c op =>
    obtain ⟨hfree, h⟩ := Option.ite_none_right_eq_some.mp h
    cases h
    exact .call hfree
  | step c =>
    obtain ⟨⟨m, p⟩, hstep, h⟩ := Option.map_eq_some_iff.mp h
    cases h
    exact .step hstep
  | expire c =>
    obtain ⟨p, hexpire, h⟩ := Option.map_eq_some_iff.mp h
    cases h
    exact .expire hexpire
  | event e =>
    obtain ⟨m, hevent, h⟩ := Option.map_eq_some_iff.mp h
    cases h
    exact .event hevent

/-- A caller at `p` takes its step. -/
theorem act_step (hc : s.call c = p) {p' : P} (hs : prog.step c s.mem p = some (m, p')) :
    prog.act s (.step c) = some (s.set c m p') := by
  simp only [act, hc, hs, Option.map_some]

/-- A caller that runs alone, for `n` steps. -/
def solo (prog : Program C M P O E) (c : C) : Nat → M → P → Option (M × P)
  | 0, m, p => some (m, p)
  | n + 1, m, p => (prog.step c m p).bind fun (m, p) => prog.solo c n m p

omit [DecidableEq C] in
theorem solo_succ {n : Nat} {m' : M} {p' : P} (h : prog.step c m p = some (m', p')) :
    prog.solo c (n + 1) m p = prog.solo c n m' p' := by
  rw [solo, h, Option.bind_some]

theorem exec_replicate {init : M → Prop} {idle : P} {n : Nat} :
    exec (prog.system init idle) s (List.replicate n (.step c)) =
      (prog.solo c n s.mem (s.call c)).map fun (m, p) => s.set c m p := by
  induction n generalizing s with
  | zero =>
    have hself : s.set c s.mem (s.call c) = s := by
      rw [Callers.set, Function.update_eq_self]
    exact congrArg some hself.symm
  | succ n ih =>
    rw [List.replicate_succ, exec, solo]
    cases hs : prog.step c s.mem (s.call c) with
    | none =>
      have hnone : prog.act s (.step c) = none := by rw [act, hs]; rfl
      simp only [system, hnone, Option.bind_none, Option.map_none]
    | some mp =>
      obtain ⟨m, p⟩ := mp
      have hset (q : M × P) : (s.set c m p).set c q.1 q.2 = s.set c q.1 q.2 := by
        simp only [Callers.set, Function.update_idem]
      have hstep : (prog.system init idle).step s (.step c) = some (s.set c m p) := act_step rfl hs
      rw [hstep, Option.bind_some, ih, Callers.set_mem, Callers.set_call, if_pos rfl]
      simp only [hset, Option.bind_some]

/-- A call that runs alone. -/
theorem exec_callSteps {init : M → Prop} {idle : P} {n : Nat} {op : O}
    (hfree : prog.free (s.call c) = true)
    (hs : prog.solo c n s.mem (prog.entry op) = some (m, p)) :
    exec (prog.system init idle) s (callSteps c op n) = some (s.set c m p) := by
  have hcall : (prog.system init idle).step s (.call c op) =
      some (s.set c s.mem (prog.entry op)) := if_pos hfree
  rw [callSteps, exec, hcall, Option.bind_some, exec_replicate, Callers.set_mem, Callers.set_call,
    if_pos rfl, hs]
  simp only [Option.map_some, Callers.set, Function.update_idem]

/-- What holds before the first calls and every step keeps is an invariant. -/
theorem invariant {init : M → Prop} {idle : P} {ok : Callers C M P → CallAct C O E → Prop}
    {I : Callers C M P → Prop} (h₀ : ∀ s, init s.mem → (∀ c, s.call c = idle) → I s)
    (hmove : ∀ s a s', I s → ok s a → Move prog s a s' → I s')
    (h : ReachableVia (prog.system init idle) ok s) : I s := by
  refine h.induction (fun s hs => ?_) fun s a s' _ hi hok hs => ?_
  · obtain ⟨hmem, hcall⟩ := hs
    exact h₀ s hmem hcall
  · exact hmove s a s' hi hok (act_move hs)

end Program

end TransitionSystem
