import Mathlib.Logic.Relation

/-! # Transition systems with a partial step function

A system is a predicate of initial states and a step function that is undefined where an
action is not enabled. `Run M ok s t` is a run from `s` to `t` all of whose steps meet the
guard `ok`, a condition on the state before the step and the action. Plain reachability is
`Reachable M` (no guard); `ReachableVia M ok` restricts it to the guarded runs. `exec` runs a
list of actions and is what concrete runs are evaluated with. -/

namespace TransitionSystem

/-- Initial states and a partial step function. -/
structure System (S A : Type) where
  init : S → Prop
  step : S → A → Option S

/-- Runs all of whose steps meet `ok`. -/
inductive Run {S A : Type} (M : System S A) (ok : S → A → Prop) (s : S) : S → Prop
  | refl : Run M ok s s
  | tail : Run M ok s t → ok t a → M.step t a = some u → Run M ok s u

variable {S A : Type} {M : System S A} {ok ok' : S → A → Prop} {s t u : S}

/-- The guard that every step meets. -/
def anyStep (_ : S) (_ : A) : Prop := True

/-- States on a run from an initial state all of whose steps meet `ok`. -/
def ReachableVia (M : System S A) (ok : S → A → Prop) (s : S) : Prop :=
  ∃ s₀, M.init s₀ ∧ Run M ok s₀ s

/-- States on some run from an initial state. -/
abbrev Reachable (M : System S A) (s : S) : Prop := ReachableVia M anyStep s

theorem Run.trans (h₁ : Run M ok s t) (h₂ : Run M ok t u) : Run M ok s u := by
  induction h₂ with
  | refl => exact h₁
  | tail _ hok hs ih => exact .tail ih hok hs

theorem Run.mono (h : Run M ok s t) (hle : ∀ s a, ok s a → ok' s a) : Run M ok' s t := by
  induction h with
  | refl => exact .refl
  | tail _ hok hs ih => exact .tail ih (hle _ _ hok) hs

theorem Run.anyStep (h : Run M ok s t) : Run M anyStep s t := h.mono fun _ _ _ => trivial

theorem ReachableVia.reachable (h : ReachableVia M ok s) : Reachable M s :=
  let ⟨s₀, h₀, h⟩ := h
  ⟨s₀, h₀, h.anyStep⟩

theorem ReachableVia.run (h : ReachableVia M ok s) (hr : Run M ok s t) : ReachableVia M ok t :=
  let ⟨s₀, h₀, h⟩ := h
  ⟨s₀, h₀, h.trans hr⟩

theorem ReachableVia.step {a : A} (h : ReachableVia M ok s) (hok : ok s a)
    (hs : M.step s a = some t) : ReachableVia M ok t :=
  h.run (.tail .refl hok hs)

theorem Reachable.then (h : Reachable M s) (hr : Run M ok s t) : Reachable M t :=
  h.run hr.anyStep

/-- **The invariant rule.** A predicate that holds initially, and that every guarded step out
of a state that guarded runs reach keeps, holds in every such state. -/
theorem ReachableVia.induction {I : S → Prop} (hinit : ∀ s, M.init s → I s)
    (hstep : ∀ s a t, ReachableVia M ok s → I s → ok s a → M.step s a = some t → I t)
    (h : ReachableVia M ok s) : I s := by
  obtain ⟨s₀, h₀, hr⟩ := h
  induction hr with
  | refl => exact hinit _ h₀
  | tail hr hok hs ih => exact hstep _ _ _ ⟨s₀, h₀, hr⟩ ih hok hs

/-- The invariant rule where a step needs only that its state is reachable. -/
theorem ReachableVia.invariant {I : S → Prop} (hinit : ∀ s, M.init s → I s)
    (hstep : ∀ s a t, Reachable M s → I s → ok s a → M.step s a = some t → I t)
    (h : ReachableVia M ok s) : I s :=
  h.induction hinit fun s a t hr => hstep s a t hr.reachable

/-- The invariant rule for the part of a run that starts in a reachable state. -/
theorem Run.invariant {I : S → Prop} (hs : Reachable M s) (h₀ : I s)
    (hstep : ∀ s a t, Reachable M s → I s → ok s a → M.step s a = some t → I t)
    (h : Run M ok s t) : I t := by
  induction h with
  | refl => exact h₀
  | tail hr hok ht ih => exact hstep _ _ _ (hs.then hr) ih hok ht

/-! ## Recording what the steps do -/

/-- The system with a record of its steps; `note s a` is what the step `a` out of `s` adds. -/
def System.recording {R : Type} (M : System S A) (note : S → A → List R) :
    System (S × List R) A where
  init s := M.init s.1 ∧ s.2 = []
  step s a := (M.step s.1 a).map fun t => (t, s.2 ++ note s.1 a)

section
variable {R : Type} {note : S → A → List R} {r : S × List R}

theorem ReachableVia.recorded (ok : S → A → Prop)
    (h : ReachableVia (M.recording note) (fun s a => ok s.1 a) r) : ReachableVia M ok r.1 := by
  refine ReachableVia.induction (I := fun r => ReachableVia M ok r.1)
    (fun r (hr : (M.recording note).init r) => ⟨r.1, hr.1, .refl⟩) (fun r a r' _ hi hok hs => ?_) h
  obtain ⟨t, ht, rfl⟩ := Option.map_eq_some_iff.mp hs
  exact hi.step hok ht

/-- What every step out of a reachable state notes with `P` is in the record with `P`. -/
theorem ReachableVia.forall_recorded {P : R → Prop} (ok : S → A → Prop)
    (h : ReachableVia (M.recording note) (fun s a => ok s.1 a) r)
    (hnote : ∀ s a t, ReachableVia M ok s → ok s a → M.step s a = some t → ∀ x ∈ note s a, P x) :
    ∀ x ∈ r.2, P x := by
  refine ReachableVia.induction (I := fun r => ∀ x ∈ r.2, P x) (fun r hr x hx => ?_)
    (fun r a r' hr hi hok hs x hx => ?_) h
  · rw [hr.2] at hx
    cases hx
  · obtain ⟨t, ht, rfl⟩ := Option.map_eq_some_iff.mp hs
    rcases List.mem_append.mp hx with hx | hx
    · exact hi x hx
    · exact hnote r.1 a t (hr.recorded ok) hok ht x hx

end

/-! ## Executing a list of actions -/

/-- Run the actions from left to right; undefined when one of them is not enabled. -/
def exec (M : System S A) : S → List A → Option S
  | s, [] => some s
  | s, a :: as => (M.step s a).bind fun t => exec M t as

/-- Every step of `exec M s as` meets the decidable guard `ok`. -/
def execOk (M : System S A) (ok : S → A → Bool) : S → List A → Bool
  | _, [] => true
  | s, a :: as => ok s a && (M.step s a).all fun t => execOk M ok t as

theorem exec_append {as bs : List A} :
    exec M s (as ++ bs) = (exec M s as).bind fun t => exec M t bs := by
  induction as generalizing s with
  | nil => rfl
  | cons a as ih =>
    simp only [List.cons_append, exec, Option.bind_assoc]
    congr 1
    exact funext fun t => ih

private theorem Run.head {a : A} (hok : ok s a) (hs : M.step s a = some t) (h : Run M ok t u) :
    Run M ok s u :=
  (Run.tail .refl hok hs).trans h

theorem run_of_exec (as : List A) (h : exec M s as = some t) : Run M anyStep s t := by
  induction as generalizing s with
  | nil => cases h; exact .refl
  | cons a as ih =>
    obtain ⟨s', hs, h⟩ := Option.bind_eq_some_iff.mp h
    exact .head trivial hs (ih h)

theorem run_of_execOk (as : List A) {okb : S → A → Bool} (hok : ∀ s a, okb s a = true → ok s a)
    (hb : execOk M okb s as = true) (h : exec M s as = some t) : Run M ok s t := by
  induction as generalizing s with
  | nil => cases h; exact .refl
  | cons a as ih =>
    obtain ⟨s', hs, h⟩ := Option.bind_eq_some_iff.mp h
    simp only [execOk, hs, Option.all_some, Bool.and_eq_true] at hb
    exact .head (hok _ _ hb.1) hs (ih hb.2 h)

/-- A list of actions leads to a state of which a check succeeds. -/
theorem exists_of_exec (as : List A) {P : S → Prop} [DecidablePred P]
    (h : (exec M s as).any (fun t => decide (P t)) = true) : ∃ t, exec M s as = some t ∧ P t := by
  obtain ⟨t, ht, hp⟩ := (Option.any_eq_true ..).mp h
  exact ⟨t, ht, of_decide_eq_true hp⟩

theorem reachable_of_exec (as : List A) (h₀ : M.init s) (h : exec M s as = some t) :
    Reachable M t :=
  ⟨s, h₀, run_of_exec as h⟩

theorem reachableVia_of_execOk (as : List A) {okb : S → A → Bool}
    (hok : ∀ s a, okb s a = true → ok s a) (h₀ : M.init s)
    (hb : execOk M okb s as = true) (h : exec M s as = some t) : ReachableVia M ok t :=
  ⟨s, h₀, run_of_execOk as hok hb h⟩

/-- The guard may be checked with what is known of reachable states. -/
theorem ReachableVia.exec (as : List A) {okb : S → A → Bool}
    (hok : ∀ s a, Reachable M s → okb s a = true → ok s a) (h : ReachableVia M ok s)
    (hb : execOk M okb s as = true) (he : TransitionSystem.exec M s as = some t) :
    ReachableVia M ok t := by
  induction as generalizing s with
  | nil => cases he; exact h
  | cons a as ih =>
    obtain ⟨s', hs, he⟩ := Option.bind_eq_some_iff.mp he
    simp only [execOk, hs, Option.all_some, Bool.and_eq_true] at hb
    exact ih (h.step (hok s a h.reachable hb.1) hs) hb.2 he

end TransitionSystem
