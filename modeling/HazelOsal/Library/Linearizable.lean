import HazelOsal.Library.Callers
import HazelOsal.Library.Mealy

/-! # Linearizable objects

An object that callers share is linearizable when each call takes effect in one of its own steps,
between the call and its return, as the next input of a sequential machine, and returns what the
machine answers. `Linearizes` is the condition on the steps of a program; `Linearizable` is what
follows for the record of a run. -/

namespace TransitionSystem

variable {C M P O E S R : Type}

/-- How far a call of `O` has come: it has had no effect yet, or it will return an `R`. -/
inductive CallState (O R : Type) where
  | idle
  | pending (op : O)
  | answered (op : O) (r : R)

/-- What is recorded of a call. -/
inductive CallEvent (O R : Type) where
  | call (op : O)
  | effect (op : O) (r : R)
  | returned (r : R)

namespace CallState

/-- The event between two points of a call. -/
def event : CallState O R → CallState O R → Option (CallEvent O R)
  | .idle, .pending op => some (.call op)
  | .pending _, .answered op r => some (.effect op r)
  | .answered _ r, .idle => some (.returned r)
  | _, _ => none

end CallState

section
variable [DecidableEq O] [DecidableEq R]

/-- A call, its effect, the return of the answer, and so on. -/
def callOrder : System (CallState O R) (CallEvent O R) where
  init := (· = .idle)
  step
    | .idle, .call op => some (.pending op)
    | .pending op, .effect op' r => if op = op' then some (.answered op r) else none
    | .answered _ r, .returned r' => if r = r' then some .idle else none
    | _, _ => none

/-- The inputs and answers of a machine. -/
def sequential (spec : Mealy S O R) (s₀ : S) : System S (O × R) where
  init := (· = s₀)
  step s a := if (spec.step s a.1).2 = a.2 then some (spec.step s a.1).1 else none

omit [DecidableEq O] in
theorem exec_sequential_cons {spec : Mealy S O R} {s s' s₀ : S} {e : O × R} {l : List (O × R)} :
    exec (sequential spec s₀) s (e :: l) = some s' ↔
      (spec.step s e.1).2 = e.2 ∧ exec (sequential spec s₀) (spec.step s e.1).1 l = some s' := by
  by_cases h : (spec.step s e.1).2 = e.2
  case pos =>
    have hstep : (sequential spec s₀).step s e = some (spec.step s e.1).1 := if_pos h
    rw [exec, hstep, Option.bind_some, and_iff_right h]
  case neg =>
    have hstep : (sequential spec s₀).step s e = none := if_neg h
    rw [exec, hstep, Option.bind_none]
    exact ⟨fun hl => absurd hl (Option.some_ne_none s').symm, fun hl => absurd hl.1 h⟩

end

def CallEvent.effect? : CallEvent O R → Option (O × R)
  | .effect op r => some (op, r)
  | _ => none

/-- The effects on record, in their order. -/
def effects (hist : List (C × CallEvent O R)) : List (O × R) :=
  hist.filterMap fun e => e.2.effect?

/-- The events of a caller. -/
def eventsOf [DecidableEq C] (hist : List (C × CallEvent O R)) (c : C) : List (CallEvent O R) :=
  hist.filterMap fun e => if e.1 = c then some e.2 else none

theorem effects_append {h l : List (C × CallEvent O R)} :
    effects (h ++ l) = effects h ++ effects l := List.filterMap_append ..

theorem eventsOf_append [DecidableEq C] {h l : List (C × CallEvent O R)} {c : C} :
    eventsOf (h ++ l) c = eventsOf h c ++ eventsOf l c := List.filterMap_append ..

/-- What a step of a call does to the object and to the call. -/
inductive Effect (spec : Mealy S O R) : S → CallState O R → S → CallState O R → Prop
  | silent : Effect spec s g s g
  | effect (h : spec.step s op = (s', r)) : Effect spec s (.pending op) s' (.answered op r)
  | returned : Effect spec s (.answered op r) s .idle

theorem Effect.pending {spec : Mealy S O R} {s s' : S} {g : CallState O R} {op : O}
    (h : Effect spec s g s' (.pending op)) : g = .pending op := by
  cases h
  rfl

/-- What takes effect was pending. -/
theorem Effect.of_mem_effects {spec : Mealy S O R} {s s' : S} {g g' : CallState O R} {c : C}
    {e : O × R} (h : Effect spec s g s' g')
    (he : e ∈ effects ((g.event g').map fun e => (c, e)).toList) : g = .pending e.1 := by
  cases h with
  | silent => cases g <;> cases he
  | returned => cases he
  | effect =>
    obtain rfl := List.mem_singleton.mp he
    rfl

/-- Every step of the program is part of a call that takes effect once. -/
structure Linearizes (prog : Program C M P O E) (spec : Mealy S O R) (abs : M → S)
    (state : P → CallState O R) : Prop where
  free : ∀ p, prog.free p = true → state p = .idle
  entry : ∀ op, state (prog.entry op) = .pending op
  step : ∀ c m p m' p', prog.step c m p = some (m', p') →
    Effect spec (abs m) (state p) (abs m') (state p')
  expire : ∀ m p p', prog.expire m p = some p' → state p' = state p
  event : ∀ e m m', prog.event e m = some m' → abs m' = abs m

variable [DecidableEq C]

/-- The caller whose step it is. -/
def CallAct.caller? : CallAct C O E → Option C
  | .call c _ | .step c | .expire c => some c
  | .event _ => none

/-- The operation that is called. -/
def CallAct.op? : CallAct C O E → Option O
  | .call _ op => some op
  | _ => none

omit [DecidableEq C] in
theorem CallAct.of_op? {q : O → Bool} {a : CallAct C O E} (h : a.op?.all q = true) (c : C) (op : O)
    (ha : a = .call c op) : q op = true := by
  subst ha
  exact h

/-- What a step adds to the record. -/
def Program.notes (prog : Program C M P O E) (state : P → CallState O R) (s : Callers C M P)
    (a : CallAct C O E) : List (C × CallEvent O R) :=
  match a.caller?, prog.act s a with
  | some c, some s' =>
    (((state (s.call c)).event (state (s'.call c))).map fun e => (c, e)).toList
  | _, _ => []

/-- The system with a record of the calls. -/
def Program.recorded (prog : Program C M P O E) (state : P → CallState O R) (m₀ : M) (idle : P) :
    System (Callers C M P × List (C × CallEvent O R)) (CallAct C O E) :=
  (prog.system (· = m₀) idle).recording (prog.notes state)

variable [DecidableEq O] [DecidableEq R]

/-- The calls on record answer as the machine would, had their effects come one at a time. -/
structure Linearizable (spec : Mealy S O R) (s₀ s : S) (state : C → CallState O R)
    (hist : List (C × CallEvent O R)) : Prop where
  /-- The effects are a run of the machine, to the present state. -/
  legal : exec (sequential spec s₀) s₀ (effects hist) = some s
  /-- Each effect is between its call and the return of its answer. -/
  ordered : ∀ c, exec callOrder .idle (eventsOf hist c) = some (state c)

namespace Linearizable

variable {spec : Mealy S O R} {s₀ s s' : S} {state : C → CallState O R}
  {hist : List (C × CallEvent O R)} {c : C} {e : CallEvent O R} {g g' : CallState O R}

theorem nil (h : ∀ c, state c = .idle) :
    Linearizable spec s₀ s₀ state ([] : List (C × CallEvent O R)) :=
  ⟨rfl, fun c => congrArg some (h c).symm⟩

omit [DecidableEq O] [DecidableEq R] in
theorem eventsOf_snoc : eventsOf (hist ++ [(c, e)]) =
    Function.update (eventsOf hist) c (eventsOf hist c ++ [e]) := by
  funext d
  rw [eventsOf_append, Function.update_apply]
  by_cases hd : d = c
  case pos => subst hd; simp [eventsOf]
  case neg => simp [eventsOf, hd, Ne.symm hd]

/-- The next event of a caller. -/
theorem snoc (h : Linearizable spec s₀ s state hist)
    (hstep : callOrder.step (state c) e = some g')
    (hlegal : exec (sequential spec s₀) s (e.effect?).toList = some s') :
    Linearizable spec s₀ s' (Function.update state c g') (hist ++ [(c, e)]) where
  legal := by
    have heff : effects [(c, e)] = (e.effect?).toList := by
      cases e <;> rfl
    rw [effects_append, exec_append, h.legal, heff]
    exact hlegal
  ordered d := by
    rw [eventsOf_snoc, Function.update_apply, Function.update_apply]
    split
    case isTrue => rw [exec_append, h.ordered, Option.bind_some, exec, hstep]; rfl
    case isFalse => exact h.ordered d

/-- A step of a call is recorded. -/
theorem effect (h : Linearizable spec s₀ s state hist) (he : Effect spec s (state c) s' g') :
    Linearizable spec s₀ s' (Function.update state c g')
      (hist ++ (((state c).event g').map fun e => (c, e)).toList) := by
  generalize hg : state c = g at he
  cases he with
  | silent =>
    have hnone : g'.event g' = none := by cases g' <;> rfl
    rw [hnone, ← hg, Function.update_eq_self]
    exact (List.append_nil hist).symm ▸ h
  | effect hs =>
    refine h.snoc (by rw [hg]; exact if_pos rfl) ?_
    simp only [CallEvent.effect?, Option.toList_some, exec, sequential, hs, if_pos,
      Option.bind_some]
  | returned => exact h.snoc (by rw [hg]; exact if_pos rfl) rfl

end Linearizable

/-- What a step adds to what is known of the calls. -/
inductive RecordStep (spec : Mealy S O R) (s s' : S) (state state' : C → CallState O R)
    (hist hist' : List (C × CallEvent O R)) (a : CallAct C O E) : Prop
  | event (hs : s' = s) (hstate : state' = state) (hhist : hist' = hist)
  | call (c : C) (op : O) (ha : a = .call c op) (hidle : state c = .idle) (hs : s' = s)
    (hstate : state' = Function.update state c (.pending op))
    (hhist : hist' = hist ++ [(c, .call op)])
  | step (c : C) (g' : CallState O R) (he : Effect spec s (state c) s' g')
    (hstate : state' = Function.update state c g')
    (hhist : hist' = hist ++ (((state c).event g').map fun e => (c, e)).toList)

namespace Linearizes

variable {prog : Program C M P O E} {spec : Mealy S O R} {abs : M → S} {state : P → CallState O R}
  {m₀ : M} {idle : P} {ok : Callers C M P × List (C × CallEvent O R) → CallAct C O E → Prop}
  {r r' : Callers C M P × List (C × CallEvent O R)} {a : CallAct C O E}

omit [DecidableEq O] [DecidableEq R] in
theorem recordStep (h : Linearizes prog spec abs state)
    (hs : (prog.recorded state m₀ idle).step r a = some r') :
    RecordStep spec (abs r.1.mem) (abs r'.1.mem) (r.1.phase state) (r'.1.phase state) r.2 r'.2
      a := by
  obtain ⟨s', hact, rfl⟩ := Option.map_eq_some_iff.mp hs
  replace hact : prog.act r.1 a = some s' := hact
  simp only [Program.notes, hact]
  cases Program.act_move hact with
  | @call c op hfree =>
    have hidle : r.1.phase state c = .idle := h.free _ hfree
    refine .call c op rfl hidle rfl ?_ ?_
    · rw [Callers.set_phase, h.entry]
    · simp only [CallAct.caller?, Callers.set_call, if_pos, h.entry]
      rw [Callers.phase] at hidle
      rw [hidle]
      rfl
  | @step c m p hstep =>
    refine .step c (state p) (h.step _ _ _ _ _ hstep) (Callers.set_phase ..) ?_
    simp only [CallAct.caller?, Callers.set_call, if_pos, Callers.phase]
  | @expire c p hexpire =>
    have hsame : state p = r.1.phase state c := h.expire _ _ _ hexpire
    refine .step c (state p) ?_ (Callers.set_phase ..) ?_
    · rw [hsame]
      exact .silent
    · simp only [CallAct.caller?, Callers.set_call, if_pos, Callers.phase]
  | event hevent => exact .event (h.event _ _ _ hevent) rfl (List.append_nil _)

/-- **A program all of whose calls take effect in one of their steps is linearizable.** -/
theorem linearizable (h : Linearizes prog spec abs state) (hidle : prog.free idle = true)
    (hr : ReachableVia (prog.recorded state m₀ idle) ok r) :
    Linearizable spec (abs m₀) (abs r.1.mem) (r.1.phase state) r.2 := by
  refine hr.induction
    (I := fun r => Linearizable spec (abs m₀) (abs r.1.mem) (r.1.phase state) r.2)
    (fun r hinit => ?_) fun r a r' _ hi _ hs => ?_
  · obtain ⟨⟨hmem, hcall⟩, hnil⟩ := hinit
    rw [hnil, hmem]
    exact .nil fun c => (congrArg state (hcall c)).trans (h.free _ hidle)
  · cases h.recordStep hs with
    | event hs hstate hhist => rw [hs, hstate, hhist]; exact hi
    | call c op ha hidle hs hstate hhist =>
      rw [hs, hstate, hhist]
      exact hi.snoc (by rw [hidle]; rfl) rfl
    | step c g' he hstate hhist =>
      rw [hstate, hhist]
      exact hi.effect he

omit [DecidableEq O] [DecidableEq R] in
/-- What is asked of every call holds of every effect. -/
theorem effects_of_calls {Q : O → Prop} (h : Linearizes prog spec abs state)
    (hidle : prog.free idle = true)
    (hr : ReachableVia (prog.recorded state m₀ idle) (fun _ a => ∀ c op, a = .call c op → Q op) r) :
    ∀ e ∈ effects r.2, Q e.1 := by
  refine (hr.induction (I := fun r => (∀ c op, r.1.phase state c = .pending op → Q op) ∧
    ∀ e ∈ effects r.2, Q e.1) (fun r hinit => ?_) fun r a r' _ hi hok hs => ?_).2
  · obtain ⟨⟨-, hcall⟩, hnil⟩ := hinit
    rw [hnil]
    refine ⟨fun c op hp => ?_, fun _ => nofun⟩
    rw [Callers.phase, hcall, h.free _ hidle] at hp
    cases hp
  · obtain ⟨hp, heff⟩ := hi
    cases h.recordStep hs with
    | event hs hstate hhist => rw [hstate, hhist]; exact ⟨hp, heff⟩
    | call c op ha hidle hs hstate hhist =>
      rw [hstate, hhist, effects_append]
      refine ⟨fun d op' hd => ?_, fun e he => ?_⟩
      · rw [Function.update_apply] at hd
        split at hd
        case isTrue => cases hd; exact hok c op ha
        case isFalse => exact hp d op' hd
      · exact heff e (by simpa [effects, CallEvent.effect?] using he)
    | step c g' he hstate hhist =>
      rw [hstate, hhist, effects_append]
      refine ⟨fun d op hd => ?_, fun e hmem => ?_⟩
      · rw [Function.update_apply] at hd
        split at hd
        case isTrue => subst hd; exact hp c op he.pending
        case isFalse => exact hp d op hd
      · rcases List.mem_append.mp hmem with hmem | hmem
        · exact heff e hmem
        · exact hp c e.1 (he.of_mem_effects hmem)

end Linearizes

end TransitionSystem
