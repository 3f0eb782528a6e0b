/-! # Machines that answer each input

Two machines over the same states are compared by their traces: the answer to each input and the
state it leaves. Their traces from a state agree exactly where their steps do along the way. -/

/-- A step for each input: the state it leaves, and the answer. -/
structure Mealy (S I O : Type) where
  step : S → I → S × O

namespace Mealy

variable {S I O : Type} {M N : Mealy S I O} {ok : S → I → Prop} {s : S} {is : List I}

/-- The states and answers of a run. -/
def trace (M : Mealy S I O) : S → List I → List (S × O)
  | _, [] => []
  | s, i :: is => M.step s i :: M.trace (M.step s i).1 is

/-- The inputs of a run, each with the state it is given in. -/
def visits (M : Mealy S I O) : S → List I → List (S × I)
  | _, [] => []
  | s, i :: is => (s, i) :: M.visits (M.step s i).1 is

theorem trace_congr (h : ∀ s i, M.step s i = N.step s i) : M.trace s is = N.trace s is := by
  induction is generalizing s with
  | nil => rfl
  | cons i is ih => rw [trace, trace, h, ih]

/-- Two machines agree on a run exactly where their steps agree at each visit. -/
theorem trace_eq_iff (h : ∀ s i, M.step s i = N.step s i ↔ ok s i) :
    M.trace s is = N.trace s is ↔ ∀ v ∈ N.visits s is, ok v.1 v.2 := by
  induction is generalizing s with
  | nil => simp [trace, visits]
  | cons i is ih =>
    rw [trace, trace, visits, List.cons_eq_cons, List.forall_mem_cons]
    constructor
    · rintro ⟨hstep, hrest⟩
      rw [hstep] at hrest
      exact ⟨(h s i).mp hstep, ih.mp hrest⟩
    · rintro ⟨hok, hrest⟩
      have hstep := (h s i).mpr hok
      rw [hstep]
      exact ⟨rfl, ih.mpr hrest⟩

/-! ### Runs that an answer may end -/

section
variable (ends : O → Bool)

/-- The states and answers of a run, up to the first answer that ends it. -/
def traceUntil (M : Mealy S I O) : S → List I → List (S × O)
  | _, [] => []
  | s, i :: is =>
    M.step s i :: if ends (M.step s i).2 then [] else M.traceUntil (M.step s i).1 is

/-- The inputs of such a run, each with the state it is given in. -/
def visitsUntil (M : Mealy S I O) : S → List I → List (S × I)
  | _, [] => []
  | s, i :: is => (s, i) :: if ends (M.step s i).2 then [] else M.visitsUntil (M.step s i).1 is

end

theorem mem_of_mem_visitsUntil {ends : O → Bool} {v : S × I} (hv : v ∈ M.visitsUntil ends s is) :
    v.2 ∈ is := by
  induction is generalizing s with
  | nil => cases hv
  | cons i is ih =>
    rw [visitsUntil, List.mem_cons] at hv
    obtain rfl | hv := hv
    · exact List.mem_cons_self
    · split at hv
      case isTrue => cases hv
      case isFalse => exact List.mem_cons_of_mem i (ih hv)

/-- Two machines agree on such a run exactly where their steps agree at each visit, in the states
that the second one stays in. -/
theorem traceUntil_eq_iff {ends : O → Bool} {P : S → Prop}
    (hkeep : ∀ s i, P s → ends (N.step s i).2 = false → P (N.step s i).1)
    (h : ∀ s i, P s → (M.step s i = N.step s i ↔ ok s i)) (hs : P s) :
    M.traceUntil ends s is = N.traceUntil ends s is ↔
      ∀ v ∈ N.visitsUntil ends s is, ok v.1 v.2 := by
  induction is generalizing s with
  | nil => simp [traceUntil, visitsUntil]
  | cons i is ih =>
    rw [traceUntil, traceUntil, visitsUntil, List.forall_mem_cons, List.cons_eq_cons, h s i hs]
    refine and_congr_right fun hok => ?_
    rw [(h s i hs).mpr hok]
    split
    case isTrue => simp
    case isFalse hends => exact ih (hkeep s i hs (Bool.eq_false_iff.mpr hends))

end Mealy
