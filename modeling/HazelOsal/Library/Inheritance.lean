import HazelOsal.Library.Chains
import Mathlib.Order.Bounds.Basic
import Mathlib.Order.Lattice
import Mathlib.Order.MinMax

/-! # Priority inheritance

In a graph of who waits for whom, given by a partial function `next`, everyone has a base priority
and inherits the priorities of those that wait for them: `Inherits next base prio a` says that the
priority of `a` is the greatest of these. `InheritsExcept` says so of all but one, the one at which
a walk along `next` has arrived that repairs the priorities one after another. -/

open Relation

variable {α β : Type} [LinearOrder β] {next next' : α → Option α} {base base' prio prio' : α → β}
  {a b : α} {o : Option α} {p : β}

/-- The base priority of `a` and the priorities of those that wait for it. -/
def claims (next : α → Option α) (base prio : α → β) (a : α) : Set β :=
  insert (base a) (prio '' {b | Leads next b a})

/-- The priority of `a` is the greatest of those it has a claim to. -/
def Inherits (next : α → Option α) (base prio : α → β) (a : α) : Prop :=
  IsGreatest (claims next base prio a) (prio a)

/-- The priorities are inherited, except perhaps by one. -/
def InheritsExcept (next : α → Option α) (base prio : α → β) (o : Option α) : Prop :=
  ∀ a, o ≠ some a → Inherits next base prio a

omit [LinearOrder β] in
theorem claims_congr (hb : base' a = base a) (hn : ∀ b, Leads next' b a ↔ Leads next b a)
    (hp : ∀ b, Leads next b a → prio' b = prio b) :
    claims next' base' prio' a = claims next base prio a := by
  rw [claims, claims, hb]
  congr 1
  ext q
  refine exists_congr fun b => ?_
  rw [Set.mem_ofPred_eq, Set.mem_ofPred_eq, hn]
  exact and_congr_right fun hab => by rw [hp b hab]

theorem Inherits.congr (h : Inherits next base prio a) (ha : prio' a = prio a)
    (hb : base' a = base a) (hn : ∀ b, Leads next' b a ↔ Leads next b a)
    (hp : ∀ b, Leads next b a → prio' b = prio b) : Inherits next' base' prio' a := by
  rw [Inherits, claims_congr hb hn hp, ha]
  exact h

/-- Whoever waits has no higher priority than the one it waits for. -/
theorem Inherits.le (h : Inherits next base prio b) (hab : Leads next a b) : prio a ≤ prio b :=
  h.2 (.inr ⟨a, hab, rfl⟩)

theorem le_of_transGen (h : ∀ a, Inherits next base prio a) (hab : TransGen (Leads next) a b) :
    prio a ≤ prio b := by
  induction hab with
  | single hab => exact (h _).le hab
  | tail _ hbc ih => exact ih.trans ((h _).le hbc)

/-- New edges from points of no higher priority change nothing. -/
theorem Inherits.join (h : Inherits next base prio b)
    (hold : ∀ a, Leads next a b → Leads next' a b)
    (hnew : ∀ a, Leads next' a b → Leads next a b ∨ prio a ≤ prio b) :
    Inherits next' base prio b := by
  refine ⟨?_, ?_⟩
  · rcases h.1 with hb | ⟨a, hab, ha⟩
    · exact .inl hb
    · exact .inr ⟨a, hold a hab, ha⟩
  · rintro q (rfl | ⟨a, hab, rfl⟩)
    · exact h.2 (.inl rfl)
    · rcases hnew a hab with hab | hle
      · exact h.le hab
      · exact hle

/-- Edges to one point, and its base priority, may change. -/
theorem InheritsExcept.of_changes (h : ∀ a, Inherits next base prio a)
    (hb : ∀ a, o ≠ some a → base' a = base a)
    (hn : ∀ a b, o ≠ some b → (Leads next' a b ↔ Leads next a b)) :
    InheritsExcept next' base' prio o :=
  fun a ha => (h a).congr rfl (hb a ha) (fun b => hn b a ha) fun _ _ => rfl

variable [DecidableEq α]

/-- **A round of the walk** repairs the priority of `a`, and then only the one that `a` waits for
may have the wrong one. -/
theorem InheritsExcept.update (h : InheritsExcept next base prio (some a)) (ha : next a ≠ some a)
    (hp : IsGreatest (claims next base prio a) p) :
    InheritsExcept next base (Function.update prio a p) (next a) := by
  intro b hb
  have hother {c} (hcb : Leads next c b) : Function.update prio a p c = prio c := by
    refine Function.update_of_ne ?_ ..
    rintro rfl
    exact hb hcb
  by_cases hba : b = a
  · subst hba
    rw [Inherits, claims_congr rfl (fun _ => Iff.rfl) fun c hc => hother hc, Function.update_self]
    exact hp
  · exact (h b fun he => hba (Option.some.inj he).symm).congr (Function.update_of_ne hba ..) rfl
      (fun _ => Iff.rfl) fun c hc => hother hc

/-! ## The greatest priority of a list -/

omit [DecidableEq α] in
/-- The running maximum of a list. -/
theorem foldl_isGreatest (f : α → β) (l : List α) (init : β) :
    IsGreatest (insert init (f '' {a | a ∈ l}))
      (l.foldl (fun m a => if f a > m then f a else m) init) := by
  induction l generalizing init with
  | nil => simp
  | cons a l ih =>
    have hmax : (if f a > init then f a else init) = max init (f a) := by
      split
      case isTrue h => exact (max_eq_right h.le).symm
      case isFalse h => exact (max_eq_left (not_lt.mp h)).symm
    rw [List.foldl_cons, hmax]
    obtain ⟨hmem, hub⟩ := ih (max init (f a))
    refine ⟨?_, ?_⟩
    · rcases hmem with hm | ⟨b, hb, hm⟩
      · rw [hm]
        rcases max_choice init (f a) with he | he
        · exact .inl he
        · exact .inr ⟨a, List.mem_cons_self, he.symm⟩
      · exact .inr ⟨b, List.mem_cons_of_mem a hb, hm⟩
    · have hle := hub (.inl rfl)
      rintro q (rfl | ⟨b, hb, rfl⟩)
      · exact (le_max_left ..).trans hle
      · rcases List.mem_cons.mp hb with rfl | hb
        · exact (le_max_right ..).trans hle
        · exact hub (.inr ⟨b, hb, rfl⟩)
