import Mathlib.Data.List.Chain
import Mathlib.Logic.Function.Basic
import Mathlib.Logic.Relation

/-! # Chains of a partial function

A partial function `next` sends a point to the one it waits for, if any. `Leads next` is its graph
and `Acyclic next` says that no point leads back to itself. `Trail next start l` says that `l`
lists the points from `start` on, to the last one. -/

open Relation

variable {α : Type} {next next' : α → Option α} {a b c : α}

def Leads (next : α → Option α) (a b : α) : Prop := next a = some b

def Acyclic (next : α → Option α) : Prop := ∀ a, ¬ TransGen (Leads next) a a

/-- **New edges to points without a successor close no cycle.** In particular none is closed when
edges are dropped. -/
theorem Acyclic.of_edges (hn : Acyclic next)
    (h : ∀ a b, Leads next' a b → Leads next a b ∨ next' b = none) : Acyclic next' := by
  intro a ha
  have hold {b} (hab : TransGen (Leads next') a b) (hb : next' b ≠ none) :
      TransGen (Leads next) a b := by
    induction hab with
    | single hab => exact .single ((h _ _ hab).resolve_right hb)
    | @tail x y hax hxy ih =>
      have hx : next' x ≠ none := by rw [hxy]; exact Option.some_ne_none _
      exact (ih hx).tail ((h _ _ hxy).resolve_right hb)
  obtain ⟨b, hab, -⟩ := TransGen.head'_iff.mp ha
  refine hn a (hold ha ?_)
  rw [hab]
  exact Option.some_ne_none _

variable [DecidableEq α]

/-- A new edge closes no cycle when its end does not lead to its start. -/
theorem Acyclic.link (hn : Acyclic next) (hba : ¬ ReflTransGen (Leads next) b a) :
    Acyclic (Function.update next a (some b)) := by
  intro x hx
  -- a path that uses the new edge reaches `a` from `b`
  have hpath {x y} (h : TransGen (Leads (Function.update next a (some b))) x y) :
      TransGen (Leads next) x y ∨
        ReflTransGen (Leads next) x a ∧ ReflTransGen (Leads next) b y := by
    induction h with
    | single hxy =>
      rw [Leads, Function.update_apply] at hxy
      split at hxy
      case isTrue he => cases hxy; exact .inr ⟨he ▸ .refl, .refl⟩
      case isFalse => exact .inl (.single hxy)
    | tail _ hyz ih =>
      rw [Leads, Function.update_apply] at hyz
      split at hyz
      case isTrue he =>
        cases hyz
        subst he
        rcases ih with hxy | ⟨-, hby⟩
        · exact .inr ⟨hxy.to_reflTransGen, .refl⟩
        · exact absurd hby hba
      case isFalse =>
        rcases ih with hxy | ⟨hxa, hby⟩
        · exact .inl (hxy.tail hyz)
        · exact .inr ⟨hxa, hby.tail hyz⟩
  rcases hpath hx with h | ⟨hxa, hbx⟩
  · exact hn x h
  · exact hba (hbx.trans hxa)

/-! ## The list of the points from a start on -/

/-- `l` lists the points from `start` on, to one that has no successor. -/
inductive Trail (next : α → Option α) : Option α → List α → Prop
  | nil : Trail next none []
  | cons {a : α} {l : List α} : Trail next (next a) l → Trail next (some a) (a :: l)

section
omit [DecidableEq α]

/-- No chain has more than `n` points. -/
def ChainsAtMost (next : α → Option α) (n : Nat) : Prop :=
  ∀ l : List α, l.IsChain (Leads next) → l.length ≤ n

theorem Trail.leads_of_mem {l : List α} (h : Trail next (some a) l) (hb : b ∈ l) :
    ReflTransGen (Leads next) a b := by
  generalize ho : some a = o at h
  induction h generalizing a with
  | nil => cases hb
  | @cons c l hl ih =>
    cases ho
    rcases List.mem_cons.mp hb with rfl | hb
    · exact .refl
    · cases hn : next c with
      | none => rw [hn] at hl; cases hl; cases hb
      | some d => exact .head hn (ih hb hn.symm)

/-- Bounded chains come to an end. -/
theorem ChainsAtMost.exists_trail {n : Nat} (h : ChainsAtMost next n) (o : Option α) :
    ∃ l, Trail next o l ∧ l.length ≤ n := by
  have htrail (k : Nat) (a : α)
      (hk : ∀ l, (a :: l).IsChain (Leads next) → (a :: l).length ≤ k) :
      ∃ l, Trail next (some a) l ∧ l.length ≤ k := by
    induction k generalizing a with
    | zero => exact absurd (hk [] (.singleton a)) (Nat.not_succ_le_zero 0)
    | succ k ih =>
      cases hn : next a with
      | none => exact ⟨[a], .cons (hn ▸ .nil), Nat.succ_le_succ (Nat.zero_le k)⟩
      | some b =>
        obtain ⟨l, hl, hlen⟩ := ih b fun l hl =>
          Nat.le_of_succ_le_succ (hk (b :: l) (.cons_cons hn hl))
        exact ⟨a :: l, .cons (hn ▸ hl), Nat.succ_le_succ hlen⟩
  cases o with
  | none => exact ⟨[], .nil, Nat.zero_le n⟩
  | some a => exact htrail n a fun l hl => h _ hl

/-- A trail does not come back. -/
theorem Acyclic.not_mem_trail {l : List α} (hn : Acyclic next) (h : Trail next (next a) l) :
    a ∉ l := by
  intro ha
  cases hb : next a with
  | none => rw [hb] at h; cases h; cases ha
  | some b =>
    rw [hb] at h
    exact hn a (.head' hb (h.leads_of_mem ha))

/-- The point that `n` edges lead to. -/
def follow (next : α → Option α) : Nat → α → Option α
  | 0, a => some a
  | n + 1, a => (next a).bind (follow next n)

theorem ChainsAtMost.of_follow {n : Nat} (h : ∀ a, follow next n a = none) :
    ChainsAtMost next n := by
  have hlong {k : Nat} {a : α} {l : List α} (hl : (a :: l).IsChain (Leads next))
      (hk : k ≤ l.length) : follow next k a ≠ none := by
    induction k generalizing a l with
    | zero => exact Option.some_ne_none a
    | succ k ih =>
      cases hl with
      | singleton => cases hk
      | cons_cons hab hl =>
        rw [follow, show next a = _ from hab]
        exact ih hl (Nat.le_of_succ_le_succ hk)
  intro l hl
  by_contra hlen
  cases l with
  | nil => exact hlen (Nat.zero_le n)
  | cons a l => exact hlong hl (Nat.le_of_lt_succ (Nat.lt_of_not_le hlen)) (h a)

end
