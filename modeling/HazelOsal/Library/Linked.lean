import Mathlib.Data.List.Basic
import Mathlib.Logic.Function.Basic

/-! # Chains of links

`Linked next null a l` says that from `a` on the links `next` lead through `l`, in order, to
`null`. A chain that ends meets nothing twice, and only links of its own elements matter. -/

variable {A : Type} {next next' : A → A} {null a b : A} {l l' : List A}

def Linked (next : A → A) (null : A) : A → List A → Prop
  | a, [] => a = null
  | a, b :: l => a = b ∧ a ≠ null ∧ Linked next null (next a) l

namespace Linked

theorem nil_of_null (h : Linked next null null l) : l = [] := by
  cases l with
  | nil => rfl
  | cons b l => exact absurd rfl h.2.1

/-- Where a chain starts determines it. -/
theorem unique (h : Linked next null a l) (h' : Linked next null a l') : l = l' := by
  induction l generalizing a l' with
  | nil =>
    obtain rfl : a = null := h
    exact h'.nil_of_null.symm
  | cons b l ih =>
    obtain ⟨rfl, hne, h⟩ := h
    cases l' with
    | nil => exact absurd h' hne
    | cons b' l' =>
      obtain ⟨rfl, -, h'⟩ := h'
      rw [ih h h']

/-- From an element on, the rest of the chain is a chain. -/
theorem suffix (h : Linked next null a l) (hb : b ∈ l) :
    ∃ l', Linked next null b l' ∧ l' <:+ l := by
  induction l generalizing a with
  | nil => cases hb
  | cons d l ih =>
    obtain ⟨rfl, hne, h⟩ := h
    rcases List.mem_cons.mp hb with rfl | hb
    · exact ⟨b :: l, ⟨rfl, hne, h⟩, List.suffix_refl _⟩
    · obtain ⟨l', hl', hs⟩ := ih h hb
      exact ⟨l', hl', hs.trans (List.suffix_cons a l)⟩

/-- **A chain that ends meets nothing twice.** -/
theorem nodup (h : Linked next null a l) : l.Nodup := by
  induction l generalizing a with
  | nil => exact List.nodup_nil
  | cons b l ih =>
    obtain ⟨rfl, hne, h⟩ := h
    refine List.nodup_cons.mpr ⟨fun ha => ?_, ih h⟩
    -- the chain from `a` on would be longer than itself
    obtain ⟨l', hl', hs⟩ := h.suffix ha
    have hlong : Linked next null a (a :: l) := ⟨rfl, hne, h⟩
    have hle := hs.length_le
    rw [hl'.unique hlong, List.length_cons] at hle
    exact absurd hle (Nat.not_succ_le_self _)

theorem congr (h : Linked next null a l) (hn : ∀ b ∈ l, next' b = next b) :
    Linked next' null a l := by
  induction l generalizing a with
  | nil => exact h
  | cons b l ih =>
    obtain ⟨rfl, hne, h⟩ := h
    refine ⟨rfl, hne, ?_⟩
    rw [hn a List.mem_cons_self]
    exact ih h fun b hb => hn b (List.mem_cons_of_mem a hb)

/-- A new element in front. -/
theorem push [DecidableEq A] (h : Linked next null a l) (hb : b ∉ l) (hne : b ≠ null) :
    Linked (Function.update next b a) null b (b :: l) := by
  refine ⟨rfl, hne, ?_⟩
  rw [Function.update_self]
  exact h.congr fun d hd => Function.update_of_ne (fun (he : d = b) => hb (he ▸ hd)) ..

end Linked
