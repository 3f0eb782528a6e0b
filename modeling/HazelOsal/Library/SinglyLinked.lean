import Mathlib.Data.List.Nodup
import Mathlib.Logic.Function.Basic

/-! # Singly linked lists with a tail

A node has a link to the next one, and a list has pointers to its first and to its last node.
`Segment next p l q` says that from `p` on the links lead through `l` to `q`, `Holds h k l` that the
list `k` is `l`, and `Represents h F` that the lists are those of `F` and share no node. A call that
changes one list has to say what it makes of it and which links it touches, and the other lists
follow. -/

/-- The link of every node, and the pointers of every list; `none` is the null pointer. -/
structure SinglyLinks (K α : Type) where
  next : α → Option α
  head : K → Option α
  tail : K → Option α

namespace SinglyLinks

variable {K α : Type} {next next' : α → Option α} {p q : Option α} {a b : α} {l l' m : List α}

/-- From `p` on the links lead through `l` to `q`. -/
def Segment (next : α → Option α) : Option α → List α → Option α → Prop
  | p, [], q => p = q
  | p, a :: l, q => p = some a ∧ Segment next (next a) l q

namespace Segment

theorem head (h : Segment next p l q) : p = l.head?.or q := by
  cases l with
  | nil => exact h
  | cons a l => exact h.1

theorem congr (h : Segment next p l q) (hn : ∀ a ∈ l, next' a = next a) : Segment next' p l q := by
  induction l generalizing p with
  | nil => exact h
  | cons a l ih =>
    refine ⟨h.1, ?_⟩
    rw [hn a List.mem_cons_self]
    exact ih h.2 fun b hb => hn b (List.mem_cons_of_mem a hb)

theorem append_iff : Segment next p (l ++ m) q ↔
    Segment next p l (m.head?.or q) ∧ Segment next (m.head?.or q) m q := by
  induction l generalizing p with
  | nil =>
    constructor
    · intro h
      have hp := head h
      exact ⟨hp, hp ▸ h⟩
    · rintro ⟨rfl, h⟩
      exact h
  | cons a l ih =>
    rw [List.cons_append, Segment, Segment, ih, and_assoc]

/-- The node in the middle leads to the next one. -/
theorem next_eq (h : Segment next p (l ++ a :: m) q) : next a = m.head?.or q :=
  head (append_iff.mp h).2.2

theorem not_mem_update [DecidableEq α] (h : Segment next p l q) (ha : a ∉ l) {v : Option α} :
    Segment (Function.update next a v) p l q :=
  h.congr fun b hb => Function.update_of_ne (fun (he : b = a) => ha (he ▸ hb)) ..

end Segment

/-- The list `k` is `l`. -/
structure Holds (h : SinglyLinks K α) (k : K) (l : List α) : Prop where
  segment : Segment h.next (h.head k) l none
  tail : h.tail k = l.getLast?
  nodup : l.Nodup

variable {h h' : SinglyLinks K α} {k k' : K} {S : List α}

namespace Holds

theorem head (hl : h.Holds k l) : h.head k = l.head? := by
  rw [hl.segment.head, Option.or_none]

theorem next_eq (hl : h.Holds k (l ++ a :: m)) : h.next a = m.head? := by
  rw [hl.segment.next_eq, Option.or_none]

theorem tail_eq_none (hl : h.Holds k l) : h.tail k = none ↔ l = [] := by
  rw [hl.tail, List.getLast?_eq_none_iff]

end Holds

/-- Only the list `k` and the links of the nodes in `S` have changed. -/
structure Frame (h h' : SinglyLinks K α) (k : K) (S : List α) : Prop where
  head : ∀ k' ≠ k, h'.head k' = h.head k'
  tail : ∀ k' ≠ k, h'.tail k' = h.tail k'
  next : ∀ a ∉ S, h'.next a = h.next a

theorem Holds.frame (hl : h.Holds k' l) (hf : Frame h h' k S) (hk : k' ≠ k)
    (hS : ∀ a ∈ l, a ∉ S) : h'.Holds k' l where
  segment := by
    rw [hf.head k' hk]
    exact hl.segment.congr fun a ha => hf.next a (hS a ha)
  tail := by rw [hf.tail k' hk, hl.tail]
  nodup := hl.nodup

/-! ## Several lists -/

/-- The lists that there are. -/
abbrev Lists (K α : Type) := K → Option (List α)

variable {F : Lists K α}

/-- No list other than `k` has the node `a`. -/
def Lists.Avail (F : Lists K α) (k : K) (a : α) : Prop := ∀ k' l, F k' = some l → a ∈ l → k' = k

/-- No list has the node `a`. -/
def Lists.Free (F : Lists K α) (a : α) : Prop := ∀ k l, F k = some l → a ∉ l

theorem Lists.Free.avail (ha : F.Free a) : F.Avail k a := fun k' l hk' hmem =>
  absurd hmem (ha k' l hk')

structure Represents (h : SinglyLinks K α) (F : Lists K α) : Prop where
  holds : ∀ {k l}, F k = some l → h.Holds k l
  avail : ∀ {k l a}, F k = some l → a ∈ l → F.Avail k a

namespace Represents

theorem empty : Represents h (fun _ => none) := ⟨(nomatch ·), (nomatch ·)⟩

variable [DecidableEq K]

/-- **One list at a time.** -/
theorem update (hF : Represents h F) (hf : Frame h h' k S) (hS : ∀ a ∈ S, F.Avail k a)
    (hl : h'.Holds k l) (hmem : ∀ a ∈ l, F.Avail k a) :
    Represents h' (Function.update F k (some l)) where
  holds {k' l'} hk' := by
    by_cases he : k' = k
    · subst he
      rw [Function.update_self, Option.some_inj] at hk'
      exact hk' ▸ hl
    · rw [Function.update_of_ne he] at hk'
      exact (hF.holds hk').frame hf he fun a ha haS => he (hS a haS k' l' hk' ha)
  avail {k₁ l₁ a} h₁ ha k₂ l₂ h₂ ha₂ := by
    by_cases he₁ : k₁ = k <;> by_cases he₂ : k₂ = k
    · exact he₂.trans he₁.symm
    · subst he₁
      rw [Function.update_self, Option.some_inj] at h₁
      rw [Function.update_of_ne he₂] at h₂
      exact hmem a (h₁ ▸ ha) k₂ l₂ h₂ ha₂
    · subst he₂
      rw [Function.update_self, Option.some_inj] at h₂
      rw [Function.update_of_ne he₁] at h₁
      exact (hmem a (h₂ ▸ ha₂) k₁ l₁ h₁ ha).symm
    · rw [Function.update_of_ne he₁] at h₁
      rw [Function.update_of_ne he₂] at h₂
      exact hF.avail h₁ ha k₂ l₂ h₂ ha₂

/-- A list gets other nodes, of its own or of no list. -/
theorem relist (hF : Represents h F) (hk : F k = some l) (hf : Frame h h' k S)
    (hS : ∀ a ∈ S, a ∈ l ∨ F.Free a) (hl : h'.Holds k l') (hmem : ∀ a ∈ l', a ∈ l ∨ F.Free a) :
    Represents h' (Function.update F k (some l')) :=
  have havail {a : α} (ha : a ∈ l ∨ F.Free a) : F.Avail k a :=
    ha.elim (hF.avail hk) Lists.Free.avail
  hF.update hf (fun a ha => havail (hS a ha)) hl fun a ha => havail (hmem a ha)

/-- A list that is given up leaves its nodes to the others. -/
theorem drop (hF : Represents h F) (k : K) : Represents h (Function.update F k none) := by
  have hold {k' l'} (hk' : Function.update F k none k' = some l') : F k' = some l' := by
    by_cases he : k' = k
    · subst he
      rw [Function.update_self] at hk'
      cases hk'
    · rwa [Function.update_of_ne he] at hk'
  exact ⟨fun hk' => hF.holds (hold hk'),
    fun h₁ ha k₂ l₂ h₂ ha₂ => hF.avail (hold h₁) ha k₂ l₂ (hold h₂) ha₂⟩

theorem avail_drop (hF : Represents h F) (hk : F k = some l) (ha : a ∈ l) :
    Lists.Avail (Function.update F k none) k' a := by
  intro k₂ l₂ h₂ ha₂
  by_cases he : k₂ = k
  · subst he
    rw [Function.update_self] at h₂
    cases h₂
  · rw [Function.update_of_ne he] at h₂
    exact absurd (hF.avail hk ha k₂ l₂ h₂ ha₂) he

end Represents

end SinglyLinks
