import Mathlib.Data.List.Sort
import Mathlib.Logic.Relation
import Mathlib.Order.Basic

/-! # Lists in the order of a priority

`Descending key l` says that no element of `l` comes after one of lower `key`. An element is
inserted before the first one of lower key, so that those of equal key stay in the order in which
they came. Where keys change and elements are taken out and inserted anew (`Move`), an element keeps
its turn as long as it is not among them. -/

variable {α β : Type}

/-- Nothing comes after an element of lower key. -/
def Descending [LE β] (key : α → β) (l : List α) : Prop := l.Pairwise fun a b => key b ≤ key a

section
variable {key key' : α → β} {l : List α} {a b : α}

theorem Descending.congr [LE β] (h : Descending key l) (hk : ∀ a ∈ l, key' a = key a) :
    Descending key' l :=
  List.Pairwise.imp_of_mem (fun ha hb hab => by rwa [hk _ ha, hk _ hb]) h

theorem Descending.erase [LE β] [DecidableEq α] (h : Descending key l) (a : α) :
    Descending key (l.erase a) :=
  List.Pairwise.sublist List.erase_sublist h

/-- **An insertion keeps the order.** -/
theorem Descending.orderedInsert [LinearOrder β] (h : Descending key l) (a : α) :
    Descending key (l.orderedInsert (fun a b => key b < key a) a) := by
  induction l with
  | nil => exact List.pairwise_singleton _ _
  | cons b l ih =>
    obtain ⟨hb, hl⟩ := List.pairwise_cons.mp h
    rw [List.orderedInsert]
    split
    case isTrue hlt =>
      refine List.pairwise_cons.mpr ⟨fun c hc => ?_, h⟩
      rcases List.mem_cons.mp hc with rfl | hc
      · exact hlt.le
      · exact (hb c hc).trans hlt.le
    case isFalse hle =>
      refine List.pairwise_cons.mpr ⟨fun c hc => ?_, ih hl⟩
      rcases (List.mem_orderedInsert _).mp hc with rfl | hc
      · exact not_lt.mp hle
      · exact hb c hc

/-- An element is in its place when none before it has a lower key and none after it a higher
one. -/
theorem Descending.of_erase [LE β] [DecidableEq α] (h : Descending key (l.erase a))
    (hbefore : ∀ b ∈ l.takeWhile (· ≠ a), key a ≤ key b)
    (hafter : ∀ b ∈ (l.dropWhile (· ≠ a)).tail, key b ≤ key a) : Descending key l := by
  induction l with
  | nil => exact List.Pairwise.nil
  | cons b l ih =>
    by_cases hb : b = a
    · subst hb
      rw [List.erase_cons_head] at h
      exact List.pairwise_cons.mpr ⟨by simpa using hafter, h⟩
    · rw [List.erase_cons_tail (by simpa using hb)] at h
      obtain ⟨hle, hl⟩ := List.pairwise_cons.mp h
      rw [List.takeWhile_cons_of_pos (by simpa using hb)] at hbefore
      rw [List.dropWhile_cons_of_pos (by simpa using hb)] at hafter
      have htail : Descending key l := ih hl
        (fun c hc => hbefore c (List.mem_cons_of_mem b hc)) hafter
      refine List.pairwise_cons.mpr ⟨fun c hc => ?_, htail⟩
      by_cases hc' : c = a
      · exact hc' ▸ hbefore b List.mem_cons_self
      · exact hle c ((List.mem_erase_of_ne hc').mpr hc)

/-- An element is inserted behind those of the same key. -/
theorem Descending.sublist_orderedInsert [LinearOrder β] (h : Descending key l) (ha : a ∈ l)
    (hk : key b ≤ key a) : [a, b].Sublist (l.orderedInsert (fun a b => key b < key a) b) := by
  induction l with
  | nil => cases ha
  | cons c l ih =>
    obtain ⟨hc, hl⟩ := List.pairwise_cons.mp h
    rw [List.orderedInsert]
    split
    case isTrue hlt =>
      rcases List.mem_cons.mp ha with rfl | ha
      · exact absurd hlt (not_lt.mpr hk)
      · exact absurd hlt (not_lt.mpr (hk.trans (hc a ha)))
    case isFalse =>
      rcases List.mem_cons.mp ha with rfl | ha
      · exact (List.singleton_sublist.mpr ((List.mem_orderedInsert _).mpr (.inl rfl))).cons_cons a
      · exact (ih hl ha).cons c

end

/-! ## Moves -/

/-- What happens to a list and its keys: an element leaves, the key of one that is elsewhere
changes, or an element is put where a new key of it belongs. -/
inductive Move [LinearOrder β] [DecidableEq α] (placed : α → β → Prop) :
    (α → β) × List α → (α → β) × List α → Prop
  | leave {key : α → β} {l : List α} (a : α) : Move placed (key, l) (key, l.erase a)
  | rekey {key key' : α → β} {l : List α} {a : α} (ha : a ∉ l)
    (hk : ∀ b, b ≠ a → key' b = key b) : Move placed (key, l) (key', l)
  | place {key key' : α → β} {l : List α} {a : α} (hp : placed a (key' a))
    (hk : ∀ b, b ≠ a → key' b = key b) :
    Move placed (key, l) (key', (l.erase a).orderedInsert (fun a b => key' b < key' a) a)

/-- A list without duplicates in the order of its keys. -/
structure InOrder [LE β] (x : (α → β) × List α) : Prop where
  nodup : x.2.Nodup
  ordered : Descending x.1 x.2

/-- While `a` is in the list, its key is `k` and `b` is behind it. -/
def InTurn (k : β) (a b : α) (x : (α → β) × List α) : Prop :=
  a ∈ x.2 → x.1 a = k ∧ (b ∈ x.2 → [a, b].Sublist x.2)

section
variable [LinearOrder β] [DecidableEq α] {placed : α → β → Prop} {x y : (α → β) × List α}
  {a b : α} {k : β}

/-- **A move keeps the order.** -/
theorem InOrder.move (h : InOrder x) (hm : Move placed x y) : InOrder y := by
  obtain ⟨hnodup, hordered⟩ := h
  cases hm with
  | leave a => exact ⟨hnodup.erase a, hordered.erase a⟩
  | @rekey key key' l a ha hk =>
    exact ⟨hnodup, hordered.congr fun b hb => hk b fun he => ha (he ▸ hb)⟩
  | @place key key' l a hp hk =>
    constructor
    · exact ((List.perm_orderedInsert _ _ _).nodup_iff).mpr
        (List.nodup_cons.mpr ⟨hnodup.not_mem_erase, hnodup.erase a⟩)
    · apply Descending.orderedInsert
      exact (hordered.erase a).congr fun b hb => hk b fun he => hnodup.not_mem_erase (he ▸ hb)

theorem InOrder.moves (h : InOrder x) (hm : Relation.ReflTransGen (Move placed) x y) :
    InOrder y := by
  induction hm with
  | refl => exact h
  | tail _ hm ih => exact ih.move hm

/-- **A move keeps the turn** of an element that it does not place, before one that it places with
no higher key. -/
theorem InTurn.move (h : InTurn k a b x) (hx : InOrder x) (ha : ∀ k, ¬ placed a k)
    (hb : ∀ k', placed b k' → k' ≤ k) (hm : Move placed x y) : InTurn k a b y := by
  intro hay
  cases hm with
  | @leave key l c =>
    obtain ⟨hkey, hturn⟩ := h (List.mem_of_mem_erase hay)
    refine ⟨hkey, fun hby => ?_⟩
    have hca : c ≠ a := fun he => hx.nodup.not_mem_erase (he ▸ hay)
    have hcb : c ≠ b := fun he => hx.nodup.not_mem_erase (he ▸ hby)
    have hturn := (hturn (List.mem_of_mem_erase hby)).erase c
    rwa [List.erase_of_not_mem (by simp [hca, hcb])] at hturn
  | @rekey key key' l c hc hk =>
    obtain ⟨hkey, hturn⟩ := h hay
    exact ⟨(hk a fun he => hc (he ▸ hay)).trans hkey, hturn⟩
  | @place key key' l c hp hk =>
    have hca : a ≠ c := fun he => ha _ (he ▸ hp)
    have hal : a ∈ l.erase c := ((List.mem_orderedInsert _).mp hay).resolve_left hca
    obtain ⟨hkey, hturn⟩ := h (List.mem_of_mem_erase hal)
    refine ⟨(hk a hca).trans hkey, fun hby => ?_⟩
    by_cases hcb : b = c
    · subst hcb
      have hordered : Descending key' (l.erase b) := (hx.ordered.erase b).congr fun d hd =>
        hk d fun he => hx.nodup.not_mem_erase (he ▸ hd)
      have hkey : key' a = k := (hk a hca).trans hkey
      refine hordered.sublist_orderedInsert hal ?_
      rw [hkey]
      exact hb _ hp
    · have hbl : b ∈ l.erase c := ((List.mem_orderedInsert _).mp hby).resolve_left hcb
      have hturn := (hturn (List.mem_of_mem_erase hbl)).erase c
      rw [List.erase_of_not_mem (by simp [Ne.symm hca, Ne.symm hcb])] at hturn
      exact hturn.trans (List.sublist_orderedInsert ..)

theorem InTurn.moves (h : InTurn k a b x) (hx : InOrder x) (ha : ∀ k, ¬ placed a k)
    (hb : ∀ k', placed b k' → k' ≤ k) (hm : Relation.ReflTransGen (Move placed) x y) :
    InTurn k a b y := by
  induction hm with
  | refl => exact h
  | tail hm' hm ih => exact ih.move (hx.moves hm') ha hb hm

end

/-! ## Elements that are out of place -/

/-- The list is in the order of its keys but for the places of the elements that are not settled. -/
def DescendingOn [LE β] (settled : α → Prop) (key : α → β) (l : List α) : Prop :=
  ∀ l', l'.Sublist l → (∀ a ∈ l', settled a) → Descending key l'

namespace DescendingOn

variable {settled settled' : α → Prop} {key key' : α → β} {l l' : List α} {a : α}

theorem descending [LE β] (h : DescendingOn settled key l) (hl : ∀ a ∈ l, settled a) :
    Descending key l :=
  h l (.refl l) hl

theorem sublist [LE β] (h : DescendingOn settled key l) (hl : l'.Sublist l)
    (hset : ∀ a ∈ l', settled' a → settled a) : DescendingOn settled' key l' :=
  fun k hk hks => h k (hk.trans hl) fun a ha => hset a (hk.mem ha) (hks a ha)

/-- Elements whose keys change are no longer settled. -/
theorem rekey [LE β] (h : DescendingOn settled key l) (hset : ∀ a ∈ l, settled' a → settled a)
    (hk : ∀ a ∈ l, settled' a → key' a = key a) : DescendingOn settled' key' l := by
  intro k hkl hks
  have hdesc := h k hkl fun a ha => hset a (hkl.mem ha) (hks a ha)
  exact hdesc.congr fun a ha => hk a (hkl.mem ha) (hks a ha)

/-- An element is put into its place when all others are settled. -/
theorem place [LinearOrder β] (h : DescendingOn settled key l) (hl : ∀ b ∈ l, settled b) :
    DescendingOn settled' key (l.orderedInsert (fun a b => key b < key a) a) :=
  fun _ hk _ => ((h.descending hl).orderedInsert a).sublist hk

end DescendingOn
