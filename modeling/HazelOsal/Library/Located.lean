import Mathlib.Data.List.Basic
import Mathlib.Data.List.Perm.Basic
import Mathlib.Logic.Function.Basic

/-! # Items on lists

Every item is on at most one of a family of lists, and once. `place` says on which one. The updates
are those of an intrusive list, whose nodes are unlinked wherever they are. -/

variable {ι α : Type} [DecidableEq ι] [DecidableEq α] {lists lists' : ι → List α}
  {place : α → Option ι} {a : α} {i : ι} {l : List α}

/-- The lists and the places of the items agree. -/
structure Located (lists : ι → List α) (place : α → Option ι) : Prop where
  nodup : ∀ i, (lists i).Nodup
  mem : ∀ a i, a ∈ lists i ↔ place a = some i

namespace Located

omit [DecidableEq ι] [DecidableEq α] in
/-- An item is on one list only. -/
theorem unique {j : ι} (h : Located lists place) (hi : a ∈ lists i) (hj : a ∈ lists j) : i = j :=
  Option.some.inj (((h.mem a i).mp hi).symm.trans ((h.mem a j).mp hj))

omit [DecidableEq ι] [DecidableEq α] in
theorem perm (h : Located lists place) (hl : ∀ i, (lists' i).Perm (lists i)) :
    Located lists' place where
  nodup i := (hl i).nodup_iff.mpr (h.nodup i)
  mem a i := (hl i).mem_iff.trans (h.mem a i)

/-- An item joins a list, at any position. -/
theorem insert (h : Located lists place) (ha : place a = none) (hl : l.Perm (a :: lists i)) :
    Located (Function.update lists i l) (Function.update place a (some i)) := by
  have hnot (j) : a ∉ lists j := by
    rw [h.mem, ha]
    exact (Option.some_ne_none j).symm
  constructor
  · intro j
    rw [Function.update_apply]
    split
    case isTrue => exact hl.nodup_iff.mpr (List.nodup_cons.mpr ⟨hnot i, h.nodup i⟩)
    case isFalse => exact h.nodup j
  · intro b j
    simp only [Function.update_apply]
    by_cases hb : b = a
    · subst hb
      rw [if_pos rfl]
      split
      case isTrue hj => simp [hj, hl.mem_iff]
      case isFalse hj => simp [hnot, Ne.symm hj]
    · rw [if_neg hb, ← h.mem]
      split
      case isTrue hj => simp [hj, hl.mem_iff, hb]
      case isFalse => rfl

omit [DecidableEq ι] in
/-- An item is unlinked from whichever list it is on. -/
theorem erase (h : Located lists place) (a : α) :
    Located (fun i => (lists i).erase a) (Function.update place a none) where
  nodup i := (h.nodup i).erase a
  mem b i := by
    rw [(h.nodup i).mem_erase_iff, Function.update_apply]
    split
    case isTrue hb => simp [hb]
    case isFalse hb => simp [hb, h.mem]

/-- The first item of a list is removed. -/
theorem pop (h : Located lists place) (hl : lists i = a :: l) :
    Located (Function.update lists i l) (Function.update place a none) := by
  refine (h.erase a).perm fun j => ?_
  rw [Function.update_apply]
  split
  case isTrue hj => rw [hj, hl, List.erase_cons_head]
  case isFalse hj =>
    have ha : a ∈ lists i := hl ▸ List.mem_cons_self
    rw [List.erase_of_not_mem fun ha' => hj (h.unique ha' ha)]

/-- An item that is unlinked and put back elsewhere in its list. -/
theorem replace (h : Located lists place) (ha : a ∈ lists i)
    (hl : l.Perm (a :: (lists i).erase a)) (j : ι) :
    (Function.update (fun j => (lists j).erase a) i l j).Perm (lists j) := by
  rw [Function.update_apply]
  split
  case isTrue hj => exact hj ▸ hl.trans (List.perm_cons_erase ha).symm
  case isFalse hj => rw [List.erase_of_not_mem fun ha' => hj (h.unique ha' ha)]

/-- An item is cut out of the list that it is on. -/
theorem cut (h : Located lists place) (ha : a ∈ lists i) : ∃ l₁ l₂, lists i = l₁ ++ a :: l₂ ∧
    (fun j => (lists j).erase a) = Function.update lists i (l₁ ++ l₂) := by
  obtain ⟨l₁, l₂, hl⟩ := List.append_of_mem ha
  have hnot : a ∉ l₁ := by
    have hnodup := h.nodup i
    rw [hl, List.nodup_append] at hnodup
    exact fun ha => hnodup.2.2 a ha a List.mem_cons_self rfl
  refine ⟨l₁, l₂, hl, funext fun j => ?_⟩
  rw [Function.update_apply]
  split
  case isTrue hj => rw [hj, hl, List.erase_append_right _ hnot, List.erase_cons_head]
  case isFalse hj => exact List.erase_of_not_mem fun ha' => hj (h.unique ha' ha)

end Located
