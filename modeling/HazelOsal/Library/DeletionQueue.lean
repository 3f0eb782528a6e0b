import Mathlib.Data.List.Basic
import Mathlib.Data.List.Nodup

/-! # FIFO queues with deletion

The abstract meaning of a queue from which entries may be deleted before they are started. A
`DeletionQueue` remembers every entry that was accepted, in order; its field `spec` says that
those not deleted are the started ones followed by the pending ones. The operations keep it, so
that a value of the type is a history that a FIFO with deletion can have. -/

/-- The history of a FIFO with deletion. Entries of other queues may be among the `deleted`. -/
structure DeletionQueue (α : Type) [BEq α] where
  accepted : List α
  deleted : List α
  started : List α
  pending : List α
  nodup : accepted.Nodup
  spec : started ++ pending = accepted.filter (!deleted.contains ·)

/-- Exactly one of three. -/
def ExactlyOne (p q r : Prop) : Prop := (p ∧ ¬q ∧ ¬r) ∨ (¬p ∧ q ∧ ¬r) ∨ (¬p ∧ ¬q ∧ r)

namespace DeletionQueue

section
variable {α : Type} [BEq α] (D : DeletionQueue α) {x : α}

theorem nodup_started_pending : (D.started ++ D.pending).Nodup := by
  rw [D.spec]; exact D.nodup.filter _

/-- The started entries are a prefix of the accepted ones that were not deleted. -/
theorem started_prefix : D.started <+: D.accepted.filter (!D.deleted.contains ·) :=
  ⟨D.pending, D.spec⟩

end

variable {α : Type} [BEq α] [LawfulBEq α] (D : DeletionQueue α) {x : α}

/-! ## Operations -/

def empty : DeletionQueue α := ⟨[], [], [], [], List.nodup_nil, rfl⟩

/-- A new entry at the end. -/
def accept (x : α) (hx : x ∉ D.accepted) (hd : x ∉ D.deleted) : DeletionQueue α where
  accepted := D.accepted ++ [x]
  deleted := D.deleted
  started := D.started
  pending := D.pending ++ [x]
  nodup := D.nodup.append (List.nodup_singleton x) (by simpa using hx)
  spec := by
    have hx : [x].filter (!D.deleted.contains ·) = [x] := by simp [hd]
    rw [← List.append_assoc, D.spec, List.filter_append, hx]

/-- The first pending entry is started. -/
def start (x : α) (rest : List α) (h : D.pending = x :: rest) : DeletionQueue α where
  accepted := D.accepted
  deleted := D.deleted
  started := D.started ++ [x]
  pending := rest
  nodup := D.nodup
  spec := by rw [← D.spec, h, List.append_assoc]; rfl

theorem mem_started_or_pending :
    x ∈ D.started ∨ x ∈ D.pending ↔ x ∈ D.accepted ∧ x ∉ D.deleted := by
  rw [← List.mem_append, D.spec, List.mem_filter, Bool.not_eq_true', List.contains_eq_mem,
    decide_eq_false_iff_not]

/-- A deletion takes the entry out of the pending ones, where it is if it is not started. -/
def delete (x : α) (hx : x ∉ D.started) : DeletionQueue α where
  accepted := D.accepted
  deleted := D.deleted ++ [x]
  started := D.started
  pending := D.pending.erase x
  nodup := D.nodup
  spec := by
    have hf : D.accepted.filter (!(D.deleted ++ [x]).contains ·) =
        (D.accepted.filter (!D.deleted.contains ·)).erase x := by
      rw [(D.nodup.filter _).erase_eq_filter, List.filter_filter]
      refine List.filter_congr fun y _ => ?_
      by_cases h : y = x <;> simp [h]
    rw [hf, ← D.spec, List.erase_append_right _ hx]

/-! ## What a history says -/

theorem started_subset (h : x ∈ D.started) : x ∈ D.accepted :=
  (D.mem_started_or_pending.mp (.inl h)).1

/-- Every accepted entry is pending, deleted, or started once. -/
theorem exactlyOne (h : x ∈ D.accepted) :
    ExactlyOne (x ∈ D.pending) (x ∈ D.deleted) (D.started.count x = 1) := by
  have hn := List.nodup_append.mp D.nodup_started_pending
  have hm := D.mem_started_or_pending (x := x)
  by_cases hd : x ∈ D.deleted
  · have hnone : x ∉ D.started ∧ x ∉ D.pending :=
      ⟨fun hs => (hm.mp (.inl hs)).2 hd, fun hp => (hm.mp (.inr hp)).2 hd⟩
    refine .inr (.inl ⟨hnone.2, hd, ?_⟩)
    rw [List.count_eq_zero.mpr hnone.1]; nofun
  · rcases hm.mpr ⟨h, hd⟩ with hs | hp
    · refine .inr (.inr ⟨fun hp => hn.2.2 x hs x hp rfl, hd, ?_⟩)
      exact List.count_eq_one_of_mem hn.1 hs
    · refine .inl ⟨hp, hd, ?_⟩
      rw [List.count_eq_zero.mpr fun hs => hn.2.2 x hs x hp rfl]; nofun

end DeletionQueue

/-- Erasing commutes with a partial map that is injective at the erased element. -/
theorem List.filterMap_erase {α β : Type} [BEq α] [LawfulBEq α] [BEq β] [LawfulBEq β]
    {f : α → Option β} {l : List α} {a : α} {b : β} (ha : f a = some b)
    (hinj : ∀ x, f x = some b → x = a) :
    (l.erase a).filterMap f = (l.filterMap f).erase b := by
  rw [List.erase_eq_eraseP, List.erase_eq_eraseP, List.eraseP_filterMap]
  congr 1
  refine congrArg (fun p => List.eraseP p l) (funext fun x => ?_)
  cases hx : f x with
  | none =>
    have : a ≠ x := fun h => by rw [← h, ha] at hx; cases hx
    simpa using this
  | some y =>
    by_cases hax : a = x
    · rw [← hax, ha] at hx; cases hx; simp [hax]
    · have : b ≠ y := fun h => hax (hinj x (h ▸ hx)).symm
      simp [hax, this]
