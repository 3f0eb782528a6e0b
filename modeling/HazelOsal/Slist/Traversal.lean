import HazelOsal.Slist.Refinement

/-! # Loops that remove nodes

`SYS_SLIST_FOR_EACH_NODE_SAFE` has read the next node before its body runs, so a body may remove the
node it is given. `sys_slist_remove` asks for the node before it: the last one that has stayed. -/

namespace HazelOsal.Slist

open SinglyLinks

variable {K α : Type} [DecidableEq K] [DecidableEq α]

section
variable {h : SinglyLinks K α} {k : K} {l l₁ l₂ : List α}

/-- The body of a loop that removes the nodes of which `drop` holds, each behind the last one that
stays. -/
def dropBody (k : K) (drop : α → Bool) (s : SinglyLinks K α × Option α) (node : α) :
    SinglyLinks K α × Option α :=
  if drop node then (sysSlistRemove s.1 k s.2 node, s.2) else (s.1, some node)

/-- The loop has passed the nodes of which `l₁` are left. -/
theorem forEachNodeSafeFrom_eq (drop : α → Bool) (hl : h.Holds k (l₁ ++ l₂)) :
    ∃ h', (∀ rounds, l₂.length < rounds →
        forEachNodeSafeFrom (dropBody k drop) rounds l₂.head? (sysSlistPeekNext h l₂.head?)
          (h, l₁.getLast?) = some (h', (l₁ ++ l₂.filter fun a => !drop a).getLast?)) ∧
      h'.Holds k (l₁ ++ l₂.filter fun a => !drop a) ∧ Frame h h' k (l₁ ++ l₂) := by
  induction l₂ generalizing h l₁ with
  | nil =>
    refine ⟨h, fun rounds hrounds => ?_, hl, frame_refl⟩
    obtain ⟨rounds, rfl⟩ := Nat.exists_eq_succ_of_ne_zero (Nat.ne_of_gt hrounds)
    simp [forEachNodeSafeFrom]
  | cons b l₂ ih =>
    have hnext : sysSlistPeekNext h (some b) = l₂.head? := hl.next_eq
    cases hb : drop b with
    | true =>
      obtain ⟨hl', hf⟩ := sysSlistRemove_eq hl
      obtain ⟨h', hloop, hholds, hf'⟩ := ih hl'
      have hsub : l₁ ++ l₂ ⊆ l₁ ++ b :: l₂ :=
        ((List.sublist_cons_self b l₂).append_left l₁).subset
      rw [List.filter_cons_of_neg (by simp [hb])]
      refine ⟨h', fun rounds hrounds => ?_, hholds, frame_trans hf (frame_mono hf' hsub)⟩
      obtain ⟨rounds, rfl⟩ := Nat.exists_eq_succ_of_ne_zero (Nat.ne_zero_of_lt hrounds)
      rw [List.head?_cons, forEachNodeSafeFrom, hnext, dropBody, hb]
      exact hloop rounds (Nat.lt_of_succ_lt_succ hrounds)
    | false =>
      have hl' : h.Holds k (l₁ ++ [b] ++ l₂) := by rwa [List.append_assoc]
      obtain ⟨h', hloop, hholds, hf⟩ := ih hl'
      rw [List.filter_cons_of_pos (by simp [hb])]
      simp only [List.append_assoc, List.singleton_append] at hloop hholds hf
      refine ⟨h', fun rounds hrounds => ?_, hholds, hf⟩
      obtain ⟨rounds, rfl⟩ := Nat.exists_eq_succ_of_ne_zero (Nat.ne_zero_of_lt hrounds)
      have hloop := hloop rounds (Nat.lt_of_succ_lt_succ hrounds)
      rw [List.getLast?_concat] at hloop
      rw [List.head?_cons, forEachNodeSafeFrom, hnext, dropBody, hb]
      exact hloop

/-- **A loop that removes nodes as it goes** ends. The nodes of which `drop` holds have left the
list, the others are still there in order, and no other list has changed. -/
theorem forEachNodeSafe_drop {F : Lists K α} (hF : Represents h F) (hk : F k = some l)
    (drop : α → Bool) :
    ∃ h', (∀ rounds, l.length < rounds → forEachNodeSafe k (dropBody k drop) rounds (h, none) =
        some (h', (l.filter fun a => !drop a).getLast?)) ∧
      Represents h' (Function.update F k (some (l.filter fun a => !drop a))) := by
  have hl : h.Holds k ([] ++ l) := hF.holds hk
  obtain ⟨h', hloop, hl', hf⟩ := forEachNodeSafeFrom_eq drop hl
  refine ⟨h', fun rounds hrounds => ?_, hF.relist hk hf (fun x hx => .inl hx) hl'
    fun x hx => .inl (List.mem_of_mem_filter hx)⟩
  rw [forEachNodeSafe, sysSlistPeekHead, (hF.holds hk).head]
  exact hloop rounds hrounds

end

/-- Of the nodes 1, 2 and 3 the odd ones are removed. -/
theorem forEachNodeSafe_drop_odd : ∃ h h' : SinglyLinks Bool Nat, ∃ F, Represents h' F ∧
    forEachNodeSafe false (dropBody false (· % 2 = 1)) 4 (h, none) = some (h', some 2) ∧
    F false = some [2] := by
  let h : SinglyLinks Bool Nat :=
    ⟨fun a => if a < 3 then some (a + 1) else none, fun _ => some 1, fun _ => some 3⟩
  have hl : h.Holds false [1, 2, 3] := ⟨⟨rfl, rfl, rfl, rfl⟩, rfl, by decide⟩
  have hF : Represents h (Function.update (fun _ => none) false (some [1, 2, 3])) :=
    SinglyLinks.Represents.empty.update (S := []) frame_refl (by simp) hl fun _ _ => nofun
  obtain ⟨h', hloop, hF'⟩ := forEachNodeSafe_drop hF (Function.update_self ..) (· % 2 = 1)
  exact ⟨h, h', _, hF', hloop 4 (by decide), rfl⟩

end HazelOsal.Slist
