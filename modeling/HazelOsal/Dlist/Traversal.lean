import HazelOsal.Dlist.Refinement

/-! # Loops that unlink nodes

`SYS_DLIST_FOR_EACH_NODE_SAFE` has read the next node before its body runs, so a body may unlink the
node it is given. -/

namespace HazelOsal.Dlist

open Links

variable {α : Type} [DecidableEq α]

section
variable {S : Type} {h : Links α} {F : Family α} {r : α} {l l₁ l₂ : List α} {rounds : Nat}
  {body : Links α × S → α → Option (Links α × S)} {s : Links α × S}

/-- **The rule of the safe loop**: `P l₁ l₂ s` where `l₁` is what is left of the nodes visited and
`l₂` is still to be visited. -/
theorem forEachNodeSafeFrom_rule {P : List α → List α → Links α × S → Prop}
    (hring : ∀ l₁ l₂ s, P l₁ l₂ s → s.1.Ring r (l₁ ++ l₂))
    (hbody : ∀ l₁ a l₂ s, P l₁ (a :: l₂) s → ∃ l₁' s', body s a = some s' ∧ P l₁' l₂ s')
    (hP : P l₁ l₂ s) (hrounds : l₂.length < rounds) :
    ∃ l' s', forEachNodeSafeFrom r body rounds l₂.head? (sysDlistPeekNext s.1 r l₂.head?) s =
      some s' ∧ P l' [] s' := by
  induction l₂ generalizing l₁ s rounds with
  | nil =>
    obtain ⟨rounds, rfl⟩ := Nat.exists_eq_succ_of_ne_zero (Nat.ne_of_gt hrounds)
    exact ⟨l₁, s, rfl, hP⟩
  | cons a l₂ ih =>
    obtain ⟨rounds, rfl⟩ := Nat.exists_eq_succ_of_ne_zero (Nat.ne_zero_of_lt hrounds)
    obtain ⟨l₁', s', hs', hP'⟩ := hbody l₁ a l₂ s hP
    obtain ⟨l', s'', hloop, hP''⟩ := ih hP' (Nat.lt_of_succ_lt_succ hrounds)
    refine ⟨l', s'', ?_, hP''⟩
    rw [List.head?_cons, sysDlistPeekNext_eq (hring _ _ _ hP), forEachNodeSafeFrom, hs']
    exact hloop

/-- A body that unlinks the nodes that `pick` picks, and keeps a record of its visits. -/
def removeBody (pick : α → Bool) (s : Links α × List α) (node : α) :
    Option (Links α × List α) :=
  (if pick node then sysDlistRemove s.1 node else some s.1).map fun h => (h, s.2 ++ [node])

/-- **A safe loop may unlink what it visits.** It visits every node once and in order, it ends, the
nodes it did not unlink stay in order, and those it did say that they are on no list. -/
theorem forEachNodeSafe_remove (pick : α → Bool) (hF : Represents h F)
    (hr : F.place r = .head l) (hrounds : l.length < rounds) :
    ∃ h' F', forEachNodeSafe r (removeBody pick) rounds (h, []) = some (h', l) ∧
      Represents h' F' ∧ F'.place r = .head (l.filter fun a => !pick a) ∧
      ∀ x, x ≠ r → F'.place x = if x ∈ l ∧ pick x then .unlinked else F.place x := by
  let P (l₁ l₂ : List α) (s : Links α × List α) : Prop :=
    ∃ F', Represents s.1 F' ∧ F'.place r = .head (l₁ ++ l₂) ∧ s.2 ++ l₂ = l ∧
      l₁ = s.2.filter (fun a => !pick a) ∧
      ∀ x, x ≠ r → F'.place x = if x ∈ s.2 ∧ pick x then .unlinked else F.place x
  have hP : P [] l (h, []) := ⟨F, hF, hr, rfl, rfl, fun x _ => by simp⟩
  have hbody (l₁ : List α) (a : α) (l₂ : List α) (s : Links α × List α) (hP : P l₁ (a :: l₂) s) :
      ∃ l₁' s', removeBody pick s a = some s' ∧ P l₁' l₂ s' := by
    obtain ⟨F', hF', hr', hl, rfl, hplace⟩ := hP
    rw [removeBody]
    cases ha : pick a with
    | false =>
      refine ⟨_, _, rfl, F', hF', ?_, ?_, rfl, fun x hx => ?_⟩
      · simpa [List.filter_append, ha] using hr'
      · simpa using hl
      · have hiff : x ∈ s.2 ++ [a] ∧ pick x = true ↔ x ∈ s.2 ∧ pick x = true := by
          rw [List.mem_append, List.mem_singleton]
          refine ⟨fun hx => ⟨hx.1.resolve_right ?_, hx.2⟩, fun hx => ⟨.inl hx.1, hx.2⟩⟩
          rintro rfl
          exact Bool.false_ne_true (ha.symm.trans hx.2)
        rw [hplace x hx, if_congr hiff rfl rfl]
    | true =>
      have hcut : s.2.filter (fun a => !pick a) ++ a :: l₂ =
          s.2.filter (fun a => !pick a) ++ [a] ++ l₂ := by rw [List.append_assoc]; rfl
      obtain ⟨hp, hn⟩ := neighbours hF' hr' hcut
      rw [if_pos rfl, sysDlistRemove_eq hp hn]
      refine ⟨_, _, rfl, F'.remove hr' hcut, hF'.remove hr' hcut, ?_, ?_, rfl, fun x hx => ?_⟩
      · simpa [List.filter_append, ha] using F'.remove_head hr' hcut
      · simpa using hl
      · rw [F'.remove_place hr' hcut hx, hplace x hx]
        by_cases hxa : x = a
        · rw [if_pos hxa, if_pos ⟨by simp [hxa], hxa ▸ ha⟩]
        · have hiff : x ∈ s.2 ++ [a] ∧ pick x = true ↔ x ∈ s.2 ∧ pick x = true := by
            simp [hxa]
          rw [if_neg hxa, if_congr hiff rfl rfl]
  have hring (l₁ l₂ : List α) (s : Links α × List α) (hP : P l₁ l₂ s) : s.1.Ring r (l₁ ++ l₂) := by
    obtain ⟨F', hF', hr', -⟩ := hP
    exact hF'.ring hr'
  have hhead : sysDlistPeekHead h r = l.head? := sysDlistPeekHead_eq (hF.ring hr)
  obtain ⟨l', ⟨h', seen⟩, hloop, F', hF', hr', hl, rfl, hplace⟩ :=
    forEachNodeSafeFrom_rule hring hbody hP hrounds
  rw [List.append_nil] at hr'
  obtain rfl : seen = l := by simpa using hl
  refine ⟨h', F', ?_, hF', hr', hplace⟩
  rw [forEachNodeSafe, hhead]
  exact hloop

end

/-- A loop that unlinks the odd nodes. -/
theorem forEachNodeSafe_remove_odd : ∃ h h' : Links Nat,
    forEachNodeSafe 0 (removeBody fun a => a % 2 = 1) 4 (h, []) = some (h', [1, 2, 3]) ∧
      sysDlistPeekHead h' 0 = some 2 := by
  have hs : Steps .loose _ _ :=
    .cons (.init (r := 0) (.free .loose)) <|
      .cons (.append (r := 0) (a := 1) (l := []) rfl .loose) <|
      .cons (.append (r := 0) (a := 2) (l := [1]) rfl .loose) <|
      .cons (.append (r := 0) (a := 3) (l := [1, 2]) rfl .loose) .nil
  obtain ⟨h, -, hF⟩ := hs.exec (represents_loose (h := ⟨fun _ => none, fun _ => none⟩))
  obtain ⟨h', F', hloop, hF', hr, -⟩ :=
    forEachNodeSafe_remove (fun a => a % 2 = 1) hF (r := 0) (l := [1, 2, 3]) rfl
      (show 3 < 4 by decide)
  exact ⟨h, h', hloop, sysDlistPeekHead_eq (hF'.ring hr)⟩

end HazelOsal.Dlist
