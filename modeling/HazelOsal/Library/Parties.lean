import Mathlib.Data.Finset.Card

/-! # Counting parties

Parties are those of any type that satisfy a predicate; there may be infinitely many of them, so
they are counted by finite sets. `AtMost p n` bounds their number. `Covers count giver n` is the
accounting rule for a counter that is raised later than the update it announces: the count, and one
for each party that is still to raise it, are at least `n`. -/

section AtMost

variable {C : Type} {p p' : C → Prop} {n n' : Nat} {c : C}

/-- No more than `n` parties satisfy `p`. -/
def AtMost (p : C → Prop) (n : Nat) : Prop := ∀ F : Finset C, (∀ c ∈ F, p c) → F.card ≤ n

theorem AtMost.zero (h : ∀ c, ¬ p c) : AtMost p 0 := by
  intro F hF
  have : F = ∅ := Finset.eq_empty_of_forall_notMem fun c hc => h c (hF c hc)
  rw [this, Finset.card_empty]

theorem AtMost.mono (h : AtMost p n) (hn : n ≤ n') (hp : ∀ c, p' c → p c) : AtMost p' n' :=
  fun F hF => (h F fun c hc => hp c (hF c hc)).trans hn

theorem AtMost.pos (h : AtMost p n) (hc : p c) : 0 < n := by
  have := h {c} fun d hd => by rw [Finset.mem_singleton.mp hd]; exact hc
  rwa [Finset.card_singleton] at this

variable [DecidableEq C]

/-- One more party may join. -/
theorem AtMost.join (h : AtMost p n) (hp : ∀ d, d ≠ c → p' d → p d) : AtMost p' (n + 1) := by
  intro F hF
  have hle := h (F.erase c) fun d hd =>
    hp d (Finset.ne_of_mem_erase hd) (hF d (Finset.mem_of_mem_erase hd))
  have := @Finset.pred_card_le_card_erase _ F c _
  omega

/-- A party that leaves makes room. -/
theorem AtMost.leave (h : AtMost p (n + 1)) (hc : p c) (hc' : ¬ p' c) (hp : ∀ d, p' d → p d) :
    AtMost p' n := by
  intro F hF
  have hcF : c ∉ F := fun hmem => hc' (hF c hmem)
  have hle := h (insert c F) fun d hd => by
    rcases Finset.mem_insert.mp hd with rfl | hd
    · exact hc
    · exact hp d (hF d hd)
  rw [Finset.card_insert_of_notMem hcF] at hle
  omega

/-! ### Parties that are in a phase -/

variable {A : Type} {phase : C → Option A}

/-- A party that is in a phase may change it. -/
theorem AtMost.update (h : AtMost (fun d => phase d ≠ none) n) (hc : phase c ≠ none)
    (a : Option A) : AtMost (fun d => Function.update phase c a d ≠ none) n := by
  refine h.mono (Nat.le_refl _) fun d hd => ?_
  rw [Function.update_apply] at hd
  split at hd
  case isTrue he => rwa [he]
  case isFalse => exact hd

theorem AtMost.enter (h : AtMost (fun d => phase d ≠ none) n) (a : Option A) :
    AtMost (fun d => Function.update phase c a d ≠ none) (n + 1) := by
  refine h.join (c := c) fun d hd hp => ?_
  rwa [Function.update_of_ne hd] at hp

theorem AtMost.exit (h : AtMost (fun d => phase d ≠ none) n) (hc : phase c ≠ none) :
    ∃ n', n = n' + 1 ∧ AtMost (fun d => Function.update phase c none d ≠ none) n' := by
  obtain ⟨n', rfl⟩ := Nat.exists_eq_succ_of_ne_zero (Nat.ne_of_gt (h.pos hc))
  refine ⟨n', rfl, h.leave hc (fun hn => hn (Function.update_self ..)) fun d hd => ?_⟩
  rw [Function.update_apply] at hd
  split at hd
  · exact absurd rfl hd
  · exact hd

end AtMost

section Covers

variable {C : Type} {giver giver' : C → Prop} {count count' n n' : Nat} {c : C}

/-- The tokens, and the gives still to come from `giver`s, are at least `n`. -/
def Covers (count : Nat) (giver : C → Prop) (n : Nat) : Prop :=
  ∃ F : Finset C, (∀ c ∈ F, giver c) ∧ n ≤ count + F.card

theorem Covers.of_le (h : n ≤ count) : Covers count giver n := ⟨∅, by simp, by simpa using h⟩

theorem Covers.mono (h : Covers count giver n) (hc : count ≤ count') (hn : n' ≤ n)
    (hg : ∀ c, giver c → giver' c) : Covers count' giver' n' :=
  let ⟨F, hF, hle⟩ := h
  ⟨F, fun c hc => hg c (hF c hc), by omega⟩

theorem Covers.le_of_no_giver (h : Covers count giver n) (hg : ∀ c, ¬ giver c) : n ≤ count := by
  obtain ⟨F, hF, hle⟩ := h
  have : F = ∅ := Finset.eq_empty_of_forall_notMem fun c hc => hg c (hF c hc)
  simpa [this] using hle

variable [DecidableEq C]

/-- A new giver covers one more. -/
theorem Covers.newGiver (h : Covers count giver n) (hnew : ¬ giver c) (hc : giver' c)
    (hg : ∀ d, d ≠ c → giver d → giver' d) : Covers count giver' (n + 1) := by
  obtain ⟨F, hF, hle⟩ := h
  have hcF : c ∉ F := fun hc => hnew (hF c hc)
  refine ⟨insert c F, fun d hd => ?_, by rw [Finset.card_insert_of_notMem hcF]; omega⟩
  rcases Finset.mem_insert.mp hd with rfl | hd
  · exact hc
  · exact hg d (fun h => hcF (h ▸ hd)) (hF d hd)

/-- A giver that carries out its give turns its cover into a token. -/
theorem Covers.give (h : Covers count giver n) (hg : ∀ d, d ≠ c → giver d → giver' d) :
    Covers (count + 1) giver' n := by
  obtain ⟨F, hF, hle⟩ := h
  refine ⟨F.erase c, fun d hd => ?_, ?_⟩
  · exact hg d (Finset.ne_of_mem_erase hd) (hF d (Finset.mem_of_mem_erase hd))
  · have := @Finset.pred_card_le_card_erase _ F c _
    omega

omit [DecidableEq C] in
/-- A token meets a demand. -/
theorem Covers.use (h : Covers (count + 1) giver n) : Covers count giver (n - 1) :=
  let ⟨F, hF, hle⟩ := h
  ⟨F, hF, by omega⟩

/-- A party that takes a token stands for it. -/
theorem Covers.take (h : Covers (count + 1) giver n) (hnew : ¬ giver c) (hc : giver' c)
    (hg : ∀ d, d ≠ c → giver d → giver' d) : Covers count giver' n :=
  (h.newGiver hnew hc hg).use

/-- A party that stands for a token meets a demand. -/
theorem Covers.leave (h : Covers count giver n) (hg : ∀ d, d ≠ c → giver d → giver' d) :
    Covers count giver' (n - 1) :=
  (h.give hg).use

end Covers

section Conserved

variable {C A : Type} [DecidableEq C] {p p' : C → Prop} {n count total : Nat} {c : C}

/-- Exactly `n` parties satisfy `p`. -/
def Exactly (p : C → Prop) (n : Nat) : Prop := ∃ F : Finset C, (∀ c, c ∈ F ↔ p c) ∧ F.card = n

omit [DecidableEq C] in
theorem Exactly.zero (h : ∀ c, ¬ p c) : Exactly p 0 :=
  ⟨∅, fun c => iff_of_false (Finset.notMem_empty c) (h c), Finset.card_empty⟩

omit [DecidableEq C] in
theorem Exactly.congr (h : Exactly p n) (hp : ∀ d, p' d ↔ p d) : Exactly p' n :=
  let ⟨F, hF, hn⟩ := h
  ⟨F, fun d => (hF d).trans (hp d).symm, hn⟩

theorem Exactly.join (h : Exactly p n) (hc : ¬ p c) (hp : ∀ d, p' d ↔ d = c ∨ p d) :
    Exactly p' (n + 1) := by
  obtain ⟨F, hF, rfl⟩ := h
  have hcF : c ∉ F := fun hmem => hc ((hF c).mp hmem)
  refine ⟨insert c F, fun d => ?_, Finset.card_insert_of_notMem hcF⟩
  rw [Finset.mem_insert, hF, hp]

theorem Exactly.leave (h : Exactly p n) (hc : p c) (hp : ∀ d, p' d ↔ d ≠ c ∧ p d) :
    ∃ n', n = n' + 1 ∧ Exactly p' n' := by
  obtain ⟨F, hF, rfl⟩ := h
  have hcF : c ∈ F := (hF c).mpr hc
  refine ⟨(F.erase c).card, (Finset.card_erase_add_one hcF).symm, F.erase c, fun d => ?_, rfl⟩
  rw [Finset.mem_erase, hF, hp]

/-! ### Parties that hold a token

`held` is the token that a party holds, of the kinds `A`. The tokens of kind `a` that nobody holds
are `count`, and there are `total` of them. -/

variable {held : C → Option A} {a : A} {b : Option A}

/-- The tokens, and those that parties hold, are `total`. -/
def Conserved (count : Nat) (held : C → Option A) (a : A) (total : Nat) : Prop :=
  ∃ n, Exactly (fun c => held c = some a) n ∧ count + n = total

namespace Conserved

omit [DecidableEq C] in
theorem of_none (h : ∀ c, held c ≠ some a) : Conserved count held a count :=
  ⟨0, .zero h, Nat.add_zero count⟩

omit [DecidableEq C] in
theorem le (h : Conserved count held a total) : count ≤ total :=
  let ⟨_, _, hn⟩ := h
  Nat.le.intro hn

/-- A token that somebody holds is not among the others. -/
theorem lt (h : Conserved count held a total) (hc : held c = some a) : count < total := by
  obtain ⟨n, hn, rfl⟩ := h
  have hleave : ∃ n', n = n' + 1 ∧ Exactly (fun d => d ≠ c ∧ held d = some a) n' :=
    hn.leave hc fun _ => Iff.rfl
  obtain ⟨n', rfl, -⟩ := hleave
  omega

private theorem join_iff (d : C) :
    Function.update held c (some a) d = some a ↔ d = c ∨ held d = some a := by
  rw [Function.update_apply]
  split
  case isTrue he => simp [he]
  case isFalse he => simp [he]

private theorem leave_iff (hb : b ≠ some a) (d : C) :
    Function.update held c b d = some a ↔ d ≠ c ∧ held d = some a := by
  rw [Function.update_apply]
  split
  case isTrue he => simp [he, hb]
  case isFalse he => simp [he]

/-- A party takes one of the tokens. -/
theorem take (h : Conserved (count + 1) held a total) (hc : held c ≠ some a) :
    Conserved count (Function.update held c (some a)) a total :=
  let ⟨n, hn, ht⟩ := h
  ⟨n + 1, hn.join hc join_iff, by omega⟩

/-- A party gives its token back. -/
theorem give (h : Conserved count held a total) (hc : held c = some a) (hb : b ≠ some a) :
    Conserved (count + 1) (Function.update held c b) a total := by
  obtain ⟨n, hn, rfl⟩ := h
  obtain ⟨n', rfl, hn'⟩ := hn.leave hc (leave_iff hb)
  exact ⟨n', hn', by omega⟩

/-- A party makes a new token. -/
theorem make (h : Conserved count held a total) (hc : held c ≠ some a) :
    Conserved count (Function.update held c (some a)) a (total + 1) :=
  let ⟨n, hn, ht⟩ := h
  ⟨n + 1, hn.join hc join_iff, by omega⟩

omit [DecidableEq C] in
/-- A new token that nobody holds. -/
theorem add (h : Conserved count held a total) : Conserved (count + 1) held a (total + 1) :=
  let ⟨n, hn, ht⟩ := h
  ⟨n, hn, by omega⟩

omit [DecidableEq C] in
/-- Where nobody holds a token, all of them are counted. -/
theorem eq_of_none (h : Conserved count held a total) (hn : ∀ c, held c ≠ some a) :
    count = total := by
  obtain ⟨n, ⟨F, hF, rfl⟩, ht⟩ := h
  have hempty : F = ∅ := Finset.eq_empty_of_forall_notMem fun c hc => hn c ((hF c).mp hc)
  rwa [hempty] at ht

/-- A party uses its token up. -/
theorem use (h : Conserved count held a total) (hc : held c = some a) (hb : b ≠ some a) :
    Conserved count (Function.update held c b) a (total - 1) := by
  obtain ⟨n, hn, rfl⟩ := h
  obtain ⟨n', rfl, hn'⟩ := hn.leave hc (leave_iff hb)
  exact ⟨n', hn', by omega⟩

/-- A party that neither has nor gets a token of this kind. -/
theorem other (h : Conserved count held a total) (hc : held c ≠ some a) (hb : b ≠ some a) :
    Conserved count (Function.update held c b) a total := by
  obtain ⟨n, hn, ht⟩ := h
  refine ⟨n, hn.congr fun d => (leave_iff hb d).trans ?_, ht⟩
  exact and_iff_right_of_imp fun hd he => hc (he ▸ hd)

end Conserved

end Conserved
