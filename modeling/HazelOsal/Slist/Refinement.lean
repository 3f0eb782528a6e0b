import HazelOsal.Library.Calls
import HazelOsal.Slist.Operations

/-! # Calls on disjoint lists

What each function of `slist.h` does to the lists, under its contract: `Step F c v F'`. A node that
joins a list is on none, the node before the one that is inserted or removed is the right one, and a
list is appended to another one only. The links then follow: no null pointer is followed, the
returned value is right, and the lists stay what they should be. -/

namespace HazelOsal.Slist

open SinglyLinks

variable {K α : Type} [DecidableEq K] [DecidableEq α]

section
variable {h h₁ h₂ : SinglyLinks K α} {k : K} {S l m l₁ l₂ : List α} {a b : α} {v : Option α}

/-! ## Frames -/

omit [DecidableEq K] [DecidableEq α] in
theorem frame_trans (hf : Frame h h₁ k S) (hf' : Frame h₁ h₂ k S) : Frame h h₂ k S where
  head k' hk := (hf'.head k' hk).trans (hf.head k' hk)
  tail k' hk := (hf'.tail k' hk).trans (hf.tail k' hk)
  next a ha := (hf'.next a ha).trans (hf.next a ha)

omit [DecidableEq K] [DecidableEq α] in
theorem frame_refl : Frame h h k S := ⟨fun _ _ => rfl, fun _ _ => rfl, fun _ _ => rfl⟩

omit [DecidableEq K] [DecidableEq α] in
theorem frame_mono {S' : List α} (hf : Frame h h₁ k S) (hS : S ⊆ S') : Frame h h₁ k S' :=
  ⟨hf.head, hf.tail, fun a ha => hf.next a fun hm => ha (hS hm)⟩

omit [DecidableEq K] in
theorem frame_nextSet (ha : a ∈ S) : Frame h (nextSet h a v) k S where
  head _ _ := rfl
  tail _ _ := rfl
  next b hb := Function.update_of_ne (fun (he : b = a) => hb (he ▸ ha)) ..

omit [DecidableEq α] in
theorem frame_headSet : Frame h (headSet h k v) k S where
  head _ hk := Function.update_of_ne hk ..
  tail _ _ := rfl
  next _ _ := rfl

omit [DecidableEq α] in
theorem frame_tailSet : Frame h (tailSet h k v) k S where
  head _ _ := rfl
  tail _ hk := Function.update_of_ne hk ..
  next _ _ := rfl

/-! ## The functions on their list -/

omit [DecidableEq α] in
theorem sysSlistInit_holds : (sysSlistInit h k).Holds k [] := by
  refine ⟨?_, Function.update_self .., List.nodup_nil⟩
  exact Function.update_self k none h.head

omit [DecidableEq α] in
theorem sysSlistInit_frame : Frame h (sysSlistInit h k) k S :=
  frame_trans frame_headSet frame_tailSet

theorem sysSlistPrepend_holds (hl : h.Holds k l) (ha : a ∉ l) :
    (sysSlistPrepend h k a).Holds k (a :: l) := by
  have hseg : Segment (Function.update h.next a (h.head k)) (some a) (a :: l) none := by
    refine ⟨rfl, ?_⟩
    rw [Function.update_self]
    exact hl.segment.not_mem_update ha
  have htail : h.tail k = none ↔ l = [] := hl.tail_eq_none
  rw [sysSlistPrepend]
  split
  case isTrue hnone =>
    obtain rfl := htail.mp (Option.isNone_iff_eq_none.mp hnone)
    constructor
    · simpa [headSet, tailSet, nextSet, sysSlistPeekHead] using hseg
    · simp [headSet, tailSet, nextSet, sysSlistPeekHead]
    · exact List.nodup_singleton a
  case isFalse hsome =>
    have hne : l ≠ [] := fun he => hsome (Option.isNone_iff_eq_none.mpr (htail.mpr he))
    constructor
    · simpa [headSet, nextSet, sysSlistPeekHead] using hseg
    · rw [List.getLast?_cons_of_ne_nil hne]
      exact hl.tail
    · exact List.nodup_cons.mpr ⟨ha, hl.nodup⟩

theorem sysSlistPrepend_frame (ha : a ∈ S) : Frame h (sysSlistPrepend h k a) k S := by
  rw [sysSlistPrepend]
  have hf := frame_trans (frame_nextSet (h := h) (k := k) (v := sysSlistPeekHead h k) ha)
    (frame_headSet (v := some a))
  split
  case isTrue => exact frame_trans hf frame_tailSet
  case isFalse => exact hf

/-- A chain of nodes, from the head to the tail that the caller passes, is added at the end. -/
theorem sysSlistAppendList_holds (hl : h.Holds k l) (hm : Segment h.next m.head? m none)
    (hnodup : (l ++ m).Nodup) : (sysSlistAppendList h k m.head? m.getLast?).Holds k (l ++ m) := by
  cases m with
  | nil => rwa [List.append_nil]
  | cons x m =>
    obtain ⟨y, hy⟩ := Option.ne_none_iff_exists'.mp (List.getLast?_eq_none_iff.not.mpr
      (List.cons_ne_nil x m))
    rw [hy, List.head?_cons, sysSlistAppendList]
    rcases List.eq_nil_or_concat l with rfl | ⟨l, b, rfl⟩
    · have htail : sysSlistPeekTail h k = none := hl.tail
      simp only [htail]
      constructor
      · simpa [headSet, tailSet] using hm
      · simpa [headSet, tailSet] using hy.symm
      · exact hnodup
    · rw [List.concat_eq_append] at hl hnodup ⊢
      have htail : sysSlistPeekTail h k = some b := hl.tail.trans List.getLast?_concat
      have hb : b ∉ l := by
        have h := (List.nodup_append.mp hl.nodup).2.2
        exact fun hb => h b hb b (List.mem_singleton_self b) rfl
      have hbm : b ∉ x :: m := fun hbm =>
        (List.nodup_append.mp hnodup).2.2 b (List.mem_append_right l (List.mem_singleton_self b)) b
          hbm rfl
      obtain ⟨hseg, -⟩ := Segment.append_iff.mp hl.segment
      simp only [htail]
      constructor
      · refine Segment.append_iff.mpr ⟨Segment.append_iff.mpr ⟨hseg.not_mem_update hb, rfl, ?_⟩, ?_⟩
        · exact Function.update_self ..
        · exact hm.not_mem_update hbm
      · rw [List.getLast?_append_of_ne_nil _ (List.cons_ne_nil x m), hy]
        exact Function.update_self ..
      · exact hnodup

theorem sysSlistAppendList_frame {p q : Option α} (hl : h.Holds k l) (hS : ∀ x ∈ l, x ∈ S) :
    Frame h (sysSlistAppendList h k p q) k S := by
  unfold sysSlistAppendList
  split
  case h_2 => exact frame_refl
  case h_1 =>
    refine frame_trans ?_ frame_tailSet
    split
    case h_1 => exact frame_headSet
    case h_2 last hlast =>
      exact frame_nextSet (hS last (List.mem_of_getLast? (hl.tail.symm.trans hlast)))

/-- To append a node is to append it as a chain of one. -/
theorem sysSlistAppend_eq :
    sysSlistAppend h k a = sysSlistAppendList (nextSet h a none) k (some a) (some a) := by
  simp only [sysSlistAppend, sysSlistAppendList]
  cases sysSlistPeekTail (nextSet h a none) k <;> rfl

theorem sysSlistAppend_holds (hl : h.Holds k l) (ha : a ∉ l) :
    (sysSlistAppend h k a).Holds k (l ++ [a]) := by
  have hl' : (nextSet h a none).Holds k l := ⟨hl.segment.not_mem_update ha, hl.tail, hl.nodup⟩
  have hm : Segment (nextSet h a none).next (some a) [a] none := ⟨rfl, Function.update_self ..⟩
  rw [sysSlistAppend_eq]
  refine sysSlistAppendList_holds (m := [a]) hl' hm (List.nodup_append.mpr ⟨hl.nodup,
    List.nodup_singleton a, fun x hx y hy => ?_⟩)
  rintro rfl
  exact ha (List.mem_singleton.mp hy ▸ hx)

theorem sysSlistAppend_frame (hl : h.Holds k l) (hS : ∀ x ∈ l, x ∈ S) (ha : a ∈ S) (hal : a ∉ l) :
    Frame h (sysSlistAppend h k a) k S := by
  have hl' : (nextSet h a none).Holds k l := ⟨hl.segment.not_mem_update hal, hl.tail, hl.nodup⟩
  rw [sysSlistAppend_eq]
  exact frame_trans (frame_nextSet ha) (sysSlistAppendList_frame hl' hS)

theorem sysSlistInsert_holds (hl : h.Holds k (l₁ ++ b :: l₂)) (ha : a ∉ l₁ ++ b :: l₂) :
    (sysSlistInsert h k (some b) a).Holds k (l₁ ++ b :: a :: l₂) := by
  have hnext : h.next b = l₂.head? := hl.next_eq
  simp only [sysSlistInsert, hnext]
  split
  case isTrue hnone =>
    obtain rfl := List.head?_eq_none_iff.mp (Option.isNone_iff_eq_none.mp hnone)
    have happend := sysSlistAppend_holds hl ha
    rwa [List.append_assoc] at happend
  case isFalse =>
    obtain ⟨hseg₁, -, hseg₂⟩ := Segment.append_iff.mp hl.segment
    rw [hnext] at hseg₂
    have hb := (List.nodup_middle.mp hl.nodup).notMem
    simp only [List.mem_append, List.mem_cons, not_or] at ha hb
    have hnodup : (l₁ ++ [b] ++ a :: l₂).Nodup := by
      refine List.nodup_middle.mpr (List.nodup_cons.mpr ⟨by simp [ha], ?_⟩)
      rw [List.append_assoc]
      exact hl.nodup
    have hseg : Segment (Function.update (Function.update h.next a l₂.head?) b (some a)) (h.head k)
        (l₁ ++ b :: a :: l₂) none := by
      refine Segment.append_iff.mpr ⟨(hseg₁.not_mem_update ha.1).not_mem_update hb.1, rfl,
        Function.update_self .., ?_⟩
      rw [Function.update_of_ne ha.2.1, Function.update_self]
      exact (hseg₂.not_mem_update ha.2.2).not_mem_update hb.2
    refine ⟨hseg, ?_, by rwa [List.append_assoc] at hnodup⟩
    cases l₂ with
    | nil => exact absurd rfl ‹_›
    | cons c l₂ => exact hl.tail.trans (by simp)

/-- The head is taken off the list. -/
theorem pop_holds (hl : h.Holds k (a :: l)) (hh : h₁ = headSet h k (h.next a)) :
    (if sysSlistPeekTail h₁ k = some a then tailSet h₁ k (sysSlistPeekHead h₁ k) else h₁).Holds k
      l := by
  obtain ⟨ha, hnodup⟩ := List.nodup_cons.mp hl.nodup
  have hhead : h₁.head k = h.next a := hh ▸ Function.update_self ..
  have htail : h₁.tail k = (a :: l).getLast? := by rw [hh]; exact hl.tail
  have hseg : Segment h₁.next (h₁.head k) l none := by
    rw [hhead, hh]
    exact hl.segment.2
  split
  case isTrue hlast =>
    -- a last node other than the first one would be there twice
    have hnil : l = [] := by
      cases l with
      | nil => rfl
      | cons b l =>
        rw [sysSlistPeekTail, htail, List.getLast?_cons_cons] at hlast
        exact absurd (List.mem_of_getLast? hlast) ha
    subst hnil
    exact ⟨hseg, (Function.update_self ..).trans hseg, hnodup⟩
  case isFalse hlast =>
    have hne : l ≠ [] := fun he => hlast (by rw [sysSlistPeekTail, htail, he]; rfl)
    exact ⟨hseg, by rw [htail, List.getLast?_cons_of_ne_nil hne], hnodup⟩

omit [DecidableEq α] in
theorem pop_frame {P : Prop} [Decidable P] :
    Frame h (if P then tailSet (headSet h k v) k (sysSlistPeekHead (headSet h k v) k)
      else headSet h k v) k S := by
  split
  case isTrue => exact frame_trans frame_headSet frame_tailSet
  case isFalse => exact frame_headSet

theorem sysSlistRemove_head (hl : h.Holds k (a :: l)) :
    (sysSlistRemove h k none a).Holds k l := by
  have hpop := pop_holds hl rfl
  exact ⟨hpop.segment.not_mem_update (List.nodup_cons.mp hl.nodup).1, hpop.tail, hpop.nodup⟩

theorem sysSlistRemove_holds (hl : h.Holds k (l₁ ++ b :: a :: l₂)) :
    (sysSlistRemove h k (some b) a).Holds k (l₁ ++ b :: l₂) := by
  have hl' : h.Holds k (l₁ ++ [b] ++ a :: l₂) := by rwa [List.append_assoc]
  obtain ⟨ha, hnodup⟩ := List.nodup_cons.mp (List.nodup_middle.mp hl'.nodup)
  rw [List.append_assoc] at hnodup
  have hb := (List.nodup_middle.mp hnodup).notMem
  simp only [List.mem_append, List.mem_singleton, not_or] at ha hb
  have hnext : h.next a = l₂.head? := hl'.next_eq
  obtain ⟨hseg₁, -, -, hseg₂⟩ := Segment.append_iff.mp hl.segment
  rw [hnext] at hseg₂
  have hseg : Segment (Function.update (Function.update h.next b l₂.head?) a none) (h.head k)
      (l₁ ++ b :: l₂) none := by
    refine Segment.append_iff.mpr ⟨(hseg₁.not_mem_update hb.1).not_mem_update ha.1.1, rfl, ?_⟩
    rw [Function.update_of_ne (Ne.symm ha.1.2), Function.update_self]
    exact (hseg₂.not_mem_update hb.2).not_mem_update ha.2
  have htail : h.tail k = (a :: l₂).getLast? :=
    hl'.tail.trans (List.getLast?_append_of_ne_nil _ (List.cons_ne_nil a l₂))
  simp only [sysSlistRemove, hnext]
  split
  case isTrue hlast =>
    have hnil : l₂ = [] := by
      cases l₂ with
      | nil => rfl
      | cons c l₂ =>
        rw [List.getLast?_cons_cons] at htail
        exact absurd (List.mem_of_getLast? (htail.symm.trans hlast)) ha.2
    subst hnil
    exact ⟨hseg, (Function.update_self ..).trans (by simp), hnodup⟩
  case isFalse hlast =>
    cases l₂ with
    | nil => exact absurd htail hlast
    | cons c l₂ =>
      refine ⟨hseg, htail.trans ?_, hnodup⟩
      rw [List.getLast?_append_of_ne_nil _ (List.cons_ne_nil b _), List.getLast?_cons_cons,
        List.getLast?_cons_cons]

theorem sysSlistRemove_frame {p : Option α} (ha : a ∈ S) (hp : ∀ b, p = some b → b ∈ S) :
    Frame h (sysSlistRemove h k p a) k S := by
  unfold sysSlistRemove
  refine frame_trans ?_ (frame_nextSet ha)
  cases p with
  | none => exact pop_frame
  | some b =>
    have hf : Frame h (nextSet h b (h.next a)) k S := frame_nextSet (hp b rfl)
    simp only []
    split
    case isTrue => exact frame_trans hf frame_tailSet
    case isFalse => exact hf

theorem sysSlistInsert_frame (hl : h.Holds k l) (hS : ∀ x ∈ l, x ∈ S) (ha : a ∈ S) (hal : a ∉ l)
    (hb : b ∈ S) : Frame h (sysSlistInsert h k (some b) a) k S := by
  simp only [sysSlistInsert]
  split
  case isTrue => exact sysSlistAppend_frame hl hS ha hal
  case isFalse => exact frame_trans (frame_nextSet ha) (frame_nextSet hb)

/-! ## The loops -/

omit [DecidableEq K] [DecidableEq α] in
/-- **A loop visits the nodes of its list in order**, and ends. -/
theorem forEachNodeFrom_eq {T : Type} {body : T → α → T} {rounds : Nat} {s : T}
    (hl : Segment h.next v l none) (hrounds : l.length < rounds) :
    forEachNodeFrom h body rounds v s = some (l.foldl body s) := by
  induction l generalizing v rounds s with
  | nil =>
    obtain ⟨rounds, rfl⟩ := Nat.exists_eq_succ_of_ne_zero (Nat.ne_of_gt hrounds)
    obtain rfl : v = none := hl
    rfl
  | cons a l ih =>
    obtain ⟨rounds, rfl⟩ := Nat.exists_eq_succ_of_ne_zero (Nat.ne_zero_of_lt hrounds)
    obtain ⟨rfl, hl⟩ := hl
    exact ih hl (Nat.lt_of_succ_lt_succ hrounds)

/-- A node is removed behind the one before it, or as the head. -/
theorem sysSlistRemove_eq (hl : h.Holds k (l₁ ++ a :: l₂)) :
    (sysSlistRemove h k l₁.getLast? a).Holds k (l₁ ++ l₂) ∧
      Frame h (sysSlistRemove h k l₁.getLast? a) k (l₁ ++ a :: l₂) := by
  have hmem : a ∈ l₁ ++ a :: l₂ := List.mem_append_right l₁ List.mem_cons_self
  refine ⟨?_, sysSlistRemove_frame hmem fun b hb =>
    List.mem_append_left _ (List.mem_of_getLast? hb)⟩
  rcases List.eq_nil_or_concat l₁ with rfl | ⟨l₁, b, rfl⟩
  · exact sysSlistRemove_head hl
  · rw [List.concat_eq_append] at hl ⊢
    rw [List.append_assoc] at hl ⊢
    rw [List.getLast?_concat]
    exact sysSlistRemove_holds hl

/-- The loop of `sys_slist_find_and_remove` has passed `l₁`. -/
theorem findAndRemoveFrom_eq (hl : h.Holds k (l₁ ++ l₂)) :
    ∃ h', (∀ rounds, l₂.length < rounds →
        findAndRemoveFrom h k a rounds l₁.getLast? l₂.head? = some (h', decide (a ∈ l₂))) ∧
      h'.Holds k (l₁ ++ l₂.erase a) ∧ Frame h h' k (l₁ ++ l₂) := by
  induction l₂ generalizing l₁ with
  | nil =>
    refine ⟨h, fun rounds hrounds => ?_, hl, frame_refl⟩
    obtain ⟨rounds, rfl⟩ := Nat.exists_eq_succ_of_ne_zero (Nat.ne_of_gt hrounds)
    simp [findAndRemoveFrom]
  | cons b l₂ ih =>
    by_cases hb : b = a
    case pos =>
      subst hb
      obtain ⟨hholds, hf⟩ := sysSlistRemove_eq hl
      refine ⟨_, fun rounds hrounds => ?_, ?_, hf⟩
      · obtain ⟨rounds, rfl⟩ := Nat.exists_eq_succ_of_ne_zero (Nat.ne_zero_of_lt hrounds)
        rw [List.head?_cons, findAndRemoveFrom, if_pos rfl]
        simp
      · rwa [List.erase_cons_head]
    case neg =>
      have hl' : h.Holds k (l₁ ++ [b] ++ l₂) := by rwa [List.append_assoc]
      obtain ⟨h', hloop, hholds, hf⟩ := ih hl'
      have hnext : sysSlistPeekNext h (some b) = l₂.head? := hl.next_eq
      have hmem : a ∈ b :: l₂ ↔ a ∈ l₂ := by simp [Ne.symm hb]
      refine ⟨h', fun rounds hrounds => ?_, ?_, ?_⟩
      · obtain ⟨rounds, rfl⟩ := Nat.exists_eq_succ_of_ne_zero (Nat.ne_zero_of_lt hrounds)
        have hloop := hloop rounds (Nat.lt_of_succ_lt_succ hrounds)
        rw [List.getLast?_concat] at hloop
        rw [List.head?_cons, findAndRemoveFrom, if_neg hb, hnext, hloop]
        simp only [hmem]
      · rw [List.erase_cons_tail (by simpa using hb)]
        rwa [List.append_assoc] at hholds
      · rwa [List.append_assoc] at hf

end

/-! ## Calls -/

/-- The functions, and two of the loops, with their arguments. -/
inductive Call (K α : Type) where
  | init (list : K)
  | isEmpty (list : K)
  | peekHead (list : K)
  | peekTail (list : K)
  | peekNextNoCheck (node : α)
  | peekNext (node : Option α)
  | prepend (list : K) (node : α)
  | append (list : K) (node : α)
  | appendList (list : K) (head tail : Option α)
  | mergeSlist (list listToAppend : K)
  | insert (list : K) (prev : Option α) (node : α)
  | getNotEmpty (list : K)
  | get (list : K)
  | remove (list : K) (prevNode : Option α) (node : α)
  | findAndRemove (list : K) (node : α)
  | forEach (list : K)
  | iterateFrom (list : K) (node : Option α)

/-- What a function returns; of a loop, the nodes it visits. -/
inductive Value (α : Type) where
  | void
  | bool (b : Bool)
  | node (a : Option α)
  | visited (nodes : List α)
  deriving DecidableEq

/-- The body of a loop that only looks. -/
def visit (seen : List α) (node : α) : List α := seen ++ [node]

/-- The call on the heap; loops may take `rounds` rounds. -/
def exec (rounds : Nat) (h : SinglyLinks K α) :
    Call K α → Option (SinglyLinks K α × Value α)
  | .init list => some (sysSlistInit h list, .void)
  | .isEmpty list => some (h, .bool (sysSlistIsEmpty h list))
  | .peekHead list => some (h, .node (sysSlistPeekHead h list))
  | .peekTail list => some (h, .node (sysSlistPeekTail h list))
  | .peekNextNoCheck node => some (h, .node (sysSlistPeekNextNoCheck h node))
  | .peekNext node => some (h, .node (sysSlistPeekNext h node))
  | .prepend list node => some (sysSlistPrepend h list node, .void)
  | .append list node => some (sysSlistAppend h list node, .void)
  | .appendList list head tail => some (sysSlistAppendList h list head tail, .void)
  | .mergeSlist list listToAppend => some (sysSlistMergeSlist h list listToAppend, .void)
  | .insert list prev node => some (sysSlistInsert h list prev node, .void)
  | .getNotEmpty list => (sysSlistGetNotEmpty h list).map fun (h, node) => (h, .node (some node))
  | .get list => (sysSlistGet h list).map fun (h, node) => (h, .node node)
  | .remove list prevNode node => some (sysSlistRemove h list prevNode node, .void)
  | .findAndRemove list node =>
    (sysSlistFindAndRemove h list node rounds).map fun (h, removed) => (h, .bool removed)
  | .forEach list => (forEachNode h list visit rounds []).map fun seen => (h, .visited seen)
  | .iterateFrom list node =>
    (iterateFromNode h list visit rounds node []).map fun seen => (h, .visited seen)

/-- The calls run on the heap `h` and leave `h'`. -/
abbrev Executes : SinglyLinks K α → List (Call K α × Value α) → SinglyLinks K α → Prop :=
  Calls.Executes exec

/-- **What a call does to the lists**, and what it returns. The chain that `sys_slist_append_list`
appends is a list of its own, which is none from then on. That the list that is appended is another
one is in no comment of `slist.h`. -/
inductive Step (F : Lists K α) : Call K α → Value α → Lists K α → Prop
  | init : Step F (.init k) .void (Function.update F k (some []))
  | isEmpty (hk : F k = some l) : Step F (.isEmpty k) (.bool l.isEmpty) F
  | peekHead (hk : F k = some l) : Step F (.peekHead k) (.node l.head?) F
  | peekTail (hk : F k = some l) : Step F (.peekTail k) (.node l.getLast?) F
  | peekNextNoCheck (hk : F k = some (l₁ ++ a :: l₂)) :
    Step F (.peekNextNoCheck a) (.node l₂.head?) F
  | peekNext (hk : F k = some (l₁ ++ a :: l₂)) : Step F (.peekNext (some a)) (.node l₂.head?) F
  | peekNextNull : Step F (.peekNext none) (.node none) F
  | prepend (hk : F k = some l) (ha : F.Free a) :
    Step F (.prepend k a) .void (Function.update F k (some (a :: l)))
  | append (hk : F k = some l) (ha : F.Free a) :
    Step F (.append k a) .void (Function.update F k (some (l ++ [a])))
  | appendList (hk : F k = some l) (hk' : F k' = some m) (hne : k ≠ k') :
    Step F (.appendList k m.head? m.getLast?) .void
      (Function.update (Function.update F k' none) k (some (l ++ m)))
  | appendListNull (hp : p = none ∨ q = none) : Step F (.appendList k p q) .void F
  | mergeSlist (hk : F k = some l) (hk' : F k' = some m) (hne : k ≠ k') :
    Step F (.mergeSlist k k') .void
      (Function.update (Function.update F k' (some [])) k (some (l ++ m)))
  | insertHead (hk : F k = some l) (ha : F.Free a) :
    Step F (.insert k none a) .void (Function.update F k (some (a :: l)))
  | insert (hk : F k = some (l₁ ++ b :: l₂)) (ha : F.Free a) :
    Step F (.insert k (some b) a) .void (Function.update F k (some (l₁ ++ b :: a :: l₂)))
  | getNotEmpty (hk : F k = some (a :: l)) :
    Step F (.getNotEmpty k) (.node (some a)) (Function.update F k (some l))
  | getNull (hk : F k = some []) : Step F (.get k) (.node none) F
  | get (hk : F k = some (a :: l)) :
    Step F (.get k) (.node (some a)) (Function.update F k (some l))
  | remove (hk : F k = some (l₁ ++ a :: l₂)) :
    Step F (.remove k l₁.getLast? a) .void (Function.update F k (some (l₁ ++ l₂)))
  | findAndRemove (hk : F k = some l) :
    Step F (.findAndRemove k a) (.bool (decide (a ∈ l))) (Function.update F k (some (l.erase a)))
  | forEach (hk : F k = some l) : Step F (.forEach k) (.visited l) F
  | iterateFrom (hk : F k = some (l₁ ++ a :: l₂)) :
    Step F (.iterateFrom k (some a)) (.visited l₂) F
  | iterateFromNull (hk : F k = some l) : Step F (.iterateFrom k none) (.visited l) F

/-- A list of calls, each with the value it returns. -/
abbrev Steps : Lists K α → List (Call K α × Value α) → Lists K α → Prop := Calls.Steps Step

section
variable {F F' : Lists K α} {h : SinglyLinks K α} {k k' : K} {l m l₁ l₂ : List α} {a b : α}
  {c : Call K α} {v : Value α}

omit [DecidableEq K] [DecidableEq α] in
theorem sysSlistIsEmpty_eq (hl : h.Holds k l) : sysSlistIsEmpty h k = l.isEmpty := by
  rw [sysSlistIsEmpty, sysSlistPeekHead, hl.head]
  cases l <;> rfl

theorem sysSlistGetNotEmpty_eq (hl : h.Holds k (a :: l)) :
    ∃ h', sysSlistGetNotEmpty h k = some (h', a) ∧ h'.Holds k l ∧ Frame h h' k [] := by
  have hhead : sysSlistPeekHead h k = some a := hl.head
  refine ⟨_, ?_, pop_holds hl rfl, pop_frame⟩
  simp only [sysSlistGetNotEmpty, hhead, Option.bind_eq_bind, Option.bind_some, Option.pure_def]

omit [DecidableEq α] in
theorem foldl_visit {seen : List α} : l.foldl visit seen = seen ++ l := by
  induction l generalizing seen with
  | nil => exact (List.append_nil seen).symm
  | cons a l ih => rw [List.foldl_cons, ih, visit, List.append_assoc]; rfl

omit [DecidableEq K] [DecidableEq α] in
theorem forEachNode_visit {rounds : Nat} (hl : h.Holds k l) (hrounds : l.length < rounds) :
    forEachNode h k visit rounds [] = some l := by
  rw [forEachNode]
  exact (forEachNodeFrom_eq hl.segment hrounds).trans (congrArg some foldl_visit)

omit [DecidableEq K] [DecidableEq α] in
theorem iterateFromNode_visit {rounds : Nat} (hl : h.Holds k (l₁ ++ a :: l₂))
    (hrounds : l₂.length < rounds) : iterateFromNode h k visit rounds (some a) [] = some l₂ := by
  have hnext : sysSlistPeekNextNoCheck h a = l₂.head? := hl.next_eq
  obtain ⟨-, -, hseg⟩ := Segment.append_iff.mp hl.segment
  rw [iterateFromNode]
  exact (forEachNodeFrom_eq hseg hrounds).trans (congrArg some foldl_visit)

/-- The nodes of another list are appended. -/
theorem represents_appendList (hF : Represents h F) (hk : F k = some l) (hk' : F k' = some m)
    (hne : k ≠ k') : Represents (sysSlistAppendList h k m.head? m.getLast?)
      (Function.update (Function.update F k' none) k (some (l ++ m))) := by
  have hl := hF.holds hk
  have hm := hF.holds hk'
  have hold : Function.update F k' none k = some l := (Function.update_of_ne hne ..).trans hk
  have hdisj : ∀ x ∈ l, ∀ y ∈ m, x ≠ y := by
    rintro x hx y hy rfl
    exact hne (hF.avail hk' hy k l hk hx)
  have hchain : Segment h.next m.head? m none := hm.head ▸ hm.segment
  have hnodup : (l ++ m).Nodup := List.nodup_append.mpr ⟨hl.nodup, hm.nodup, hdisj⟩
  have havail : ∀ x ∈ l, Lists.Avail (Function.update F k' none) k x := fun x hx =>
    (hF.drop k').avail hold hx
  refine (hF.drop k').update (sysSlistAppendList_frame hl fun x hx => hx) havail
    (sysSlistAppendList_holds hl hchain hnodup) fun x hx => ?_
  rcases List.mem_append.mp hx with hx | hx
  · exact havail x hx
  · exact hF.avail_drop hk' hx

/-- **The links follow the lists.** -/
theorem Step.exec (hs : Step F c v F') (hF : Represents h F) :
    ∃ h' n, (∀ rounds, n ≤ rounds → exec rounds h c = some (h', v)) ∧ Represents h' F' := by
  have hjoin {a : α} (l : List α) (ha : F.Free a) : ∀ x ∈ a :: l, x ∈ l ∨ F.Free x := by
    intro x hx
    rcases List.mem_cons.mp hx with rfl | hx
    · exact .inr ha
    · exact .inl hx
  cases hs with
  | init =>
    refine ⟨_, 0, fun _ _ => rfl, ?_⟩
    exact hF.update (S := []) sysSlistInit_frame (by simp) sysSlistInit_holds (by simp)
  | isEmpty hk =>
    refine ⟨h, 0, fun _ _ => ?_, hF⟩
    rw [Slist.exec, sysSlistIsEmpty_eq (hF.holds hk)]
  | peekHead hk =>
    refine ⟨h, 0, fun _ _ => ?_, hF⟩
    rw [Slist.exec, sysSlistPeekHead, (hF.holds hk).head]
  | peekTail hk =>
    refine ⟨h, 0, fun _ _ => ?_, hF⟩
    rw [Slist.exec, sysSlistPeekTail, (hF.holds hk).tail]
  | peekNextNoCheck hk =>
    refine ⟨h, 0, fun _ _ => ?_, hF⟩
    rw [Slist.exec, sysSlistPeekNextNoCheck, (hF.holds hk).next_eq]
  | peekNext hk =>
    refine ⟨h, 0, fun _ _ => ?_, hF⟩
    rw [Slist.exec, sysSlistPeekNext, Option.bind_some, sysSlistPeekNextNoCheck,
      (hF.holds hk).next_eq]
  | peekNextNull => exact ⟨h, 0, fun _ _ => rfl, hF⟩
  | prepend hk ha | insertHead hk ha =>
    refine ⟨_, 0, fun _ _ => rfl, ?_⟩
    refine hF.relist (S := [_]) hk (sysSlistPrepend_frame (List.mem_singleton_self _)) ?_
      (sysSlistPrepend_holds (hF.holds hk) (ha _ _ hk)) (hjoin _ ha)
    exact fun x hx => .inr (List.mem_singleton.mp hx ▸ ha)
  | @append k l a hk ha =>
    refine ⟨_, 0, fun _ _ => rfl, ?_⟩
    refine hF.relist (S := a :: l) hk (sysSlistAppend_frame (hF.holds hk)
      (fun x hx => List.mem_cons_of_mem a hx) List.mem_cons_self (ha k l hk)) (hjoin l ha)
      (sysSlistAppend_holds (hF.holds hk) (ha k l hk)) fun x hx => hjoin l ha x ?_
    exact List.mem_cons.mpr ((List.mem_append.mp hx).symm.imp_left List.mem_singleton.mp)
  | appendList hk hk' hne =>
    exact ⟨_, 0, fun _ _ => rfl, represents_appendList hF hk hk' hne⟩
  | @appendListNull p q k hp =>
    refine ⟨h, 0, fun _ _ => ?_, hF⟩
    rw [Slist.exec]
    rcases hp with rfl | rfl
    · rfl
    · cases p <;> rfl
  | @mergeSlist k l k' m hk hk' hne =>
    refine ⟨_, 0, fun _ _ => rfl, ?_⟩
    have happend := represents_appendList hF hk hk' hne
    have hinit := happend.update (S := []) (k := k') sysSlistInit_frame (by simp)
      sysSlistInit_holds (by simp)
    rw [Function.update_comm hne.symm, Function.update_idem] at hinit
    rwa [sysSlistMergeSlist, sysSlistPeekHead, sysSlistPeekTail, (hF.holds hk').head,
      (hF.holds hk').tail, Function.update_comm hne.symm]
  | @insert k l₁ b l₂ a hk ha =>
    refine ⟨_, 0, fun _ _ => rfl, ?_⟩
    refine hF.relist (S := a :: (l₁ ++ b :: l₂)) hk (sysSlistInsert_frame (hF.holds hk)
      (fun x hx => List.mem_cons_of_mem a hx) List.mem_cons_self (ha k _ hk) (by simp))
      (hjoin _ ha) (sysSlistInsert_holds (hF.holds hk) (ha k _ hk)) fun x hx => hjoin _ ha x ?_
    simp only [List.mem_append, List.mem_cons] at hx ⊢
    tauto
  | getNotEmpty hk =>
    obtain ⟨h', hget, hl, hf⟩ := sysSlistGetNotEmpty_eq (hF.holds hk)
    refine ⟨h', 0, fun _ _ => ?_, hF.relist hk hf (by simp) hl ?_⟩
    · rw [Slist.exec, hget]
      rfl
    · exact fun x hx => .inl (List.mem_cons_of_mem _ hx)
  | getNull hk =>
    refine ⟨h, 0, fun _ _ => ?_, hF⟩
    rw [Slist.exec, sysSlistGet, sysSlistIsEmpty_eq (hF.holds hk)]
    rfl
  | get hk =>
    obtain ⟨h', hget, hl, hf⟩ := sysSlistGetNotEmpty_eq (hF.holds hk)
    refine ⟨h', 0, fun _ _ => ?_, hF.relist hk hf (by simp) hl ?_⟩
    · rw [Slist.exec, sysSlistGet, sysSlistIsEmpty_eq (hF.holds hk), hget]
      rfl
    · exact fun x hx => .inl (List.mem_cons_of_mem _ hx)
  | remove hk =>
    obtain ⟨hl, hf⟩ := sysSlistRemove_eq (hF.holds hk)
    refine ⟨_, 0, fun _ _ => rfl, hF.relist hk hf (fun x hx => .inl hx) hl fun x hx => .inl ?_⟩
    exact (List.sublist_cons_self ..).append_left _ |>.subset hx
  | @findAndRemove k l a hk =>
    have hl : h.Holds k ([] ++ l) := hF.holds hk
    obtain ⟨h', hloop, hl', hf⟩ := findAndRemoveFrom_eq (a := a) hl
    refine ⟨h', l.length + 1, fun rounds hrounds => ?_, hF.relist hk hf (fun x hx => .inl hx) hl'
      fun x hx => .inl (List.mem_of_mem_erase hx)⟩
    have hloop := hloop rounds hrounds
    rw [Slist.exec, sysSlistFindAndRemove, sysSlistPeekHead, hl.head]
    exact congrArg (Option.map _) hloop
  | @forEach k l hk =>
    refine ⟨h, l.length + 1, fun rounds hrounds => ?_, hF⟩
    rw [Slist.exec, forEachNode_visit (hF.holds hk) hrounds]
    rfl
  | @iterateFrom k l₁ a l₂ hk =>
    refine ⟨h, l₂.length + 1, fun rounds hrounds => ?_, hF⟩
    rw [Slist.exec, iterateFromNode_visit (hF.holds hk) hrounds]
    rfl
  | @iterateFromNull k l hk =>
    refine ⟨h, l.length + 1, fun rounds hrounds => ?_, hF⟩
    exact congrArg (Option.map _) (forEachNode_visit (hF.holds hk) hrounds)

/-- **Every sequence of calls that keeps the contract** runs on the links without following a null
pointer, returns what it should, and leaves links that represent its lists. -/
theorem Steps.exec {cs : List (Call K α × Value α)} (hs : Steps F cs F') (hF : Represents h F) :
    ∃ h', Executes h cs h' ∧ Represents h' F' := Calls.Steps.exec Step.exec hs hF

/-- **Calls on lists in memory that holds anything.** Every sequence of calls that keeps the
contract, from where no list has been made, runs on the links without following a null pointer and
returns what it should. The links then represent its lists: a loop over one visits its nodes in
order. -/
theorem slist_calls_refine (h : SinglyLinks K α) {cs : List (Call K α × Value α)}
    (hs : Steps (fun _ => none) cs F) :
    ∃ h', Executes h cs h' ∧ Represents h' F ∧
      ∀ k l, F k = some l → ∀ rounds, l.length < rounds →
        forEachNode h' k (fun seen node => seen ++ [node]) rounds [] = some l := by
  obtain ⟨h', hexec, hF⟩ := hs.exec (SinglyLinks.Represents.empty (h := h))
  exact ⟨h', hexec, hF, fun k l hk rounds hrounds => forEachNode_visit (hF.holds hk) hrounds⟩

/-- `sys_slist_merge_slist` of a list with itself empties it. -/
theorem sysSlistMergeSlist_self : (sysSlistMergeSlist h k k).Holds k [] := sysSlistInit_holds

end

/-- The check of `Lists.Free` for two lists. -/
theorem free_of_check {F : Lists Bool Nat} {a : Nat}
    (h : [false, true].all (fun k => !((F k).getD []).contains a) = true) : F.Free a := by
  intro k l hk
  simp only [List.all_cons, List.all_nil, Bool.and_eq_true, Bool.not_eq_true',
    List.contains_eq_mem, decide_eq_false_iff_not] at h
  cases k with
  | false => simpa [hk] using h.1
  | true => simpa [hk] using h.2.1

/-- Two lists are made and merged, and two nodes leave again. -/
def mergeRun : List (Call Bool Nat × Value Nat) :=
  [(.init false, .void), (.init true, .void), (.append false 1, .void), (.prepend true 2, .void),
    (.insert true (some 2) 3, .void), (.mergeSlist false true, .void),
    (.findAndRemove false 2, .bool true), (.get false, .node (some 1))]

theorem slist_calls_refine_merge : ∃ (h' : SinglyLinks Bool Nat) (F : Lists Bool Nat),
    Executes ⟨some, some ∘ Bool.toNat, fun _ => none⟩ mergeRun h' ∧
    F false = some [3] ∧ F true = some [] ∧ Represents h' F := by
  have hs : Steps (fun _ => none) mergeRun _ :=
    .cons .init <| .cons .init <|
      .cons (.append (l := []) rfl (free_of_check (by decide))) <|
      .cons (.prepend (l := []) rfl (free_of_check (by decide))) <|
      .cons (.insert (show _ = some ([] ++ 2 :: []) from rfl) (free_of_check (by decide))) <|
      .cons (.mergeSlist (l := [1]) (m := [2, 3]) rfl rfl (by decide)) <|
      .cons (.findAndRemove (l := [1, 2, 3]) rfl) <| .cons (.get (l := [3]) rfl) .nil
  obtain ⟨h', hexec, hF, -⟩ := slist_calls_refine ⟨some, some ∘ Bool.toNat, fun _ => none⟩ hs
  exact ⟨h', _, hexec, rfl, rfl, hF⟩

end HazelOsal.Slist
