import HazelOsal.Dlist.Operations
import HazelOsal.Library.Calls
import HazelOsal.Library.Families

/-! # Calls on disjoint lists

What each function of `dlist.h` does to a family of lists, under its contract: `Step F c v F'`. A
node that joins a list is on none, one that leaves is on one, and a range that moves to an end of a
list does not lie at that end. The links then follow: no null pointer is followed, the returned
value is right, and the lists stay what they should be. -/

namespace HazelOsal.Dlist

open Links

variable {α : Type} [DecidableEq α]

/-- The functions, and `SYS_DLIST_FOR_EACH_NODE` with a break, with their arguments. -/
inductive Call (α : Type) where
  | init (list : α)
  | nodeInit (node : α)
  | isLinked (node : α)
  | isHead (list node : α)
  | isTail (list node : α)
  | isEmpty (list : α)
  | hasMultipleNodes (list : α)
  | peekHead (list : α)
  | peekNext (list : α) (node : Option α)
  | peekPrev (list : α) (node : Option α)
  | peekTail (list : α)
  | append (list node : α)
  | prepend (list node : α)
  | insert (successor node : α)
  | insertAt (list node : α) (cond : α → Bool)
  | dequeue (node : α)
  | remove (node : α)
  | rangePrepend (dest start last : α)
  | rangeAppend (dest start last : α)
  | get (list : α)
  | len (list : α)
  | forEach (list : α) (stop : α → Bool)

/-- What a function returns; of a loop, the nodes it visits and the one at which it breaks. -/
inductive Value (α : Type) where
  | void
  | bool (b : Bool)
  | node (a : Option α)
  | size (n : Nat)
  | visited (nodes : List α) (last : Option α)
  deriving DecidableEq

/-- The body of a loop that breaks where `stop` holds. -/
def visit (stop : α → Bool) (seen : List α) (node : α) : List α × Bool :=
  (seen ++ [node], stop node)

/-- The call on the heap; loops may take `rounds` rounds. -/
def exec (rounds : Nat) (h : Links α) : Call α → Option (Links α × Value α)
  | .init list => some (sysDlistInit h list, .void)
  | .nodeInit node => some (sysDnodeInit h node, .void)
  | .isLinked node => some (h, .bool (sysDnodeIsLinked h node))
  | .isHead list node => some (h, .bool (sysDlistIsHead h list node))
  | .isTail list node => some (h, .bool (sysDlistIsTail h list node))
  | .isEmpty list => some (h, .bool (sysDlistIsEmpty h list))
  | .hasMultipleNodes list => some (h, .bool (sysDlistHasMultipleNodes h list))
  | .peekHead list => some (h, .node (sysDlistPeekHead h list))
  | .peekNext list node => some (h, .node (sysDlistPeekNext h list node))
  | .peekPrev list node => some (h, .node (sysDlistPeekPrev h list node))
  | .peekTail list => some (h, .node (sysDlistPeekTail h list))
  | .append list node => (sysDlistAppend h list node).map (·, .void)
  | .prepend list node => (sysDlistPrepend h list node).map (·, .void)
  | .insert successor node => (sysDlistInsert h successor node).map (·, .void)
  | .insertAt list node cond => (sysDlistInsertAt h list node cond rounds).map (·, .void)
  | .dequeue node => (sysDlistDequeue h node).map (·, .void)
  | .remove node => (sysDlistRemove h node).map (·, .void)
  | .rangePrepend dest start last => (sysDlistRangePrepend h dest start last).map (·, .void)
  | .rangeAppend dest start last => (sysDlistRangeAppend h dest start last).map (·, .void)
  | .get list => (sysDlistGet h list).map fun (h, node) => (h, .node node)
  | .len list => (sysDlistLen h list rounds).map fun len => (h, .size len)
  | .forEach list stop =>
    (forEachNode h list (visit stop) rounds []).map fun (seen, node) => (h, .visited seen node)

/-- The calls run on the heap `h` and leave `h'`. -/
abbrev Executes : Links α → List (Call α × Value α) → Links α → Prop := Calls.Executes exec

/-! ## The functions on the links -/

section
variable {h : Links α} {a c d n p r s t : α}

theorem sysDlistAppend_eq (hp : h.prev r = some p) (hne : a ≠ r) :
    sysDlistAppend h r a = some ((h.connect a r).connect p a) := by
  simp only [sysDlistAppend, hp, storeNext, setNext, setPrev, connect, Option.map_some,
    Option.bind_eq_bind, Option.bind_some, Option.pure_def]
  rw [Function.update_comm hne]

/-- A list whose links have been cleared has no tail to append to. -/
theorem sysDlistAppend_cleared (hp : h.prev r = none) : sysDlistAppend h r a = none := by
  rw [sysDlistAppend, hp]
  rfl

theorem sysDlistPrepend_eq (hn : h.next r = some n) (hne : a ≠ n) :
    sysDlistPrepend h r a = some ((h.connect a n).connect r a) := by
  simp only [sysDlistPrepend, hn, storePrev, setNext, setPrev, connect, Option.map_some,
    Option.bind_eq_bind, Option.bind_some, Option.pure_def]
  rw [Function.update_comm hne]

theorem sysDlistInsert_eq (hp : h.prev s = some p) (hne : a ≠ s) :
    sysDlistInsert h s a = some ((h.connect a s).connect p a) := by
  simp only [sysDlistInsert, hp, storeNext, setNext, setPrev, connect, Option.map_some,
    Option.bind_eq_bind, Option.bind_some, Option.pure_def]
  rw [Function.update_comm hne]

theorem sysDlistDequeue_eq (hp : h.prev a = some p) (hn : h.next a = some n) :
    sysDlistDequeue h a = some (h.connect p n) := by
  rw [sysDlistDequeue, hp, hn]
  rfl

theorem sysDlistRemove_eq (hp : h.prev a = some p) (hn : h.next a = some n) :
    sysDlistRemove h a = some ((h.connect p n).clear a) := by
  rw [sysDlistRemove, hp, hn]
  rfl

theorem sysDlistRangePrepend_eq (hp : h.prev s = some p) (hn : h.next t = some n)
    (hc : h.next d = some c) (hne : s ≠ c) :
    sysDlistRangePrepend h d s t = some (((h.connect p n).connect t c).connect d s) := by
  simp only [sysDlistRangePrepend, hp, hn, hc, storeNext, storePrev, setNext, setPrev, connect,
    Option.map_some, Option.bind_eq_bind, Option.bind_some, Option.pure_def]
  rw [Function.update_comm hne]

theorem sysDlistRangeAppend_eq (hp : h.prev s = some p) (hn : h.next t = some n)
    (hc : h.prev d = some c) (hne : s ≠ d) :
    sysDlistRangeAppend h d s t = some (((h.connect p n).connect t d).connect c s) := by
  simp only [sysDlistRangeAppend, hp, hn, hc, storeNext, storePrev, setNext, setPrev, connect,
    Option.map_some, Option.bind_eq_bind, Option.bind_some, Option.pure_def]
  rw [Function.update_comm hne]

end

/-! ## What the functions read -/

section
variable {h : Links α} {a r : α} {l l₁ l₂ : List α}

theorem sysDlistIsEmpty_eq (hr : h.Ring r l) : sysDlistIsEmpty h r = l.isEmpty := by
  rw [sysDlistIsEmpty, hr.next_head]
  cases l with
  | nil => simp
  | cons a l =>
    have hne : a ≠ r := fun he => (List.nodup_cons.mp hr.nodup).1 (he ▸ List.mem_cons_self)
    simp [hne]

theorem sysDlistPeekHead_eq (hr : h.Ring r l) : sysDlistPeekHead h r = l.head? := by
  rw [sysDlistPeekHead, sysDlistIsEmpty_eq hr, hr.next_head]
  cases l <;> rfl

theorem sysDlistPeekTail_eq (hr : h.Ring r l) : sysDlistPeekTail h r = l.getLast? := by
  rw [sysDlistPeekTail, sysDlistIsEmpty_eq hr, hr.prev_head]
  cases l with
  | nil => rfl
  | cons a l => simp [List.getLast?_cons]

theorem sysDlistPeekNext_eq (hr : h.Ring r (l₁ ++ a :: l₂)) :
    sysDlistPeekNext h r (some a) = l₂.head? := by
  rw [sysDlistPeekNext, Option.bind_some, sysDlistPeekNextNoCheck, hr.prev_head, hr.next_mem]
  cases l₂ with
  | nil => simp
  | cons b l₂ =>
    have hnodup : (l₁ ++ [a] ++ (b :: l₂)).Nodup := by simpa using (List.nodup_cons.mp hr.nodup).2
    have hlast : (l₁ ++ a :: b :: l₂).getLastD r = l₂.getLastD b := by simp [List.getLast?_cons]
    have hmem : l₂.getLastD b ∈ b :: l₂ := List.getLastD_mem_cons
    have hne : a ≠ l₂.getLastD b := fun he =>
      (List.nodup_append.mp hnodup).2.2 a (by simp) a (he ▸ hmem) rfl
    rw [hlast, if_neg fun he => hne (Option.some.inj he)]
    rfl

theorem sysDlistPeekPrev_eq (hr : h.Ring r (l₁ ++ a :: l₂)) :
    sysDlistPeekPrev h r (some a) = l₁.getLast? := by
  rw [sysDlistPeekPrev, Option.bind_some, sysDlistPeekPrevNoCheck, hr.next_head, hr.prev_mem]
  cases l₁ with
  | nil => simp
  | cons b l₁ =>
    have hne : a ≠ b := fun he => by
      have hnodup := (List.nodup_cons.mp hr.nodup).2
      exact (List.nodup_cons.mp hnodup).1 (he ▸ List.mem_append_right l₁ List.mem_cons_self)
    rw [List.cons_append, List.headD_cons, if_neg fun he => hne (Option.some.inj he)]
    simp [List.getLast?_cons]

theorem sysDlistHasMultipleNodes_eq (hr : h.Ring r l) :
    sysDlistHasMultipleNodes h r = decide (1 < l.length) := by
  rw [sysDlistHasMultipleNodes, hr.next_head, hr.prev_head]
  cases l with
  | nil => simp
  | cons a l =>
    cases l with
    | nil => simp
    | cons b l =>
      have hnodup := (List.nodup_cons.mp hr.nodup).2
      have hmem : l.getLastD b ∈ b :: l := List.getLastD_mem_cons
      have hne : a ≠ l.getLastD b := fun he => (List.nodup_cons.mp hnodup).1 (he ▸ hmem)
      simpa [List.getLast?_cons] using hne

theorem sysDlistIsHead_eq (hr : h.Ring r l) (hne : a ≠ r) :
    sysDlistIsHead h r a = decide (l.head? = some a) := by
  rw [sysDlistIsHead, hr.next_head]
  cases l with
  | nil => simp [hne.symm]
  | cons b l => rfl

theorem sysDlistIsTail_eq (hr : h.Ring r l) (hne : a ≠ r) :
    sysDlistIsTail h r a = decide (l.getLast? = some a) := by
  rw [sysDlistIsTail, hr.prev_head]
  cases l with
  | nil => simp [hne.symm]
  | cons b l => simp [List.getLast?_cons]

/-! ### Loops -/

/-- What a loop over `l` with a break leaves. -/
def scan {S : Type} (body : S → α → S × Bool) : List α → S → S × Option α
  | [], s => (s, none)
  | a :: l, s =>
    match body s a with
    | (s, true) => (s, some a)
    | (s, false) => scan body l s

/-- **The loops visit the nodes from a place on, in order**, and end. -/
theorem forEachNodeFrom_eq {S : Type} {body : S → α → S × Bool} {rounds : Nat} {s : S}
    (hr : h.Ring r (l₁ ++ l₂)) (hrounds : l₂.length < rounds) :
    forEachNodeFrom h r body rounds l₂.head? s = some (scan body l₂ s) := by
  induction l₂ generalizing l₁ rounds s with
  | nil =>
    obtain ⟨rounds, rfl⟩ := Nat.exists_eq_succ_of_ne_zero (Nat.ne_of_gt hrounds)
    rfl
  | cons a l₂ ih =>
    obtain ⟨rounds, rfl⟩ := Nat.exists_eq_succ_of_ne_zero (Nat.ne_zero_of_lt hrounds)
    have hr' : h.Ring r (l₁ ++ [a] ++ l₂) := by rwa [List.append_assoc]
    rw [List.head?_cons, forEachNodeFrom, scan]
    rcases body s a with ⟨s', stop⟩
    cases stop with
    | true => rfl
    | false =>
      simp only [sysDlistPeekNext_eq hr]
      exact ih hr' (Nat.lt_of_succ_lt_succ hrounds)

theorem forEachNode_eq {S : Type} {body : S → α → S × Bool} {rounds : Nat} {s : S}
    (hr : h.Ring r l) (hrounds : l.length < rounds) :
    forEachNode h r body rounds s = some (scan body l s) := by
  rw [forEachNode, sysDlistPeekHead_eq hr]
  exact forEachNodeFrom_eq (show h.Ring r ([] ++ l) from hr) hrounds

/-- A loop that starts behind a node. -/
theorem iterateFromNode_eq {S : Type} {body : S → α → S × Bool} {rounds : Nat} {s : S}
    (hr : h.Ring r (l₁ ++ a :: l₂)) (hrounds : l₂.length < rounds) :
    iterateFromNode h r body rounds (some a) s = some (scan body l₂ s) := by
  have hnext : sysDlistPeekNextNoCheck h r a = l₂.head? := sysDlistPeekNext_eq hr
  have hr' : h.Ring r (l₁ ++ [a] ++ l₂) := by rwa [List.append_assoc]
  rw [iterateFromNode, hnext]
  exact forEachNodeFrom_eq hr' hrounds

omit [DecidableEq α] in
theorem scan_len {n : Nat} :
    scan (fun len (_ : α) => (len + 1, false)) l n = (n + l.length, none) := by
  induction l generalizing n with
  | nil => rfl
  | cons a l ih =>
    simp only [scan, ih, List.length_cons]
    rw [Nat.add_assoc, Nat.add_comm 1]

omit [DecidableEq α] in
/-- The node at which a loop breaks. -/
theorem scan_visit_snd {stop : α → Bool} {seen : List α} :
    (scan (visit stop) l seen).2 = l.find? stop := by
  induction l generalizing seen with
  | nil => rfl
  | cons a l ih =>
    rw [List.find?_cons, scan]
    cases ha : stop a with
    | true => simp only [visit, ha]
    | false => simp only [visit, ha, ih]

theorem sysDlistLen_eq {rounds : Nat} (hr : h.Ring r l) (hrounds : l.length < rounds) :
    sysDlistLen h r rounds = some l.length := by
  rw [sysDlistLen, forEachNode_eq hr hrounds, scan_len, Nat.zero_add]
  rfl

omit [DecidableEq α] in
theorem scan_insertAt {cond : α → Bool} :
    scan (fun _ pos => ((), cond pos)) l () = ((), (l.dropWhile fun pos => !cond pos).head?) := by
  induction l with
  | nil => rfl
  | cons a l ih =>
    rw [scan, List.dropWhile_cons]
    cases cond a with
    | true => rfl
    | false => exact ih

/-- A new node goes before the first one of which `cond` holds. -/
theorem sysDlistInsertAt_eq {cond : α → Bool} {rounds : Nat} (hr : h.Ring r l) (ha : a ∉ r :: l)
    (hrounds : l.length < rounds) :
    sysDlistInsertAt h r a cond rounds =
      some ((h.connect a ((l.dropWhile fun pos => !cond pos).headD r)).connect
        ((l.takeWhile fun pos => !cond pos).getLastD r) a) := by
  have happend (l : List α) (hr : h.Ring r l) (ha : a ∉ r :: l) :
      sysDlistAppend h r a = some ((h.connect a r).connect (l.getLastD r) a) :=
    sysDlistAppend_eq hr.prev_head (List.ne_of_not_mem_cons ha)
  rw [sysDlistInsertAt, sysDlistIsEmpty_eq hr]
  cases hl : l with
  | nil => exact happend [] (hl ▸ hr) (hl ▸ ha)
  | cons b k =>
    rw [← hl, forEachNode_eq hr hrounds, scan_insertAt]
    have hsplit : l.takeWhile (fun pos => !cond pos) ++ l.dropWhile (fun pos => !cond pos) = l :=
      List.takeWhile_append_dropWhile
    generalize l.takeWhile (fun pos => !cond pos) = l₁ at hsplit ⊢
    generalize l.dropWhile (fun pos => !cond pos) = l₂ at hsplit ⊢
    have hne : l ≠ [] := by simp [hl]
    rw [List.isEmpty_eq_false_iff.mpr hne]
    cases l₂ with
    | nil =>
      rw [List.append_nil] at hsplit
      exact hsplit ▸ happend l hr ha
    | cons c l₂ =>
      have hac : a ≠ c := fun he => ha (he ▸ hsplit ▸ List.mem_cons_of_mem r (by simp))
      exact sysDlistInsert_eq (hsplit ▸ hr).prev_mem hac

end

/-! ## A range that is at the end already

The functions that move a range read the end of `dest` before they take the range from its list. A
range of `dest` that is at this end already is linked to itself, and is lost with the rest of the
list or alone. Nothing in `dlist.h` says that a caller must not pass it. -/

section
variable {h : Links α} {a d r s t : α} {m l l₁ l₂ : List α} {P : α → Prop}

/-- A loop that goes on from some nodes to some of these only, and does not break, does not end. -/
theorem forEachNodeFrom_none {S : Type} {body : S → α → S × Bool} {rounds : Nat} {x : S}
    (hP : ∀ a, P a → ∃ b, sysDlistPeekNext h r (some a) = some b ∧ P b)
    (hbody : ∀ x a, (body x a).2 = false) (ha : P a) :
    forEachNodeFrom h r body rounds (some a) x = none := by
  induction rounds generalizing a x with
  | zero => rfl
  | succ rounds ih =>
    obtain ⟨b, hb, hPb⟩ := hP a ha
    have hgo : body x a = ((body x a).1, false) := Prod.ext rfl (hbody x a)
    rw [forEachNodeFrom, hgo]
    simp only [hb]
    exact ih hPb

/-- A loop that goes on from some nodes to some of these only visits no others. -/
theorem forEachNodeFrom_visits {stop : α → Bool} {rounds : Nat} {node last : Option α}
    {seen seen' : List α} (hP : ∀ a b, P a → sysDlistPeekNext h r (some a) = some b → P b)
    (hnode : ∀ a, node = some a → P a) (hseen : ∀ a ∈ seen, P a)
    (he : forEachNodeFrom h r (visit stop) rounds node seen = some (seen', last)) :
    ∀ a ∈ seen', P a := by
  induction rounds generalizing node seen with
  | zero => cases he
  | succ rounds ih =>
    cases node with
    | none =>
      cases he
      exact hseen
    | some a =>
      have hPa := hnode a rfl
      have hseen' : ∀ b ∈ seen ++ [a], P b := by
        intro b hb
        rcases List.mem_append.mp hb with hb | hb
        · exact hseen b hb
        · exact List.mem_singleton.mp hb ▸ hPa
      rw [forEachNodeFrom, visit] at he
      cases hstop : stop a with
      | true =>
        rw [hstop] at he
        cases he
        exact hseen'
      | false =>
        rw [hstop] at he
        exact ih (fun b hb => hP a b hPa hb) hseen' he

theorem sysDlistRangePrepend_head (hr : h.Ring d (m ++ l₂)) (hs : m.head? = some s)
    (ht : m.getLast? = some t) : sysDlistRangePrepend h d s t =
      some (setNext ((h.connect d (l₂.headD d)).connect t s) d (some s)) := by
  obtain ⟨m₁, rfl⟩ := List.getLast?_eq_some_iff.mp ht
  have hn : h.next t = some (l₂.headD d) := by
    rw [List.append_assoc] at hr
    exact hr.next_mem
  have hc : h.next d = some s := by
    rw [hr.next_head, List.headD_eq_head?_getD, List.head?_append, hs]
    rfl
  obtain ⟨m₂, he⟩ := List.head?_eq_some_iff.mp hs
  have hr' : h.Ring d ([] ++ s :: (m₂ ++ l₂)) := by rwa [he] at hr
  have hp : h.prev s = some d := hr'.prev_mem
  simp only [sysDlistRangePrepend, hp, hn, hc, storeNext, storePrev, setNext, setPrev, connect,
    Option.map_some, Option.bind_eq_bind, Option.bind_some, Option.pure_def]
  rw [Function.update_idem]

theorem sysDlistRangeAppend_tail (hr : h.Ring d (l₁ ++ m)) (hs : m.head? = some s)
    (ht : m.getLast? = some t) : sysDlistRangeAppend h d s t =
      some (setPrev ((h.connect (l₁.getLastD d) d).connect t s) d (some t)) := by
  obtain ⟨m₁, rfl⟩ := List.head?_eq_some_iff.mp hs
  have hp : h.prev s = some (l₁.getLastD d) := hr.prev_mem
  have hc : h.prev d = some t := by
    rw [hr.prev_head, List.getLastD_eq_getLast?, List.getLast?_append, ht]
    rfl
  obtain ⟨m₂, he⟩ := List.getLast?_eq_some_iff.mp ht
  have hr' : h.Ring d (l₁ ++ m₂ ++ t :: []) := by rwa [he, ← List.append_assoc] at hr
  have hn : h.next t = some d := hr'.next_mem
  simp only [sysDlistRangeAppend, hp, hn, hc, storeNext, storePrev, setNext, setPrev, connect,
    Option.map_some, Option.bind_eq_bind, Option.bind_some, Option.pure_def]
  rw [Function.update_idem]

/-- **After `sys_dlist_range_prepend` of a range at the head** no loop over the list ends. -/
theorem forEachNode_range_prepend_head {S : Type} {body : S → α → S × Bool}
    (hr : h.Ring d (m ++ l₂)) (hs : m.head? = some s) (ht : m.getLast? = some t)
    (hbody : ∀ x a, (body x a).2 = false) :
    ∃ h', sysDlistRangePrepend h d s t = some h' ∧
      ∀ rounds x, forEachNode h' d body rounds x = none := by
  refine ⟨_, sysDlistRangePrepend_head hr hs ht, fun rounds x => ?_⟩
  have hsm : s ∈ m := List.mem_of_head? hs
  obtain ⟨hdm, hnodup⟩ := List.nodup_cons.mp hr.nodup
  have hdisj := List.disjoint_of_nodup_append hnodup
  have hd (a : α) (ha : a ∈ m) : a ≠ d := fun he => hdm (he ▸ List.mem_append_left l₂ ha)
  -- the list still ends behind the range
  have hend : (setNext ((h.connect d (l₂.headD d)).connect t s) d (some s)).prev d =
      some (l₂.getLastD d) := by
    rw [setNext, prev_connect (hd s hsm).symm]
    cases l₂ with
    | nil => exact Function.update_self ..
    | cons b l₂ =>
      have hb : d ≠ b := fun he => hdm (he ▸ List.mem_append_right m List.mem_cons_self)
      rw [List.headD_cons, prev_connect hb, hr.prev_head]
      simp [List.getLast?_cons]
  have hnext (a : α) (ha : a ∈ m) :
      ∃ b, sysDlistPeekNext (setNext ((h.connect d (l₂.headD d)).connect t s) d (some s)) d
        (some a) = some b ∧ b ∈ m := by
    have hlast : a ≠ l₂.getLastD d := by
      intro he
      have hmem : l₂.getLastD d ∈ d :: l₂ := List.getLastD_mem_cons
      rcases List.mem_cons.mp hmem with hmem | hmem
      · exact hd a ha (he.trans hmem)
      · exact hdisj ha (he ▸ hmem)
    rw [sysDlistPeekNext, Option.bind_some, sysDlistPeekNextNoCheck, hend,
      if_neg fun he => hlast (Option.some.inj he), setNext]
    simp only [Function.update_of_ne (hd a ha)]
    by_cases hat : a = t
    case pos => exact ⟨s, hat ▸ Function.update_self .., hsm⟩
    case neg =>
      obtain ⟨m₁, m₂, rfl⟩ := List.append_of_mem ha
      cases m₂ with
      | nil => exact absurd (Option.some.inj (List.getLast?_concat ▸ ht)) hat
      | cons b m₂ =>
        rw [List.append_assoc] at hr
        refine ⟨b, ?_, by simp⟩
        rw [next_connect hat, next_connect (hd a ha)]
        exact hr.next_mem
  have hne : some s ≠ some d := fun he => hd s hsm (Option.some.inj he)
  rw [forEachNode, sysDlistPeekHead, sysDlistIsEmpty]
  simp only [setNext, Function.update_self, hne, decide_false, Bool.false_eq_true, if_false]
  exact forEachNodeFrom_none hnext hbody hsm

/-- **After `sys_dlist_range_append` of a range at the tail** no loop over the list visits it. -/
theorem forEachNode_range_append_tail (hr : h.Ring d (l₁ ++ m)) (hs : m.head? = some s)
    (ht : m.getLast? = some t) :
    ∃ h', sysDlistRangeAppend h d s t = some h' ∧
      ∀ stop rounds seen last, forEachNode h' d (visit stop) rounds [] = some (seen, last) →
        ∀ a ∈ m, a ∉ seen := by
  refine ⟨_, sysDlistRangeAppend_tail hr hs ht, fun stop rounds seen last he a ha hseen => ?_⟩
  have htm : t ∈ m := List.mem_of_getLast? ht
  obtain ⟨hdm, hnodup⟩ := List.nodup_cons.mp hr.nodup
  have hdisj : ∀ b ∈ d :: l₁, b ∉ m := by
    intro b hb hbm
    rcases List.mem_cons.mp hb with rfl | hb
    · exact hdm (List.mem_append_right l₁ hbm)
    · exact List.disjoint_of_nodup_append hnodup hb hbm
  have hne {b : α} (hb : b ∈ d :: l₁) : b ≠ t := fun he => hdisj b hb (he ▸ htm)
  -- the list itself and the nodes in front of the range lead to each other only
  have hnext (b : α) (hb : b ∈ d :: l₁) :
      ∃ c ∈ d :: l₁, (setPrev ((h.connect (l₁.getLastD d) d).connect t s) d (some t)).next b =
        some c := by
    rw [setPrev, next_connect (hne hb)]
    by_cases hlast : b = l₁.getLastD d
    case pos => exact ⟨d, List.mem_cons_self, hlast ▸ Function.update_self ..⟩
    case neg =>
      rw [next_connect hlast]
      rcases List.mem_cons.mp hb with rfl | hb
      · cases l₁ with
        | nil => exact absurd rfl hlast
        | cons c l₁ => exact ⟨c, by simp, hr.next_head⟩
      · obtain ⟨k, k', rfl⟩ := List.append_of_mem hb
        cases k' with
        | nil => simp at hlast
        | cons c k' =>
          rw [List.append_assoc] at hr
          exact ⟨c, by simp, hr.next_mem⟩
  refine hdisj a (forEachNodeFrom_visits (P := (· ∈ d :: l₁)) ?_ ?_ (by simp) he a hseen) ha
  · intro b c hb hc
    rw [sysDlistPeekNext, Option.bind_some, sysDlistPeekNextNoCheck] at hc
    split at hc
    case isTrue => cases hc
    case isFalse =>
      obtain ⟨c', hc', he⟩ := hnext b hb
      cases he.symm.trans hc
      exact hc'
  · intro b hb
    rw [sysDlistPeekHead] at hb
    split at hb
    case isTrue => cases hb
    case isFalse =>
      obtain ⟨c, hc, he⟩ := hnext d List.mem_cons_self
      cases he.symm.trans hb
      exact hc

end

/-! ## The contract -/

/-- **What a call does to the lists**, and what it returns. That a range is not at the end of `dest`
to which it moves (`hfirst`, `hlast`) is in no comment of `dlist.h`. -/
inductive Step (F : Family α) : Call α → Value α → Family α → Prop
  | init (hr : (F.place r).Vacant) : Step F (.init r) .void (F.assign r (.head []) hr .head)
  | nodeInit (ha : (F.place a).Vacant) :
    Step F (.nodeInit a) .void (F.assign a .unlinked ha (.free .unlinked))
  | isLinkedTrue (ha : F.place a = .member r) : Step F (.isLinked a) (.bool true) F
  | isLinkedFalse (ha : F.place a = .unlinked) : Step F (.isLinked a) (.bool false) F
  | isHead (hr : F.place r = .head l) (hne : a ≠ r) :
    Step F (.isHead r a) (.bool (decide (l.head? = some a))) F
  | isTail (hr : F.place r = .head l) (hne : a ≠ r) :
    Step F (.isTail r a) (.bool (decide (l.getLast? = some a))) F
  | isEmpty (hr : F.place r = .head l) : Step F (.isEmpty r) (.bool l.isEmpty) F
  | hasMultipleNodes (hr : F.place r = .head l) :
    Step F (.hasMultipleNodes r) (.bool (decide (1 < l.length))) F
  | peekHead (hr : F.place r = .head l) : Step F (.peekHead r) (.node l.head?) F
  | peekNext (hr : F.place r = .head (l₁ ++ a :: l₂)) :
    Step F (.peekNext r (some a)) (.node l₂.head?) F
  | peekNextNull : Step F (.peekNext r none) (.node none) F
  | peekPrev (hr : F.place r = .head (l₁ ++ a :: l₂)) :
    Step F (.peekPrev r (some a)) (.node l₁.getLast?) F
  | peekPrevNull : Step F (.peekPrev r none) (.node none) F
  | peekTail (hr : F.place r = .head l) : Step F (.peekTail r) (.node l.getLast?) F
  | append (hr : F.place r = .head l) (ha : (F.place a).Free) :
    Step F (.append r a) .void (F.insert hr (List.append_nil l).symm ha)
  | prepend (hr : F.place r = .head l) (ha : (F.place a).Free) :
    Step F (.prepend r a) .void (F.insert hr (List.nil_append l).symm ha)
  | insert (hr : F.place r = .head l) (hl : l = l₁ ++ s :: l₂) (ha : (F.place a).Free) :
    Step F (.insert s a) .void (F.insert hr hl ha)
  | insertAt {cond : α → Bool} (hr : F.place r = .head l) (ha : (F.place a).Free) :
    Step F (.insertAt r a cond) .void
      (F.insert hr (List.takeWhile_append_dropWhile (p := fun pos => !cond pos)).symm ha)
  | dequeue (hr : F.place r = .head l) (hl : l = l₁ ++ [a] ++ l₂) :
    Step F (.dequeue a) .void (F.extract hr hl)
  | remove (hr : F.place r = .head l) (hl : l = l₁ ++ [a] ++ l₂) :
    Step F (.remove a) .void (F.remove hr hl)
  | rangePrepend (hr : F.place r = .head l) (hl : l = l₁ ++ m ++ l₂) (hs : m.head? = some s)
      (ht : m.getLast? = some t) (hfirst : ∀ k, F.place d = .head k → k.head? ≠ some s)
      (hd : (F.extract hr hl).place d = .head k') :
    Step F (.rangePrepend d s t) .void (F.move hr hl hd (List.nil_append k').symm)
  | rangeAppend (hr : F.place r = .head l) (hl : l = l₁ ++ m ++ l₂) (hs : m.head? = some s)
      (ht : m.getLast? = some t) (hlast : ∀ k, F.place d = .head k → k.getLast? ≠ some t)
      (hd : (F.extract hr hl).place d = .head k') :
    Step F (.rangeAppend d s t) .void (F.move hr hl hd (List.append_nil k').symm)
  | getNull (hr : F.place r = .head []) : Step F (.get r) (.node none) F
  | get (hr : F.place r = .head l) (hl : l = [] ++ [a] ++ l₂) :
    Step F (.get r) (.node (some a)) (F.remove hr hl)
  | len (hr : F.place r = .head l) : Step F (.len r) (.size l.length) F
  | forEach {stop : α → Bool} (hr : F.place r = .head l) :
    Step F (.forEach r stop) (.visited (scan (visit stop) l []).1 (scan (visit stop) l []).2) F

/-- A list of calls, each with the value it returns. -/
abbrev Steps : Family α → List (Call α × Value α) → Family α → Prop := Calls.Steps Step

section
variable {F F' : Family α} {h : Links α} {c : Call α} {v : Value α} {a d r s t : α}
  {k l l₁ l₂ m : List α}

/-- The list to which a range moves is not next to the range, unless the range lies at its end. -/
theorem ne_getLastD (hr : F.place r = .head l) (hl : l = l₁ ++ m ++ l₂) (hs : m.head? = some s)
    (hfirst : ∀ k, F.place d = .head k → k.head? ≠ some s)
    (hd : (F.extract hr hl).place d = .head k) : d ≠ l₁.getLastD r := by
  have hmem : l₁.getLastD r ∈ r :: l := by
    have hlast : l₁.getLastD r ∈ r :: l₁ := List.getLastD_mem_cons
    rw [hl, List.append_assoc]
    exact List.mem_append_left (m ++ l₂) hlast
  rcases Family.relisted_eq_head hd with ⟨rfl, -⟩ | ⟨hne, hd⟩
  · rintro he
    cases l₁ with
    | nil =>
      refine hfirst l hr ?_
      rw [hl, List.nil_append, List.head?_append, hs]
      rfl
    | cons a l₁ =>
      have hlast : l₁.getLastD a ∈ a :: l₁ := List.getLastD_mem_cons
      rw [List.getLastD_cons] at he
      refine (List.nodup_cons.mp (F.nodup_cons hr)).1 ?_
      rw [hl, List.append_assoc]
      exact List.mem_append_left (m ++ l₂) (he ▸ hlast)
  · exact fun he => F.disjoint hr hd (Ne.symm hne) hmem (he ▸ List.mem_cons_self)

theorem ne_headD (hr : F.place r = .head l) (hl : l = l₁ ++ m ++ l₂) (ht : m.getLast? = some t)
    (hlast : ∀ k, F.place d = .head k → k.getLast? ≠ some t)
    (hd : (F.extract hr hl).place d = .head k) : d ≠ l₂.headD r := by
  have hmem : l₂.headD r ∈ r :: l := by
    cases l₂ with
    | nil => exact List.mem_cons_self
    | cons a l₂ => exact List.mem_cons_of_mem r (hl ▸ List.mem_append_right _ List.mem_cons_self)
  rcases Family.relisted_eq_head hd with ⟨rfl, -⟩ | ⟨hne, hd⟩
  · rintro he
    cases l₂ with
    | nil =>
      refine hlast l hr ?_
      rw [hl, List.append_nil, List.getLast?_append, ht]
      rfl
    | cons a l₂ =>
      refine (List.nodup_cons.mp (F.nodup_cons hr)).1 ?_
      rw [hl, he]
      exact List.mem_append_right _ List.mem_cons_self
  · exact fun he => F.disjoint hr hd (Ne.symm hne) hmem (he ▸ List.mem_cons_self)

omit [DecidableEq α] in
theorem headD_ne (hr : F.place r = .head l) (hl : l = l₁ ++ l₂) (ha : (F.place a).Free) :
    a ≠ l₂.headD r := by
  intro he
  refine F.notMem_of_free hr ha ?_
  cases l₂ with
  | nil => exact he ▸ List.mem_cons_self
  | cons b l₂ =>
    have hmem : b ∈ l₁ ++ b :: l₂ := List.mem_append_right l₁ List.mem_cons_self
    exact List.mem_cons_of_mem r (hl ▸ he ▸ hmem)

omit [DecidableEq α] in
/-- The nodes on either side of a range. -/
theorem range_neighbours (hF : Represents h F) (hr : F.place r = .head l) (hl : l = l₁ ++ m ++ l₂)
    (hs : m.head? = some s) (ht : m.getLast? = some t) :
    h.prev s = some (l₁.getLastD r) ∧ h.next t = some (l₂.headD r) := by
  have hring := hF.ring hr
  constructor
  · obtain ⟨m, rfl⟩ := List.head?_eq_some_iff.mp hs
    rw [hl, List.append_assoc] at hring
    exact hring.prev_mem
  · obtain ⟨m, rfl⟩ := List.getLast?_eq_some_iff.mp ht
    rw [hl, ← List.append_assoc, List.append_assoc] at hring
    exact hring.next_mem

omit [DecidableEq α] in
theorem neighbours (hF : Represents h F) (hr : F.place r = .head l) (hl : l = l₁ ++ [a] ++ l₂) :
    h.prev a = some (l₁.getLastD r) ∧ h.next a = some (l₂.headD r) :=
  range_neighbours hF hr hl rfl rfl

/-- **The links follow the lists.** -/
theorem Step.exec (hs : Step F c v F') (hF : Represents h F) :
    ∃ h' n, (∀ rounds, n ≤ rounds → exec rounds h c = some (h', v)) ∧ Represents h' F' := by
  cases hs with
  | init hr => exact ⟨_, 0, fun _ _ => rfl, hF.empty hr⟩
  | nodeInit ha => exact ⟨_, 0, fun _ _ => rfl, hF.clear ha⟩
  | isLinkedTrue ha =>
    obtain ⟨b, hb⟩ := hF.next_some ha
    exact ⟨h, 0, fun _ _ => by simp [Dlist.exec, sysDnodeIsLinked, hb], hF⟩
  | isLinkedFalse ha =>
    exact ⟨h, 0, fun _ _ => by simp [Dlist.exec, sysDnodeIsLinked, hF.next_none ha], hF⟩
  | isHead hr hne =>
    exact ⟨h, 0, fun _ _ => by rw [Dlist.exec, sysDlistIsHead_eq (hF.ring hr) hne], hF⟩
  | isTail hr hne =>
    exact ⟨h, 0, fun _ _ => by rw [Dlist.exec, sysDlistIsTail_eq (hF.ring hr) hne], hF⟩
  | isEmpty hr => exact ⟨h, 0, fun _ _ => by rw [Dlist.exec, sysDlistIsEmpty_eq (hF.ring hr)], hF⟩
  | hasMultipleNodes hr =>
    exact ⟨h, 0, fun _ _ => by rw [Dlist.exec, sysDlistHasMultipleNodes_eq (hF.ring hr)], hF⟩
  | peekHead hr => exact ⟨h, 0, fun _ _ => by rw [Dlist.exec, sysDlistPeekHead_eq (hF.ring hr)], hF⟩
  | peekNext hr => exact ⟨h, 0, fun _ _ => by rw [Dlist.exec, sysDlistPeekNext_eq (hF.ring hr)], hF⟩
  | peekNextNull => exact ⟨h, 0, fun _ _ => rfl, hF⟩
  | peekPrev hr => exact ⟨h, 0, fun _ _ => by rw [Dlist.exec, sysDlistPeekPrev_eq (hF.ring hr)], hF⟩
  | peekPrevNull => exact ⟨h, 0, fun _ _ => rfl, hF⟩
  | peekTail hr => exact ⟨h, 0, fun _ _ => by rw [Dlist.exec, sysDlistPeekTail_eq (hF.ring hr)], hF⟩
  | append hr ha =>
    refine ⟨_, 0, fun _ _ => ?_, hF.insert hr (List.append_nil _).symm ha⟩
    have hne := List.ne_of_not_mem_cons (F.notMem_of_free hr ha)
    rw [Dlist.exec, sysDlistAppend_eq (hF.ring hr).prev_head hne]
    rfl
  | prepend hr ha =>
    refine ⟨_, 0, fun _ _ => ?_, hF.insert hr (List.nil_append _).symm ha⟩
    have hne := headD_ne hr (List.nil_append _).symm ha
    rw [Dlist.exec, sysDlistPrepend_eq (hF.ring hr).next_head hne]
    rfl
  | insert hr hl ha =>
    refine ⟨_, 0, fun _ _ => ?_, hF.insert hr hl ha⟩
    have hring := hF.ring hr
    rw [hl] at hring
    rw [Dlist.exec, sysDlistInsert_eq hring.prev_mem (headD_ne hr hl ha)]
    rfl
  | @insertAt _ l _ _ hr ha =>
    refine ⟨_, l.length + 1, fun rounds hrounds => ?_,
      hF.insert hr List.takeWhile_append_dropWhile.symm ha⟩
    rw [Dlist.exec, sysDlistInsertAt_eq (hF.ring hr) (F.notMem_of_free hr ha) hrounds]
    rfl
  | dequeue hr hl =>
    refine ⟨_, 0, fun _ _ => ?_, hF.extract hr hl⟩
    obtain ⟨hp, hn⟩ := neighbours hF hr hl
    rw [Dlist.exec, sysDlistDequeue_eq hp hn]
    rfl
  | remove hr hl =>
    refine ⟨_, 0, fun _ _ => ?_, hF.remove hr hl⟩
    obtain ⟨hp, hn⟩ := neighbours hF hr hl
    rw [Dlist.exec, sysDlistRemove_eq hp hn]
    rfl
  | rangePrepend hr hl hs ht hfirst hd =>
    refine ⟨_, 0, fun _ _ => ?_, hF.move hr hl hs ht hd (List.nil_append _).symm⟩
    obtain ⟨hp, hn⟩ := range_neighbours hF hr hl hs ht
    have hhead := ((hF.extract hr hl).ring hd).next_head
    have hne := ne_getLastD hr hl hs hfirst hd
    rw [next_connect hne] at hhead
    have hsm := F.extract_loose hr hl (List.mem_of_head? hs)
    rw [Dlist.exec, sysDlistRangePrepend_eq hp hn hhead]
    · rfl
    · exact headD_ne hd (List.nil_append _).symm (hsm ▸ .loose)
  | rangeAppend hr hl hs ht hlast hd =>
    refine ⟨_, 0, fun _ _ => ?_, hF.move hr hl hs ht hd (List.append_nil _).symm⟩
    obtain ⟨hp, hn⟩ := range_neighbours hF hr hl hs ht
    have htail := ((hF.extract hr hl).ring hd).prev_head
    have hne := ne_headD hr hl ht hlast hd
    rw [prev_connect hne] at htail
    have hsm := F.extract_loose hr hl (List.mem_of_head? hs)
    rw [Dlist.exec, sysDlistRangeAppend_eq hp hn htail]
    · rfl
    · exact List.ne_of_not_mem_cons ((F.extract hr hl).notMem_of_free hd (hsm ▸ .loose))
  | getNull hr =>
    refine ⟨h, 0, fun _ _ => ?_, hF⟩
    rw [Dlist.exec, sysDlistGet, sysDlistIsEmpty_eq (hF.ring hr)]
    rfl
  | get hr hl =>
    refine ⟨_, 0, fun _ _ => ?_, hF.remove hr hl⟩
    obtain ⟨hp, hn⟩ := neighbours hF hr hl
    have hring := hF.ring hr
    rw [Dlist.exec, sysDlistGet, sysDlistIsEmpty_eq hring, hring.next_head]
    subst hl
    simp only [List.nil_append, List.singleton_append, List.isEmpty_cons, Bool.false_eq_true,
      if_false, List.headD_cons, Option.bind_eq_bind, Option.bind_some, sysDlistRemove_eq hp hn]
    rfl
  | @len _ l hr =>
    refine ⟨h, l.length + 1, fun rounds hrounds => ?_, hF⟩
    rw [Dlist.exec, sysDlistLen_eq (hF.ring hr) hrounds]
    rfl
  | @forEach _ l _ hr =>
    refine ⟨h, l.length + 1, fun rounds hrounds => ?_, hF⟩
    rw [Dlist.exec, forEachNode_eq (hF.ring hr) hrounds]
    rfl

/-- **Every sequence of calls that keeps the contract** runs on the links without following a null
pointer, returns what it should, and leaves links that represent its lists. -/
theorem Steps.exec {cs : List (Call α × Value α)} (hs : Steps F cs F') (hF : Represents h F) :
    ∃ h', Executes h cs h' ∧ Represents h' F' := Calls.Steps.exec Step.exec hs hF

omit [DecidableEq α] in
theorem represents_loose : Represents h .loose := ⟨(nomatch ·), (nomatch ·)⟩

end

end HazelOsal.Dlist
