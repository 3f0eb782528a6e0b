import Mathlib.Data.List.Chain
import Mathlib.Data.List.Infix
import Mathlib.Data.List.Nodup
import Mathlib.Logic.Function.Basic

/-! # Doubly linked rings

A node has a link in each direction. `Ring h r l` says that from `r` on the links lead through `l`
and back to `r`, and the reverse links the other way round. Everything an intrusive list does to a
ring is to connect two nodes: `Ring.attach` links a path in at any place and `Ring.detach` takes one
out. -/

/-- The two links of every node; `none` is the null pointer. -/
structure Links (α : Type) where
  next : α → Option α
  prev : α → Option α

namespace Links

variable {α : Type} {h h' : Links α} {a b p n r s t x : α} {l l₁ l₂ m : List α}

/-- `b` comes after `a`. -/
def Linked (h : Links α) (a b : α) : Prop := h.next a = some b ∧ h.prev b = some a

/-- Each node of `l` is linked to the one after it. -/
def Path (h : Links α) (l : List α) : Prop := l.IsChain h.Linked

/-- Only the links between the nodes matter. -/
theorem Path.congr (hl : h.Path l) (hnext : ∀ x ∈ l.dropLast, h'.next x = h.next x)
    (hprev : ∀ x ∈ l.tail, h'.prev x = h.prev x) : h'.Path l := by
  induction l with
  | nil => exact .nil
  | cons a l ih =>
    cases l with
    | nil => exact .singleton a
    | cons b l =>
      obtain ⟨hab, hl⟩ := List.isChain_cons_cons.mp hl
      rw [List.dropLast_cons_cons] at hnext
      rw [List.tail_cons] at hprev
      refine List.isChain_cons_cons.mpr ⟨⟨?_, ?_⟩, ih hl (fun x hx => ?_) fun x hx => ?_⟩
      · rw [hnext a List.mem_cons_self, hab.1]
      · rw [hprev b List.mem_cons_self, hab.2]
      · exact hnext x (List.mem_cons_of_mem a hx)
      · exact hprev x (List.mem_of_mem_tail hx)

/-! ## Rings -/

/-- The ring of `r` and `l`, in this order. -/
structure Ring (h : Links α) (r : α) (l : List α) : Prop where
  path : h.Path (r :: l ++ [r])
  nodup : (r :: l).Nodup

/-- The end of a path that closes at `r` starts with what comes first in it. -/
private theorem head_concat : (l ++ [r]).head? = some (l.headD r) := by cases l <;> rfl

private theorem getLast_cons : (r :: l).getLast? = some (l.getLastD r) := by
  rw [List.getLast?_cons, List.getLastD_eq_getLast?]

/-- A ring is a path up to any place in it, a link there, and a path from there on. -/
theorem path_cut : h.Path (r :: (l₁ ++ l₂) ++ [r]) ↔
    h.Path (r :: l₁) ∧ h.Path (l₂ ++ [r]) ∧ h.Linked (l₁.getLastD r) (l₂.headD r) := by
  rw [Path, ← List.cons_append, List.append_assoc, List.isChain_append, getLast_cons, head_concat]
  simp only [Option.mem_some_iff, forall_eq', Path]

namespace Ring

theorem congr (hr : h.Ring r l) (hh : ∀ x ∈ r :: l, h'.next x = h.next x ∧ h'.prev x = h.prev x) :
    h'.Ring r l := by
  refine ⟨hr.path.congr (fun x hx => (hh x ?_).1) (fun x hx => (hh x ?_).2), hr.nodup⟩
  · rwa [List.dropLast_concat] at hx
  · rcases List.mem_append.mp hx with hx | hx
    · exact List.mem_cons_of_mem r hx
    · exact List.mem_singleton.mp hx ▸ List.mem_cons_self

/-- The nodes on either side of a place in a ring are linked. -/
theorem linked (hr : h.Ring r (l₁ ++ l₂)) : h.Linked (l₁.getLastD r) (l₂.headD r) :=
  (path_cut.mp hr.path).2.2

theorem next_head (hr : h.Ring r l) : h.next r = some (l.headD r) :=
  (linked (show h.Ring r ([] ++ l) from hr)).1

theorem prev_head (hr : h.Ring r l) : h.prev r = some (l.getLastD r) := by
  have hr : h.Ring r (l ++ []) := by rwa [List.append_nil]
  exact hr.linked.2

theorem next_mem (hr : h.Ring r (l₁ ++ a :: l₂)) : h.next a = some (l₂.headD r) := by
  have hr : h.Ring r ((l₁ ++ [a]) ++ l₂) := by rwa [List.append_assoc]
  simpa using hr.linked.1

theorem prev_mem (hr : h.Ring r (l₁ ++ a :: l₂)) : h.prev a = some (l₁.getLastD r) :=
  hr.linked.2

end Ring

/-! ## Connecting two nodes -/

variable [DecidableEq α]

/-- `a` is followed by `b`. -/
def connect (h : Links α) (a b : α) : Links α where
  next := Function.update h.next a (some b)
  prev := Function.update h.prev b (some a)

/-- A node with null links. -/
def clear (h : Links α) (a : α) : Links α where
  next := Function.update h.next a none
  prev := Function.update h.prev a none

theorem connect_linked : (h.connect a b).Linked a b :=
  ⟨Function.update_self .., Function.update_self ..⟩

theorem next_connect (hx : x ≠ a) : (h.connect a b).next x = h.next x :=
  Function.update_of_ne hx ..

theorem prev_connect (hx : x ≠ b) : (h.connect a b).prev x = h.prev x :=
  Function.update_of_ne hx ..

theorem Linked.connect (hx : h.Linked x r) (ha : x ≠ a) (hb : r ≠ b) :
    (h.connect a b).Linked x r :=
  ⟨(next_connect ha).trans hx.1, (prev_connect hb).trans hx.2⟩

theorem Path.connect (hl : h.Path l) (ha : a ∉ l.dropLast) (hb : b ∉ l.tail) :
    (h.connect a b).Path l :=
  hl.congr (fun x hx => next_connect fun (he : x = a) => ha (he ▸ hx))
    fun x hx => prev_connect fun (he : x = b) => hb (he ▸ hx)

namespace Ring

theorem connect (hr : h.Ring r l) (ha : a ∉ r :: l) (hb : b ∉ r :: l) :
    (h.connect a b).Ring r l :=
  hr.congr fun x hx =>
    ⟨next_connect fun (he : x = a) => ha (he ▸ hx), prev_connect fun (he : x = b) => hb (he ▸ hx)⟩

theorem clear (hr : h.Ring r l) (ha : a ∉ r :: l) : (h.clear a).Ring r l :=
  hr.congr fun x hx =>
    ⟨Function.update_of_ne (fun (he : x = a) => ha (he ▸ hx)) ..,
      Function.update_of_ne (fun (he : x = a) => ha (he ▸ hx)) ..⟩

end Ring

omit [DecidableEq α] in
private theorem notMem_dropLast (hl : l.Nodup) (ht : l.getLast? = some t) : t ∉ l.dropLast := by
  obtain ⟨l, rfl⟩ := List.getLast?_eq_some_iff.mp ht
  rw [List.dropLast_concat]
  exact fun hm => (List.nodup_append.mp hl).2.2 t hm t List.mem_cons_self rfl

omit [DecidableEq α] in
private theorem notMem_tail (hl : l.Nodup) (hs : l.head? = some s) : s ∉ l.tail := by
  obtain ⟨l, rfl⟩ := List.head?_eq_some_iff.mp hs
  exact (List.nodup_cons.mp hl).1

/-- Where in a ring the nodes on either side of the piece `m` are not. -/
private structure Sides (r : α) (l₁ m l₂ : List α) : Prop where
  last_front : l₁.getLastD r ∉ (r :: l₁).dropLast
  last_mid : l₁.getLastD r ∉ m
  last_back : l₁.getLastD r ∉ (l₂ ++ [r]).dropLast
  head_front : l₂.headD r ∉ l₁
  head_mid : l₂.headD r ∉ m
  head_back : l₂.headD r ∉ (l₂ ++ [r]).tail
  mid_front : ∀ x ∈ m, x ∉ r :: l₁
  mid_back : ∀ x ∈ m, x ∉ l₂ ++ [r]

omit [DecidableEq α] in
private theorem sides (hnodup : (r :: (l₁ ++ m ++ l₂)).Nodup) : Sides r l₁ m l₂ := by
  have hnodup : ((r :: l₁) ++ m ++ l₂).Nodup := hnodup
  obtain ⟨hleft, hback, hleft₂⟩ := List.nodup_append.mp hnodup
  obtain ⟨hfront, -, hmid⟩ := List.nodup_append.mp hleft
  have hclosed : (l₂ ++ [r]).Nodup :=
    List.nodup_append.mpr ⟨hback, List.nodup_singleton r, fun a ha b hb =>
      List.mem_singleton.mp hb ▸ (hleft₂ r List.mem_cons_self a ha).symm⟩
  have hp : l₁.getLastD r ∈ r :: l₁ := List.getLastD_mem_cons
  have hn : l₂.headD r = r ∨ l₂.headD r ∈ l₂ := by
    cases l₂ with
    | nil => exact .inl rfl
    | cons a l₂ => exact .inr List.mem_cons_self
  constructor
  case last_front => exact notMem_dropLast hfront getLast_cons
  case last_mid => exact fun hmem => hmid _ hp _ hmem rfl
  case last_back =>
    rw [List.dropLast_concat]
    exact fun hmem => hleft₂ _ (List.mem_append_left m hp) _ hmem rfl
  case head_front =>
    intro hmem
    rcases hn with hn | hn
    · exact (List.nodup_cons.mp hfront).1 (hn ▸ hmem)
    · exact hleft₂ _ (List.mem_append_left m (List.mem_cons_of_mem r hmem)) _ hn rfl
  case head_mid =>
    intro hmem
    rcases hn with hn | hn
    · exact hmid r List.mem_cons_self _ hmem hn.symm
    · exact hleft₂ _ (List.mem_append_right (r :: l₁) hmem) _ hn rfl
  case head_back => exact notMem_tail hclosed head_concat
  case mid_front => exact fun x hx hmem => hmid x hmem x hx rfl
  case mid_back =>
    intro x hx hmem
    rcases List.mem_append.mp hmem with hmem | hmem
    · exact hleft₂ x (List.mem_append_right (r :: l₁) hx) x hmem rfl
    · exact hmid r List.mem_cons_self x hx (List.mem_singleton.mp hmem).symm

namespace Ring

/-- **A path enters a ring** between two of its nodes. -/
theorem attach (hr : h.Ring r (l₁ ++ l₂)) (hm : h.Path m) (hs : m.head? = some s)
    (ht : m.getLast? = some t) (hnew : (r :: (l₁ ++ m ++ l₂)).Nodup) :
    ((h.connect t (l₂.headD r)).connect (l₁.getLastD r) s).Ring r (l₁ ++ m ++ l₂) := by
  refine ⟨?_, hnew⟩
  obtain ⟨h₁, h₂, -⟩ := path_cut.mp hr.path
  have hd := sides hnew
  have hinfix : m.Sublist (l₁ ++ m ++ l₂) := (List.infix_append l₁ m l₂).sublist
  have hndm : m.Nodup := (List.nodup_cons.mp hnew).2.sublist hinfix
  have hsm : s ∈ m := List.mem_of_head? hs
  have htm : t ∈ m := List.mem_of_getLast? ht
  rw [List.append_assoc]
  refine path_cut.mpr ⟨?_, ?_, ?_⟩
  · refine (h₁.connect (fun hmem => ?_) hd.head_front).connect hd.last_front fun hmem => ?_
    · exact hd.mid_front t htm (List.mem_of_mem_dropLast hmem)
    · exact hd.mid_front s hsm (List.mem_cons_of_mem r hmem)
  · rw [List.append_assoc]
    refine List.isChain_append.mpr ⟨?_, ?_, ?_⟩
    · refine (hm.connect (notMem_dropLast hndm ht) fun hmem => ?_).connect (fun hmem => ?_)
        (notMem_tail hndm hs)
      · exact hd.head_mid (List.mem_of_mem_tail hmem)
      · exact hd.last_mid (List.mem_of_mem_dropLast hmem)
    · refine (h₂.connect (fun hmem => ?_) hd.head_back).connect hd.last_back fun hmem => ?_
      · exact hd.mid_back t htm (List.mem_of_mem_dropLast hmem)
      · exact hd.mid_back s hsm (List.mem_of_mem_tail hmem)
    · rw [ht, head_concat]
      rintro _ ⟨⟩ _ ⟨⟩
      refine connect_linked.connect (fun he => ?_) fun he => ?_
      · exact hd.last_mid (he ▸ htm)
      · exact hd.head_mid (he ▸ hsm)
  · obtain ⟨m, rfl⟩ := List.head?_eq_some_iff.mp hs
    exact connect_linked

/-- **A path leaves a ring**, and stays a path. -/
theorem detach (hr : h.Ring r (l₁ ++ m ++ l₂)) :
    (h.connect (l₁.getLastD r) (l₂.headD r)).Ring r (l₁ ++ l₂) ∧
      (h.connect (l₁.getLastD r) (l₂.headD r)).Path m := by
  have hd := sides hr.nodup
  have hpath : h.Path (r :: (l₁ ++ (m ++ l₂)) ++ [r]) := by
    rw [← List.append_assoc]
    exact hr.path
  obtain ⟨h₁, h₂, -⟩ := path_cut.mp hpath
  rw [List.append_assoc] at h₂
  obtain ⟨hm, h₂, -⟩ := List.isChain_append.mp h₂
  have hsub : (r :: (l₁ ++ l₂)).Sublist (r :: (l₁ ++ m ++ l₂)) :=
    ((List.sublist_append_left l₁ m).append (List.Sublist.refl l₂)).cons_cons r
  refine ⟨⟨path_cut.mpr ⟨?_, ?_, connect_linked⟩, hr.nodup.sublist hsub⟩, ?_⟩
  · exact h₁.connect hd.last_front hd.head_front
  · exact Path.connect h₂ hd.last_back hd.head_back
  · refine Path.connect hm (fun hmem => ?_) fun hmem => ?_
    · exact hd.last_mid (List.mem_of_mem_dropLast hmem)
    · exact hd.head_mid (List.mem_of_mem_tail hmem)

end Ring

end Links
