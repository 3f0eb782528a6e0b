import HazelOsal.Library.DoublyLinked

/-! # Families of disjoint lists

Some addresses head a list, and every other one is on at most one list, once. A `Family` is such an
arrangement, and `Represents h F` says that the links of `h` make each of its lists a ring. A piece
moves between a list and the nodes on none by `attach` and `detach`, and the heap follows with one
or two connections. -/

/-- What an address is: the head of a list, on the list of a head, a node that says that it is on no
list, or one on no list that does not say so. -/
inductive Place (α : Type) where
  | head (l : List α)
  | member (r : α)
  | unlinked
  | loose
  deriving DecidableEq

namespace Place

/-- On no list. -/
inductive Free {α : Type} : Place α → Prop
  | unlinked : Free .unlinked
  | loose : Free .loose

/-- On no list and without one. -/
inductive Vacant {α : Type} : Place α → Prop
  | head : Vacant (.head [])
  | free (h : p.Free) : Vacant p

end Place

/-- Lists that share no node. -/
@[ext] structure Family (α : Type) where
  place : α → Place α
  nodup : place r = .head l → l.Nodup
  mem : place r = .head l → (a ∈ l ↔ place a = .member r)
  headed : place a = .member r → ∃ l, place r = .head l

namespace Family

variable {α : Type} {F : Family α} {a r s x : α} {l l₁ l₂ m : List α} {p : Place α}

theorem nodup_cons (hr : F.place r = .head l) : (r :: l).Nodup := by
  refine List.nodup_cons.mpr ⟨fun hmem => ?_, F.nodup hr⟩
  rw [F.mem hr, hr] at hmem
  cases hmem

/-- The head of a node's list. -/
theorem place_of_mem (hr : F.place r = .head l) (hx : x ∈ r :: l) :
    x = r ∨ F.place x = .member r := by
  rcases List.mem_cons.mp hx with hx | hx
  · exact .inl hx
  · exact .inr ((F.mem hr).mp hx)

theorem notMem_of_free (hr : F.place r = .head l) (ha : (F.place a).Free) : a ∉ r :: l := by
  intro hmem
  rcases F.place_of_mem hr hmem with rfl | hmem
  · rw [hr] at ha
    cases ha
  · rw [hmem] at ha
    cases ha

/-- Two lists have nothing in common. -/
theorem disjoint {k : List α} (hr : F.place r = .head l) (hs : F.place s = .head k)
    (hne : r ≠ s) (hx : x ∈ r :: l) : x ∉ s :: k := by
  intro hx'
  rcases F.place_of_mem hr hx with rfl | hx <;> rcases F.place_of_mem hs hx' with rfl | hx'
  · exact hne rfl
  · rw [hr] at hx'
    cases hx'
  · rw [hs] at hx
    cases hx
  · rw [hx] at hx'
    exact hne (Place.member.inj hx')

/-- No lists. -/
def loose : Family α where
  place _ := .loose
  nodup hr := nomatch hr
  mem hr := nomatch hr
  headed ha := nomatch ha

variable [DecidableEq α]

/-- The places once the list of `r` is `l'` instead of `l`. -/
def relisted (place : α → Place α) (r : α) (l l' : List α) (x : α) : Place α :=
  if x = r then .head l' else if x ∈ l' then .member r else if x ∈ l then .loose else place x

section
variable {place : α → Place α} {l' k : List α}

theorem relisted_eq_head (hx : relisted place r l l' x = .head k) :
    x = r ∧ k = l' ∨ x ≠ r ∧ place x = .head k := by
  unfold relisted at hx
  split at hx
  case isTrue he => cases hx; exact .inl ⟨he, rfl⟩
  case isFalse hne =>
    split at hx
    case isTrue => cases hx
    case isFalse =>
      split at hx
      case isTrue => cases hx
      case isFalse => exact .inr ⟨hne, hx⟩

theorem relisted_eq_member (hx : relisted place r l l' x = .member s) :
    x ∈ l' ∧ s = r ∨ x ∉ l ∧ place x = .member s := by
  unfold relisted at hx
  split at hx
  case isTrue => cases hx
  case isFalse =>
    split at hx
    case isTrue hmem => cases hx; exact .inl ⟨hmem, rfl⟩
    case isFalse =>
      split at hx
      case isTrue => cases hx
      case isFalse hx' => exact .inr ⟨hx', hx⟩

theorem relisted_eq_unlinked (hx : relisted place r l l' x = .unlinked) :
    x ≠ r ∧ x ∉ l' ∧ place x = .unlinked := by
  unfold relisted at hx
  split at hx
  case isTrue => cases hx
  case isFalse hne =>
    split at hx
    case isTrue => cases hx
    case isFalse hx' =>
      split at hx
      case isTrue => cases hx
      case isFalse => exact ⟨hne, hx', hx⟩

theorem relisted_other (hr : x ≠ r) (hl' : x ∉ l') (hl : x ∉ l) :
    relisted place r l l' x = place x := by
  rw [relisted, if_neg hr, if_neg hl', if_neg hl]

end

/-- The list of `r` becomes `l'`: free nodes may come in, and those that go out are loose. -/
def relist (F : Family α) (hr : F.place r = .head l) (l' : List α) (hnodup : l'.Nodup)
    (hmem : ∀ a ∈ l', a ∈ l ∨ (F.place a).Free) : Family α where
  place := relisted F.place r l l'
  nodup hs := by
    rcases relisted_eq_head hs with ⟨-, rfl⟩ | ⟨-, hs⟩
    · exact hnodup
    · exact F.nodup hs
  mem {s k a} hs := by
    have hnot : r ∉ l' := fun h => by
      rcases hmem r h with h | h
      · exact (List.nodup_cons.mp (F.nodup_cons hr)).1 h
      · exact F.notMem_of_free hr h List.mem_cons_self
    rcases relisted_eq_head hs with ⟨rfl, rfl⟩ | ⟨hne, hs⟩
    · constructor
      · intro ha
        rw [relisted, if_neg fun (he : a = s) => hnot (he ▸ ha), if_pos ha]
      · intro ha
        rcases relisted_eq_member ha with ⟨ha, -⟩ | ⟨hl, ha⟩
        · exact ha
        · exact absurd ((F.mem hr).mpr ha) hl
    · constructor
      · intro ha
        have hl := F.disjoint hs hr hne (List.mem_cons_of_mem s ha)
        rw [relisted_other, (F.mem hs).mp ha]
        · exact fun he => hl (he ▸ List.mem_cons_self)
        · intro ha'
          rcases hmem a ha' with ha' | hfree
          · exact hl (List.mem_cons_of_mem r ha')
          · exact F.notMem_of_free hs hfree (List.mem_cons_of_mem s ha)
        · exact fun h => hl (List.mem_cons_of_mem r h)
      · intro ha
        rcases relisted_eq_member ha with ⟨-, he⟩ | ⟨-, ha⟩
        · exact absurd he hne
        · exact (F.mem hs).mpr ha
  headed {a s} ha := by
    by_cases hs : s = r
    · exact ⟨l', if_pos hs⟩
    · rcases relisted_eq_member ha with ⟨-, he⟩ | ⟨-, ha⟩
      · exact absurd he hs
      · obtain ⟨k, hk⟩ := F.headed ha
        refine ⟨k, (relisted_other hs (fun h => ?_) fun h => ?_).trans hk⟩
        · rcases hmem s h with h | h
          · rw [(F.mem hr).mp h] at hk
            cases hk
          · rw [hk] at h
            cases h
        · rw [(F.mem hr).mp h] at hk
          cases hk

omit [DecidableEq α] in
private theorem nodup_splice (hr : F.place r = .head l) (hl : l = l₁ ++ l₂) (hm : m.Nodup)
    (hfree : ∀ a ∈ m, (F.place a).Free) : (l₁ ++ m ++ l₂).Nodup := by
  have hperm : (l₁ ++ m ++ l₂).Perm (l₁ ++ l₂ ++ m) := by
    rw [List.append_assoc, List.append_assoc]
    exact List.perm_append_comm.append_left l₁
  refine hperm.nodup_iff.mpr (List.nodup_append.mpr ⟨hl ▸ F.nodup hr, hm, fun a ha b hb => ?_⟩)
  rintro rfl
  exact F.notMem_of_free hr (hfree a hb) (List.mem_cons_of_mem r (hl ▸ ha))

/-- Free nodes enter the list of `r` in one piece. -/
def splice (F : Family α) (hr : F.place r = .head l) (hl : l = l₁ ++ l₂) (hm : m.Nodup)
    (hfree : ∀ a ∈ m, (F.place a).Free) : Family α :=
  F.relist hr (l₁ ++ m ++ l₂) (nodup_splice hr hl hm hfree) fun a ha => by
    simp only [List.mem_append] at ha
    rcases ha with (ha | ha) | ha
    · exact .inl (hl ▸ List.mem_append_left l₂ ha)
    · exact .inr (hfree a ha)
    · exact .inl (hl ▸ List.mem_append_right l₁ ha)

omit [DecidableEq α] in
private theorem sublist_extract : (l₁ ++ l₂).Sublist (l₁ ++ m ++ l₂) :=
  (List.sublist_append_left l₁ m).append (List.Sublist.refl l₂)

/-- The piece `m` leaves the list of `r`. -/
def extract (F : Family α) (hr : F.place r = .head l) (hl : l = l₁ ++ m ++ l₂) : Family α :=
  F.relist hr (l₁ ++ l₂) ((F.nodup hr).sublist (hl ▸ sublist_extract)) fun _ ha =>
    .inl (hl ▸ sublist_extract.subset ha)

omit [DecidableEq α] in
/-- No node is on the list of a vacant address. -/
theorem not_member (hr : (F.place r).Vacant) : F.place a ≠ .member r := by
  intro ha
  obtain ⟨l, hl⟩ := F.headed ha
  rw [hl] at hr
  cases hr with
  | head => exact List.not_mem_nil ((F.mem hl).mpr ha)
  | free hr => cases hr

omit [DecidableEq α] in
/-- A vacant address is on no list but its own. -/
theorem notMem_of_vacant (hr : (F.place r).Vacant) (hx : F.place x = .head l) (hne : r ≠ x) :
    r ∉ x :: l := by
  intro hmem
  rcases List.mem_cons.mp hmem with hmem | hmem
  · exact hne hmem
  · rw [(F.mem hx).mp hmem] at hr
    cases hr with
    | free hr => cases hr

/-- An address with no list and on none is made another one. -/
def assign (F : Family α) (r : α) (p : Place α) (hr : (F.place r).Vacant) (hp : p.Vacant) :
    Family α where
  place := Function.update F.place r p
  nodup {s k} hs := by
    rw [Function.update_apply] at hs
    split at hs
    case isTrue =>
      subst hs
      cases hp with
      | head => exact List.nodup_nil
      | free hp => cases hp
    case isFalse => exact F.nodup hs
  mem {s k a} hs := by
    have hr' : p ≠ .member s := fun he => by
      rw [he] at hp
      cases hp with
      | free hp => cases hp
    rw [Function.update_apply] at hs
    rw [Function.update_apply]
    split at hs
    case isTrue he =>
      subst hs he
      have hk : k = [] := by
        cases hp with
        | head => rfl
        | free hp => cases hp
      subst hk
      split
      case isTrue => exact ⟨fun h => absurd h List.not_mem_nil, fun h => nomatch h⟩
      case isFalse => exact ⟨fun h => absurd h List.not_mem_nil, fun h => absurd h (not_member hr)⟩
    case isFalse hne =>
      split
      case isTrue he =>
        subst he
        refine ⟨fun h => ?_, fun h => absurd h hr'⟩
        exact absurd (List.mem_cons_of_mem s h) (notMem_of_vacant hr hs (Ne.symm hne))
      case isFalse => exact F.mem hs
  headed {a s} ha := by
    rw [Function.update_apply] at ha
    split at ha
    case isTrue =>
      subst ha
      cases hp with
      | free hp => cases hp
    case isFalse =>
      obtain ⟨k, hk⟩ := F.headed ha
      refine ⟨k, ?_⟩
      rw [Function.update_of_ne, hk]
      rintro rfl
      exact not_member hr ha

theorem assign_place {hr : (F.place r).Vacant} {hp : p.Vacant} (hx : x ≠ r) :
    (F.assign r p hr hp).place x = F.place x := Function.update_of_ne hx ..

/-- A free node enters the list of `r`. -/
def insert (F : Family α) (hr : F.place r = .head l) (hl : l = l₁ ++ l₂) (ha : (F.place a).Free) :
    Family α :=
  F.splice hr hl (List.nodup_singleton a) fun _ hb => List.mem_singleton.mp hb ▸ ha

theorem insert_head (hr : F.place r = .head l) (hl : l = l₁ ++ l₂) (ha : (F.place a).Free) :
    (F.insert hr hl ha).place r = .head (l₁ ++ a :: l₂) := by
  have hplace : (F.insert hr hl ha).place r = .head (l₁ ++ [a] ++ l₂) := if_pos rfl
  rw [hplace, List.append_assoc]
  rfl

/-- No other address is different. -/
theorem insert_place (hr : F.place r = .head l) (hl : l = l₁ ++ l₂) (ha : (F.place a).Free)
    (hx : x ≠ r) : (F.insert hr hl ha).place x = if x = a then .member r else F.place x := by
  refine (if_neg hx).trans ?_
  by_cases hxa : x = a
  · rw [if_pos hxa, if_pos (by simp [hxa])]
  · rw [if_neg hxa]
    by_cases hxl : x ∈ l
    · rw [(F.mem hr).mp hxl, if_pos]
      simpa [hl, hxa] using hxl
    · rw [if_neg fun h => hxl (by simpa [hxa, hl] using h), if_neg hxl]

/-- What has left a list is loose. -/
theorem extract_loose (hr : F.place r = .head l) (hl : l = l₁ ++ m ++ l₂) (ha : a ∈ m) :
    (F.extract hr hl).place a = .loose := by
  have hnodup : (r :: (l₁ ++ m ++ l₂)).Nodup := hl ▸ F.nodup_cons hr
  have hne : a ≠ r := fun he => (List.nodup_cons.mp hnodup).1 (by simp [← he, ha])
  have hnot : a ∉ l₁ ++ l₂ := by
    have hl := (List.nodup_cons.mp hnodup).2
    rw [List.append_assoc] at hl
    obtain ⟨-, hright, hleft⟩ := List.nodup_append.mp hl
    refine fun hmem => (List.mem_append.mp hmem).elim (fun h => ?_) fun h => ?_
    · exact hleft a h a (List.mem_append_left l₂ ha) rfl
    · exact (List.nodup_append.mp hright).2.2 a ha a h rfl
  exact (if_neg hne).trans ((if_neg hnot).trans (if_pos (by simp [hl, ha])))

/-- A node leaves the list of `r`, and says so. -/
def remove (F : Family α) (hr : F.place r = .head l) (hl : l = l₁ ++ [a] ++ l₂) : Family α :=
  (F.extract hr hl).assign a .unlinked
    (F.extract_loose hr hl List.mem_cons_self ▸ .free .loose) (.free .unlinked)

theorem remove_head (hr : F.place r = .head l) (hl : l = l₁ ++ [a] ++ l₂) :
    (F.remove hr hl).place r = .head (l₁ ++ l₂) := by
  have hne : r ≠ a := fun he => (List.nodup_cons.mp (F.nodup_cons hr)).1 (by simp [hl, he])
  exact (Function.update_of_ne hne ..).trans (if_pos rfl)

/-- No other address is different. -/
theorem remove_place (hr : F.place r = .head l) (hl : l = l₁ ++ [a] ++ l₂) (hx : x ≠ r) :
    (F.remove hr hl).place x = if x = a then .unlinked else F.place x := by
  refine (Function.update_apply ..).trans ?_
  by_cases hxa : x = a
  · rw [if_pos hxa, if_pos hxa]
  · rw [if_neg hxa, if_neg hxa]
    refine (if_neg hx).trans ?_
    by_cases hxl : x ∈ l
    · rw [(F.mem hr).mp hxl, if_pos]
      simpa [hl, hxa] using hxl
    · rw [if_neg fun h => hxl (hl ▸ sublist_extract.subset h), if_neg hxl]

/-- A piece of the list of `r` moves to a place in the list of `s`, perhaps the same one. -/
def move (F : Family α) (hr : F.place r = .head l) (hl : l = l₁ ++ m ++ l₂) {k k₁ k₂ : List α}
    (hs : (F.extract hr hl).place s = .head k) (hk : k = k₁ ++ k₂) : Family α :=
  (F.extract hr hl).splice hs hk
    (((F.nodup hr).sublist (hl ▸ (List.infix_append l₁ m l₂).sublist)))
    fun _ ha => F.extract_loose hr hl ha ▸ .loose

end Family

/-! ## Representation -/

/-- The links of `h` are those of the lists of `F`, and null where a node says it is on none. -/
structure Represents {α : Type} (h : Links α) (F : Family α) : Prop where
  ring : F.place r = .head l → h.Ring r l
  unlinked : F.place a = .unlinked → h.next a = none ∧ h.prev a = none

namespace Represents

open Links

variable {α : Type} {h h' : Links α} {F : Family α} {a r s t : α} {l l' l₁ l₂ m : List α}

private theorem getLastD_mem : l₁.getLastD r ∈ r :: (l₁ ++ l₂) :=
  List.mem_append_left l₂ (List.getLastD_mem_cons (l := l₁))

private theorem headD_mem : l₂.headD r ∈ r :: (l₁ ++ l₂) := by
  cases l₂ with
  | nil => exact List.mem_cons_self
  | cons a l₂ => exact List.mem_cons_of_mem r (List.mem_append_right l₁ List.mem_cons_self)

theorem next_none (hF : Represents h F) (ha : F.place a = .unlinked) : h.next a = none :=
  (hF.unlinked ha).1

/-- A node on a list is linked. -/
theorem next_some (hF : Represents h F) (ha : F.place a = .member r) : ∃ b, h.next a = some b := by
  obtain ⟨l, hr⟩ := F.headed ha
  obtain ⟨l₁, l₂, rfl⟩ := List.append_of_mem ((F.mem hr).mpr ha)
  exact ⟨_, (hF.ring hr).next_mem⟩

variable [DecidableEq α]

/-- Only the links of one list and of the nodes that come into it are other ones. -/
theorem relist (hF : Represents h F) (hr : F.place r = .head l) (hnodup : l'.Nodup)
    (hmem : ∀ a ∈ l', a ∈ l ∨ (F.place a).Free) (hring : h'.Ring r l')
    (hsame : ∀ x, x ∉ r :: l → x ∉ l' → h'.next x = h.next x ∧ h'.prev x = h.prev x) :
    Represents h' (F.relist hr l' hnodup hmem) where
  ring {s k} hs := by
    rcases Family.relisted_eq_head hs with ⟨rfl, rfl⟩ | ⟨hne, hs⟩
    · exact hring
    · refine (hF.ring hs).congr fun x hx => ?_
      have hl := F.disjoint hs hr hne hx
      refine hsame x hl fun hx' => ?_
      rcases hmem x hx' with hx' | hfree
      · exact hl (List.mem_cons_of_mem r hx')
      · exact F.notMem_of_free hs hfree hx
  unlinked {a} ha := by
    obtain ⟨-, hl', ha⟩ := Family.relisted_eq_unlinked ha
    have hfree : (F.place a).Free := ha ▸ .unlinked
    obtain ⟨hn, hp⟩ := hsame a (F.notMem_of_free hr hfree) hl'
    exact ⟨hn.trans (hF.unlinked ha).1, hp.trans (hF.unlinked ha).2⟩

/-- **Free nodes enter a list**, linked in a path: two nodes are connected at either end. -/
theorem splice (hF : Represents h F) (hr : F.place r = .head l) (hl : l = l₁ ++ l₂)
    (hm : m.Nodup) (hfree : ∀ a ∈ m, (F.place a).Free) (hpath : h.Path m)
    (hs : m.head? = some s) (ht : m.getLast? = some t) :
    Represents ((h.connect t (l₂.headD r)).connect (l₁.getLastD r) s)
      (F.splice hr hl hm hfree) := by
  have hcons := (F.splice hr hl hm hfree).nodup_cons (if_pos rfl)
  have hring : h.Ring r (l₁ ++ l₂) := hl ▸ hF.ring hr
  refine hF.relist hr _ _ (hring.attach hpath hs ht hcons) fun x hx hx' => ?_
  have hxt : x ≠ t := fun he => hx' (by simp [he, List.mem_of_getLast? ht])
  have hxs : x ≠ s := fun he => hx' (by simp [he, List.mem_of_head? hs])
  have hxp : x ≠ l₁.getLastD r := fun he => hx (he ▸ hl ▸ getLastD_mem)
  have hxn : x ≠ l₂.headD r := fun he => hx (he ▸ hl ▸ headD_mem)
  exact ⟨(next_connect hxp).trans (next_connect hxt), (prev_connect hxs).trans (prev_connect hxn)⟩

/-- **A piece leaves a list**: the nodes on either side of it are connected. -/
theorem extract (hF : Represents h F) (hr : F.place r = .head l) (hl : l = l₁ ++ m ++ l₂) :
    Represents (h.connect (l₁.getLastD r) (l₂.headD r)) (F.extract hr hl) := by
  have hring : h.Ring r (l₁ ++ m ++ l₂) := hl ▸ hF.ring hr
  refine hF.relist hr _ _ hring.detach.1 fun x hx hx' => ?_
  have hcons : x ∉ r :: (l₁ ++ l₂) :=
    List.not_mem_cons_of_ne_of_not_mem (List.ne_of_not_mem_cons hx) hx'
  have hxp : x ≠ l₁.getLastD r := fun he => hcons (he ▸ getLastD_mem)
  have hxn : x ≠ l₂.headD r := fun he => hcons (he ▸ headD_mem)
  exact ⟨next_connect hxp, prev_connect hxn⟩

/-- **A node is given null links.** -/
theorem clear (hF : Represents h F) (ha : (F.place a).Vacant) :
    Represents (h.clear a) (F.assign a .unlinked ha (.free .unlinked)) where
  ring {s k} hs := by
    have hs : Function.update F.place a .unlinked s = .head k := hs
    rw [Function.update_apply] at hs
    split at hs
    case isTrue => cases hs
    case isFalse hne => exact (hF.ring hs).clear (Family.notMem_of_vacant ha hs (Ne.symm hne))
  unlinked {b} hb := by
    have hb : Function.update F.place a .unlinked b = .unlinked := hb
    rw [Function.update_apply] at hb
    simp only [Links.clear, Function.update_apply]
    split
    case isTrue => exact ⟨rfl, rfl⟩
    case isFalse hne => exact hF.unlinked (by rwa [if_neg hne] at hb)

/-- A free node enters a list. -/
theorem insert (hF : Represents h F) (hr : F.place r = .head l) (hl : l = l₁ ++ l₂)
    (ha : (F.place a).Free) :
    Represents ((h.connect a (l₂.headD r)).connect (l₁.getLastD r) a) (F.insert hr hl ha) :=
  hF.splice hr hl _ _ (.singleton a) rfl rfl

/-- A node leaves a list, and says so. -/
theorem remove (hF : Represents h F) (hr : F.place r = .head l) (hl : l = l₁ ++ [a] ++ l₂) :
    Represents ((h.connect (l₁.getLastD r) (l₂.headD r)).clear a) (F.remove hr hl) :=
  (hF.extract hr hl).clear _

/-- A piece moves. -/
theorem move {k k₁ k₂ : List α} {d : α} (hF : Represents h F) (hr : F.place r = .head l)
    (hl : l = l₁ ++ m ++ l₂) (hs : m.head? = some s) (ht : m.getLast? = some t)
    (hd : (F.extract hr hl).place d = .head k) (hk : k = k₁ ++ k₂) :
    Represents (((h.connect (l₁.getLastD r) (l₂.headD r)).connect t (k₂.headD d)).connect
      (k₁.getLastD d) s) (F.move hr hl hd hk) :=
  (hF.extract hr hl).splice hd hk _ _ (hl ▸ hF.ring hr).detach.2 hs ht

/-- **A list head is linked to itself.** -/
theorem empty (hF : Represents h F) (hr : (F.place r).Vacant) :
    Represents (h.connect r r) (F.assign r (.head []) hr .head) where
  ring {s k} hs := by
    have hs : Function.update F.place r (.head []) s = .head k := hs
    rw [Function.update_apply] at hs
    split at hs
    case isTrue he =>
      cases hs
      subst he
      refine ⟨List.isChain_cons_cons.mpr ⟨connect_linked, .singleton _⟩, List.nodup_singleton _⟩
    case isFalse hne =>
      have hnot := Family.notMem_of_vacant hr hs (Ne.symm hne)
      exact (hF.ring hs).connect hnot hnot
  unlinked {b} hb := by
    have hb : Function.update F.place r (.head []) b = .unlinked := hb
    rw [Function.update_apply] at hb
    split at hb
    case isTrue => cases hb
    case isFalse hne =>
      exact ⟨(next_connect hne).trans (hF.unlinked hb).1,
        (prev_connect hne).trans (hF.unlinked hb).2⟩

end Represents

/-! ## Lists by their heads -/

namespace Family

/-- The lists of `F` are `lists`, and every node that is on none says so. -/
structure Arranges {α : Type} (F : Family α) (lists : α → Option (List α)) : Prop where
  head : lists r = some l → F.place r = .head l
  node : lists a = none → F.place a = .unlinked ∨ ∃ r, F.place a = .member r

/-- `a` is a node and on no list. -/
structure OnNone {α : Type} (lists : α → Option (List α)) (a : α) : Prop where
  node : lists a = none
  notMem : lists r = some l → a ∉ l

variable {α : Type} {F : Family α} {lists : α → Option (List α)} {a r : α} {l : List α}

theorem Arranges.eq_of_head (h : F.Arranges lists) (hr : F.place r = .head l) :
    lists r = some l := by
  cases hl : lists r with
  | none =>
    rcases h.node hl with hn | ⟨s, hn⟩
    · rw [hr] at hn
      cases hn
    · rw [hr] at hn
      cases hn
  | some k =>
    rw [h.head hl] at hr
    rw [Place.head.inj hr]

/-- A node on no list says so. -/
theorem Arranges.unlinked (h : F.Arranges lists) (ha : OnNone lists a) :
    F.place a = .unlinked := by
  rcases h.node ha.node with hn | ⟨r, hn⟩
  · exact hn
  · obtain ⟨l, hr⟩ := F.headed hn
    exact absurd ((F.mem hr).mpr hn) (ha.notMem (h.eq_of_head hr))

variable [DecidableEq α]

/-- One list is another one, and the nodes that are not as before are on a list or say that they
are on none. -/
theorem Arranges.update {F' : Family α} (h : F.Arranges lists) (hr : F'.place r = .head l)
    (hother : ∀ x, x ≠ r → F'.place x = F.place x ∨
      lists x = none ∧ (F'.place x = .unlinked ∨ ∃ s, F'.place x = .member s)) :
    F'.Arranges (Function.update lists r (some l)) where
  head {s k} hs := by
    rw [Function.update_apply] at hs
    split at hs
    case isTrue he => cases hs; exact he ▸ hr
    case isFalse hne =>
      rcases hother s hne with he | ⟨hnone, -⟩
      · rw [he, h.head hs]
      · rw [hnone] at hs
        cases hs
  node {a} ha := by
    rw [Function.update_apply] at ha
    split at ha
    case isTrue => cases ha
    case isFalse hne =>
      rcases hother a hne with he | ⟨-, he⟩
      · rw [he]
        exact h.node ha
      · exact he

end Family

/-- The links of `h` are those of `lists`, and null in every node that is on none. -/
def Links.Holds {α : Type} (h : Links α) (lists : α → Option (List α)) : Prop :=
  ∃ F : Family α, F.Arranges lists ∧ Represents h F

namespace Links.Holds

variable {α : Type} {h : Links α} {lists : α → Option (List α)} {a r : α} {l : List α}

theorem ring (hh : h.Holds lists) (hr : lists r = some l) : h.Ring r l := by
  obtain ⟨F, hF, hrep⟩ := hh
  exact hrep.ring (hF.head hr)

theorem unlinked (hh : h.Holds lists) (ha : Family.OnNone lists a) :
    h.next a = none ∧ h.prev a = none := by
  obtain ⟨F, hF, hrep⟩ := hh
  exact hrep.unlinked (hF.unlinked ha)

theorem linked (hh : h.Holds lists) (hr : lists r = some l) (ha : a ∈ l) :
    ∃ b, h.next a = some b := by
  obtain ⟨l₁, l₂, rfl⟩ := List.append_of_mem ha
  exact ⟨_, (hh.ring hr).next_mem⟩

/-- Empty lists, each linked to itself, and nodes with null links. -/
theorem fresh (lists : α → Option (List α)) (hlists : ∀ r l, lists r = some l → l = []) :
    Links.Holds ⟨fun a => (lists a).map fun _ => a, fun a => (lists a).map fun _ => a⟩ lists := by
  let place (a : α) : Place α := if (lists a).isSome then .head [] else .unlinked
  have hhead {r : α} {l : List α} (hr : place r = .head l) : l = [] ∧ (lists r).isSome := by
    simp only [place] at hr
    split at hr
    case isTrue h => cases hr; exact ⟨rfl, h⟩
    case isFalse => cases hr
  have hmember {a r : α} : place a ≠ .member r := by
    intro ha
    simp only [place] at ha
    split at ha <;> cases ha
  have hsome {r : α} {l : List α} (hr : lists r = some l) : place r = .head [] := by
    simp only [place, hr, Option.isSome_some, if_true]
  have hnone {a : α} (ha : lists a = none) : place a = .unlinked := by
    simp only [place, ha, Option.isSome_none]
    rfl
  refine ⟨⟨place, fun hr => ?_, fun hr => ?_, fun ha => absurd ha hmember⟩,
    ⟨fun hr => ?_, fun ha => .inl (hnone ha)⟩, ⟨fun {r l} hr => ?_, fun {a} ha => ?_⟩⟩
  · exact (hhead hr).1 ▸ List.nodup_nil
  · rw [(hhead hr).1]
    exact ⟨(nomatch ·), fun ha => absurd ha hmember⟩
  · rw [hlists _ _ hr]
    exact hsome hr
  · obtain ⟨rfl, hlist⟩ := hhead hr
    obtain ⟨l, hl⟩ := Option.isSome_iff_exists.mp hlist
    refine ⟨List.isChain_cons_cons.mpr ⟨⟨?_, ?_⟩, .singleton r⟩, List.nodup_singleton r⟩
    all_goals simp only [hl, Option.map_some]
  · have ha : lists a = none := by
      by_contra hne
      obtain ⟨l, hl⟩ := Option.ne_none_iff_exists'.mp hne
      have hp : place a = .unlinked := ha
      rw [hsome hl] at hp
      cases hp
    constructor
    all_goals simp only [ha, Option.map_none]

end Links.Holds
