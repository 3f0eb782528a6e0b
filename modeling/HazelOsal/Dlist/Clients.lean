import HazelOsal.Dlist.Refinement
import HazelOsal.Library.Transition
import Mathlib.Data.List.TakeWhile

/-! # Systems that call the list functions

A system whose states hold lists, and whose steps make calls on them, is followed by a heap: when
each step keeps the contract of its calls, every run of the system runs on the heap. The rules say
what a call does to the lists by their heads; a node that is on none has null links. -/

namespace HazelOsal.Dlist

open Links TransitionSystem

variable {α : Type} [DecidableEq α]

/-- The calls keep the contract, whatever family arranges the lists, and turn these into others. -/
def Relists (lists : α → Option (List α)) (cs : List (Call α × Value α))
    (lists' : α → Option (List α)) : Prop :=
  ∀ F : Family α, F.Arranges lists → ∃ F', F'.Arranges lists' ∧ Steps F cs F'

/-- The loop that looks for a place for `a`, and the insertion where it breaks. -/
def placeCalls (r a : α) (stop : α → Bool) (l : List α) : List (Call α × Value α) :=
  let scanned := scan (visit stop) l []
  [(.forEach r stop, .visited scanned.1 scanned.2),
    match scanned.2 with
    | some node => (.insert node a, .void)
    | none => (.append r a, .void)]

/-- The test for a first node, and its removal. -/
def popCalls (r : α) (l : List α) : List (Call α × Value α) :=
  (.isEmpty r, .bool l.isEmpty) ::
    match l with
    | [] => []
    | a :: _ => [(.get r, .node (some a))]

namespace Relists

variable {lists lists₁ lists₂ : α → Option (List α)} {cs cs' : List (Call α × Value α)}
  {a r s : α} {l l₁ l₂ : List α}

theorem nil : Relists lists [] lists := fun F hF => ⟨F, hF, .nil⟩

theorem of_eq (h : lists = lists₁) : Relists lists [] lists₁ := h ▸ nil

theorem append (h : Relists lists cs lists₁) (h' : Relists lists₁ cs' lists₂) :
    Relists lists (cs ++ cs') lists₂ := by
  intro F hF
  obtain ⟨F₁, hF₁, hs₁⟩ := h F hF
  obtain ⟨F₂, hF₂, hs₂⟩ := h' F₁ hF₁
  exact ⟨F₂, hF₂, hs₁.append hs₂⟩

theorem single {c : Call α} {v : Value α}
    (h : ∀ F : Family α, F.Arranges lists → ∃ F', F'.Arranges lists₁ ∧ Step F c v F') :
    Relists lists [(c, v)] lists₁ := by
  intro F hF
  obtain ⟨F', hF', hs⟩ := h F hF
  exact ⟨F', hF', .cons hs .nil⟩

theorem insertAmid (hr : lists r = some l) (hl : l = l₁ ++ l₂) (ha : Family.OnNone lists a)
    {F : Family α} (hF : F.Arranges lists) (hfree : (F.place a).Free) :
    (F.insert (hF.head hr) hl hfree).Arranges
      (Function.update lists r (some (l₁ ++ a :: l₂))) := by
  refine hF.update (F.insert_head (hF.head hr) hl hfree) fun x hx => ?_
  rw [F.insert_place (hF.head hr) hl hfree hx]
  split
  case isTrue he => exact .inr ⟨he ▸ ha.node, .inr ⟨r, rfl⟩⟩
  case isFalse => exact .inl rfl

theorem removeFrom (hr : lists r = some l) (hl : l = l₁ ++ [a] ++ l₂) (ha : lists a = none)
    {F : Family α} (hF : F.Arranges lists) :
    (F.remove (hF.head hr) hl).Arranges (Function.update lists r (some (l₁ ++ l₂))) := by
  refine hF.update (F.remove_head (hF.head hr) hl) fun x hx => ?_
  rw [F.remove_place (hF.head hr) hl hx]
  split
  case isTrue he => exact .inr ⟨he ▸ ha, .inl rfl⟩
  case isFalse => exact .inl rfl

theorem append_node (hr : lists r = some l) (ha : Family.OnNone lists a) :
    Relists lists [(.append r a, .void)] (Function.update lists r (some (l ++ [a]))) :=
  single fun _ hF =>
    have hfree := hF.unlinked ha ▸ .unlinked
    ⟨_, insertAmid hr (List.append_nil l).symm ha hF hfree, .append (hF.head hr) hfree⟩

theorem insert_node (hr : lists r = some (l₁ ++ s :: l₂)) (ha : Family.OnNone lists a) :
    Relists lists [(.insert s a, .void)] (Function.update lists r (some (l₁ ++ a :: s :: l₂))) :=
  single fun _ hF =>
    have hfree := hF.unlinked ha ▸ .unlinked
    ⟨_, insertAmid hr rfl ha hF hfree, .insert (hF.head hr) rfl hfree⟩

theorem remove_node (hr : lists r = some (l₁ ++ a :: l₂)) (ha : lists a = none) :
    Relists lists [(.remove a, .void)] (Function.update lists r (some (l₁ ++ l₂))) :=
  have hl : l₁ ++ a :: l₂ = l₁ ++ [a] ++ l₂ := by rw [List.append_assoc]; rfl
  single fun _ hF => ⟨_, removeFrom hr hl ha hF, .remove (hF.head hr) hl⟩

theorem get_null (hr : lists r = some []) : Relists lists [(.get r, .node none)] lists :=
  single fun F hF => ⟨F, hF, .getNull (hF.head hr)⟩

theorem get_node (hr : lists r = some (a :: l)) (ha : lists a = none) :
    Relists lists [(.get r, .node (some a))] (Function.update lists r (some l)) :=
  have hl : a :: l = [] ++ [a] ++ l := rfl
  single fun _ hF => ⟨_, removeFrom hr hl ha hF, .get (hF.head hr) rfl⟩

theorem isEmpty (hr : lists r = some l) :
    Relists lists [(.isEmpty r, .bool l.isEmpty)] lists :=
  single fun F hF => ⟨F, hF, .isEmpty (hF.head hr)⟩

theorem peekHead (hr : lists r = some l) : Relists lists [(.peekHead r, .node l.head?)] lists :=
  single fun F hF => ⟨F, hF, .peekHead (hF.head hr)⟩

theorem forEach {stop : α → Bool} (hr : lists r = some l) :
    Relists lists
      [(.forEach r stop, .visited (scan (visit stop) l []).1 (scan (visit stop) l []).2)] lists :=
  single fun F hF => ⟨F, hF, .forEach (hF.head hr)⟩

theorem place {stop : α → Bool} (hr : lists r = some l) (ha : Family.OnNone lists a) :
    Relists lists (placeCalls r a stop l) (Function.update lists r
      (some (l.takeWhile (fun b => !stop b) ++ a :: l.dropWhile fun b => !stop b))) := by
  have hloop : Relists lists [(.forEach r stop, _)] lists := .forEach hr
  refine hloop.append (?_ : Relists _ [_] _)
  rw [scan_visit_snd, List.find?_eq_head?_dropWhile_not]
  have hl : l.takeWhile (fun b => !stop b) ++ l.dropWhile (fun b => !stop b) = l :=
    List.takeWhile_append_dropWhile
  generalize l.takeWhile (fun b => !stop b) = l₁ at hl
  generalize l.dropWhile (fun b => !stop b) = l₂ at hl ⊢
  cases l₂ with
  | nil =>
    rw [List.append_nil] at hl
    exact hl ▸ .append_node hr ha
  | cons b rest => exact .insert_node (hr.trans (congrArg some hl.symm)) ha

theorem pop (hr : lists r = some l) (hl : ∀ a ∈ l, lists a = none) :
    Relists lists (popCalls r l) (Function.update lists r (some l.tail)) := by
  refine (isEmpty hr).append (?_ : Relists _ (match l with | [] => [] | a :: _ => _) _)
  cases l with
  | nil => exact .of_eq (Function.update_eq_self_iff.mpr hr.symm).symm
  | cons a l => exact .get_node hr (hl a List.mem_cons_self)

/-- An empty list is cleared, as memory that is zeroed. -/
theorem clear (hr : lists r = some [] ∨ Family.OnNone lists r) :
    Relists lists [(.nodeInit r, .void)] (Function.update lists r none) := by
  refine single fun F hF => ?_
  have hvacant : (F.place r).Vacant := by
    rcases hr with hr | hr
    · exact hF.head hr ▸ .head
    · exact hF.unlinked hr ▸ .free .unlinked
  refine ⟨_, ⟨fun {s k} hs => ?_, fun {x} hx => ?_⟩, .nodeInit hvacant⟩
  · rw [Function.update_apply] at hs
    split at hs
    case isTrue => cases hs
    case isFalse hne => exact (Family.assign_place hne).trans (hF.head hs)
  · rw [Function.update_apply] at hx
    by_cases hxr : x = r
    · subst hxr
      exact .inl (Function.update_self ..)
    · rw [if_neg hxr] at hx
      rw [Family.assign_place hxr]
      exact hF.node hx

end Relists

section
variable {S A : Type} {M : System S A} {ok : S → A → Prop}
  {calls : S → A → List (Call α × Value α)} {lists : S → α → Option (List α)} {h : Links α}
  {r : S × List (Call α × Value α)}

/-- **The heap follows every run.** When every step keeps the contract of its calls, the calls that
a run makes follow no null pointer, return what they should, and leave lists of its state. -/
theorem executes_of_run {R : S → (α → Option (List α)) → Prop} {s₀ : S}
    {lists₀ : α → Option (List α)}
    (hkeeps : ∀ s a t lists, ReachableVia M ok s → ok s a → M.step s a = some t → R s lists →
      ∃ lists', R t lists' ∧ Relists lists (calls s a) lists')
    (h₀ : M.init s₀) (hR : R s₀ lists₀) (hh : h.Holds lists₀)
    (hr : Run (M.recording calls) (fun r a => ok r.1 a) (s₀, []) r) :
    ∃ h' lists, R r.1 lists ∧ Executes h r.2 h' ∧ h'.Holds lists := by
  induction hr with
  | refl => exact ⟨h, lists₀, hR, .nil, hh⟩
  | tail hr hok hs ih =>
    obtain ⟨h₁, lists, hR, hexec, F, hF, hrep⟩ := ih
    obtain ⟨t, ht, rfl⟩ := Option.map_eq_some_iff.mp hs
    have hreach := ReachableVia.recorded ok ⟨(s₀, []), ⟨h₀, rfl⟩, hr⟩
    obtain ⟨lists', hR', hrelists⟩ := hkeeps _ _ t lists hreach hok ht hR
    obtain ⟨F', hF', hsteps⟩ := hrelists F hF
    obtain ⟨h₂, hexec', hrep'⟩ := hsteps.exec hrep
    exact ⟨h₂, lists', hR', hexec.append hexec', F', hF', hrep'⟩

theorem executes_of_relists
    (hkeeps : ∀ s a t, ReachableVia M ok s → ok s a → M.step s a = some t →
      Relists (lists s) (calls s a) (lists t))
    (hinit : ∀ s, M.init s → h.Holds (lists s))
    (hr : ReachableVia (M.recording calls) (fun r a => ok r.1 a) r) :
    ∃ h', Executes h r.2 h' ∧ h'.Holds (lists r.1) := by
  obtain ⟨⟨s₀, _⟩, ⟨h₀, rfl⟩, hr⟩ := hr
  obtain ⟨h', _, rfl, hexec, hholds⟩ := executes_of_run (R := fun s l => l = lists s)
    (fun s a t _ hr hok ht hl => ⟨lists t, rfl, hl ▸ hkeeps s a t hr hok ht⟩) h₀ rfl
    (hinit s₀ h₀) hr
  exact ⟨h', hexec, hholds⟩

end

end HazelOsal.Dlist
