import Mathlib.Logic.Function.Basic

/-! # The end of a thread

What concerns the end of one thread, whoever contributes to it: the thread itself, which leaves by
`os_task_entry`, callers of `os_thread_abort`, and joiners. `CourseStep` lists the steps, where an
abort deletes only a target that has not given its completion semaphore itself. In every course of
such steps the native task is deleted once and the semaphore given once. -/

namespace HazelOsal.FreeRtos

/-! ## The end of one thread -/

/-- The next step of a thread that leaves by `os_task_entry`. -/
inductive Leaving where
  | staying
  | give
  | signal
  | delete
  deriving DecidableEq

/-- The next step of an abort behind its critical section. -/
inductive AbortStage where
  | delete
  | give
  | signal
  deriving DecidableEq

/-- `abort` is what each caller is about to do to the thread in `os_thread_abort`; `unused` says
that nobody can join or reap the thread yet. -/
@[ext]
structure Course (C : Type) where
  completed : Bool
  aborted : Bool
  deleted : Bool
  leaving : Leaving
  abort : C → Option AbortStage
  unused : Prop
  deletes : Nat
  gives : Nat
  lateGives : Nat

/-- What a step makes of the course of the thread `target`. -/
inductive CourseStep {C : Type} [DecidableEq C] (target : C) (v : Course C) : Course C → Prop
  | same : CourseStep target v v
  | join (hu : v.unused → u) : CourseStep target v { v with unused := u }
  | mark (hc : v.completed = false) :
    CourseStep target v { v with
      completed := true
      aborted := true
      abort := Function.update v.abort c (some (if c = target then .give else .delete)) }
  | abortDelete (ha : v.abort c = some .delete) (hd : v.deleted = false)
    (hq : c ≠ target → v.leaving = .staying ∨ v.leaving = .give) :
    CourseStep target v { v with
      deleted := true
      deletes := v.deletes + 1
      abort := Function.update v.abort c (if c = target then none else some .give) }
  | abortGive (ha : v.abort c = some .give) (hl : v.unused → lates = v.lateGives) :
    CourseStep target v { v with
      gives := v.gives + 1
      lateGives := lates
      unused := u
      abort := Function.update v.abort c (some .signal) }
  | abortSignal (ha : v.abort c = some .signal) :
    CourseStep target v { v with
      unused := u
      abort := Function.update v.abort c (if c = target then some .delete else none) }
  | complete (hd : v.deleted = false) (hl : v.leaving = .staying) (ha : v.abort target = none) :
    CourseStep target v { v with completed := true, leaving := .give }
  | give (hd : v.deleted = false) (hl : v.leaving = .give) (ht : v.unused → lates = v.lateGives) :
    CourseStep target v { v with
      gives := v.gives + 1
      lateGives := lates
      unused := u
      leaving := .signal }
  | signal (hd : v.deleted = false) (hl : v.leaving = .signal) :
    CourseStep target v { v with unused := u, leaving := .delete }
  | delete (hd : v.deleted = false) (hl : v.leaving = .delete) :
    CourseStep target v { v with
      deleted := true
      deletes := v.deletes + 1
      leaving := .staying }

/-- Every thread is ended once, by itself or by one abort. -/
structure CourseInv {C : Type} [DecidableEq C] (target : C) (v : Course C) : Prop where
  deletes : v.deletes = v.deleted.toNat
  late : v.lateGives = 0
  fresh : v.completed = false →
    v.gives = 0 ∧ v.deleted = false ∧ v.aborted = false ∧ v.leaving = .staying ∧
      ∀ c, v.abort c = none
  /-- Not more than one abort gets past the critical section. -/
  unique : ∀ c d, v.abort c ≠ none → v.abort d ≠ none → c = d
  own : v.leaving ≠ .staying → v.abort target = none
  giving : v.leaving = .give → v.deleted = false → v.gives = 0
  gave : v.leaving = .signal ∨ v.leaving = .delete → v.gives = 1
  abortDelete : ∀ c, v.abort c = some .delete → if c = target then v.gives = 1 else
    v.deleted = false → v.leaving = .staying ∨ v.leaving = .give → v.gives = 0
  abortGive : ∀ c, v.abort c = some .give → v.gives = 0 ∧ (c ≠ target → v.deleted = true)
  abortSignal : ∀ c, v.abort c = some .signal → v.gives = 1 ∧ (c ≠ target → v.deleted = true)
  /-- A thread that has completed is being ended, or has been. -/
  finished : v.completed = true →
    (∃ c, v.abort c ≠ none) ∨ v.deleted = true ∨ v.aborted = false ∧ v.leaving ≠ .staying
  gone : v.deleted = true → v.gives = 1 ∨ ∃ c, v.abort c = some .give
  once : v.gives ≤ 1
  unused : v.gives = 0 → v.unused

section
variable {C : Type} [DecidableEq C] {target : C} {v v' : Course C}

/-- An abort that is past the critical section is the only one. -/
theorem CourseInv.update (h : CourseInv target v) {c : C} (hc : v.abort c ≠ none)
    (b : Option AbortStage) :
    Function.update v.abort c b = fun d => if d = c then b else none := by
  funext d
  rw [Function.update_apply]
  split
  case isTrue => rfl
  case isFalse hd => exact by_contra fun ha => hd (h.unique d c ha hc)

theorem CourseInv.mark (h : CourseInv target v) (hc : v.completed = false) (c : C) :
    CourseInv target { v with
      completed := true
      aborted := true
      abort := Function.update v.abort c (some (if c = target then .give else .delete)) } := by
  obtain ⟨hg, hd, -, hl, ha⟩ := h.fresh hc
  have hsole : Function.update v.abort c (some (if c = target then .give else .delete)) =
      fun d => if d = c then some (if c = target then AbortStage.give else .delete) else none := by
    funext d
    rw [Function.update_apply, ha]
  rw [hsole]
  constructor
  case deletes => exact h.deletes
  case late => exact h.late
  case unused => exact h.unused
  case finished => exact fun _ => .inl ⟨c, by simp⟩
  all_goals grind

theorem CourseInv.taskDeleted (h : CourseInv target v) {c : C} (ha : v.abort c = some .delete)
    (hd : v.deleted = false) (hq : c ≠ target → v.leaving = .staying ∨ v.leaving = .give) :
    CourseInv target { v with
      deleted := true
      deletes := v.deletes + 1
      abort := Function.update v.abort c (if c = target then none else some .give) } := by
  have hne : v.abort c ≠ none := by rw [ha]; exact Option.some_ne_none _
  have hgives := h.abortDelete c ha
  rw [h.update hne]
  constructor
  case deletes => simp [h.deletes, hd]
  case late => exact h.late
  case unused => exact h.unused
  case gone =>
    intro _
    split at hgives
    case isTrue hc => exact .inl hgives
    case isFalse hc => exact .inr ⟨c, by simp [hc]⟩
  case fresh => exact fun hc => absurd ((h.fresh hc).2.2.2.2 c) hne
  all_goals grind

/-- A thread that leaves by `os_task_entry` has another one to abort it, which deletes it first. -/
theorem CourseInv.deleted_of_leaving (h : CourseInv target v) {c : C} (hc : v.abort c ≠ none)
    (hd : c ≠ target → v.deleted = true) (hl : v.leaving ≠ .staying) : v.deleted = true :=
  hd fun he => hc (he ▸ h.own hl)

theorem CourseInv.abortGave (h : CourseInv target v) {c : C} (ha : v.abort c = some .give)
    (hl : v.unused → lates = v.lateGives) (unused : Prop) :
    CourseInv target { v with
      gives := v.gives + 1
      lateGives := lates
      unused
      abort := Function.update v.abort c (some .signal) } := by
  have hne : v.abort c ≠ none := by rw [ha]; exact Option.some_ne_none _
  obtain ⟨hgives, hdeleted⟩ := h.abortGive c ha
  have hgives' : v.gives + 1 = 1 := by rw [hgives]
  have hleaving := h.deleted_of_leaving hne hdeleted
  rw [h.update hne]
  constructor
  case deletes => exact h.deletes
  case late => exact (hl (h.unused hgives)).trans h.late
  case fresh => exact fun hc => absurd ((h.fresh hc).2.2.2.2 c) hne
  case own =>
    intro hl
    have hown := h.own hl
    grind
  case giving =>
    intro hl hd
    rw [hleaving (by rw [hl]; decide)] at hd
    cases hd
  case gave => exact fun _ => hgives'
  case finished => exact fun _ => .inl ⟨c, by simp⟩
  case gone => exact fun _ => .inl hgives'
  all_goals grind

theorem CourseInv.abortSignaled (h : CourseInv target v) {c : C} (ha : v.abort c = some .signal)
    (unused : Prop) :
    CourseInv target { v with
      unused
      abort := Function.update v.abort c (if c = target then some .delete else none) } := by
  have hne : v.abort c ≠ none := by rw [ha]; exact Option.some_ne_none _
  obtain ⟨hgives, hdeleted⟩ := h.abortSignal c ha
  have hleaving := h.deleted_of_leaving hne hdeleted
  rw [h.update hne]
  constructor
  case deletes => exact h.deletes
  case late => exact h.late
  case fresh => exact fun hc => absurd ((h.fresh hc).2.2.2.2 c) hne
  case own =>
    intro hl
    have hown := h.own hl
    grind
  case giving =>
    intro hl hd
    rw [hleaving (by rw [hl]; decide)] at hd
    cases hd
  case finished =>
    intro _
    by_cases hc : c = target
    · exact .inl ⟨c, by simp [hc]⟩
    · exact .inr (.inl (hdeleted hc))
  all_goals grind

/-- The target returns from its entry function. -/
theorem CourseInv.complete (h : CourseInv target v) (hd : v.deleted = false)
    (hl : v.leaving = .staying) (ha : v.abort target = none) :
    CourseInv target { v with completed := true, leaving := .give } := by
  -- a thread that has been marked before is not past the deletion, since it still runs
  have hgives : v.gives = 0 := by
    cases hc : v.completed with
    | false => exact (h.fresh hc).1
    | true =>
      rcases h.finished hc with ⟨c, hne⟩ | hdel | ⟨-, hleft⟩
      · have htarget : c ≠ target := fun he => hne (he ▸ ha)
        cases hstage : v.abort c with
        | none => exact absurd hstage hne
        | some stage =>
          cases stage with
          | delete =>
            have hgives := h.abortDelete c hstage
            rw [if_neg htarget] at hgives
            exact hgives hd (.inl hl)
          | give => exact (h.abortGive c hstage).1
          | signal => exact absurd ((h.abortSignal c hstage).2 htarget) (by simp [hd])
      · exact absurd hdel (by simp [hd])
      · exact absurd hl hleft
  exact { h with
    fresh := fun hc => by cases hc
    own := fun _ => ha
    giving := fun _ _ => hgives
    gave := fun hg => by simp at hg
    abortDelete := fun c hc => by
      have hgives := h.abortDelete c hc
      grind
    finished := fun _ => by
      cases hc : v.completed with
      | false => exact .inr (.inr ⟨(h.fresh hc).2.2.1, by simp⟩)
      | true =>
        rcases h.finished hc with hab | hdel | ⟨-, hleft⟩
        · exact .inl hab
        · exact .inr (.inl hdel)
        · exact absurd hl hleft }

theorem CourseInv.give (h : CourseInv target v) (hd : v.deleted = false)
    (hl : v.leaving = .give) (ht : v.unused → lates = v.lateGives) (unused : Prop) :
    CourseInv target { v with
      gives := v.gives + 1, lateGives := lates, unused, leaving := .signal } := by
  have hgives := h.giving hl hd
  have hgives' : v.gives + 1 = 1 := by rw [hgives]
  have hleft : v.leaving ≠ .staying := by rw [hl]; decide
  have hown := h.own hleft
  constructor
  case deletes => exact h.deletes
  case late => exact (ht (h.unused hgives)).trans h.late
  case fresh => exact fun hc => absurd (h.fresh hc).2.2.2.1 hleft
  case unique => exact h.unique
  case own => exact fun _ => hown
  case gave => exact fun _ => hgives'
  case abortGive =>
    -- an abort that is about to give has deleted the target
    intro c hc
    have hdel := (h.abortGive c hc).2 fun he => by rw [he, hown] at hc; cases hc
    exact absurd hdel (by simp [hd])
  case abortSignal =>
    intro c hc
    exact ⟨hgives', (h.abortSignal c hc).2⟩
  case finished =>
    intro hc
    have hover := h.finished hc
    grind
  case gone => exact fun _ => .inl hgives'
  all_goals grind

theorem CourseInv.signal (h : CourseInv target v) (hl : v.leaving = .signal) (unused : Prop) :
    CourseInv target { v with unused, leaving := .delete } := by
  have hgives := h.gave (.inl hl)
  have hleft : v.leaving ≠ .staying := by rw [hl]; decide
  exact { h with
    fresh := fun hc => absurd (h.fresh hc).2.2.2.1 hleft
    own := fun _ => h.own hleft
    giving := fun hg => by cases hg
    gave := fun _ => hgives
    abortDelete := fun c hc => by
      have habort := h.abortDelete c hc
      grind
    finished := fun hc => by
      have hover := h.finished hc
      grind
    unused := fun hg => by rw [hgives] at hg; cases hg }

theorem CourseInv.leave (h : CourseInv target v) (hd : v.deleted = false)
    (hl : v.leaving = .delete) :
    CourseInv target { v with
      deleted := true, deletes := v.deletes + 1, leaving := .staying } := by
  have hgives := h.gave (.inr hl)
  have hleft : v.leaving ≠ .staying := by rw [hl]; decide
  exact { h with
    deletes := by simp [h.deletes, hd]
    fresh := fun hc => absurd (h.fresh hc).2.2.2.1 hleft
    own := fun hs => absurd rfl hs
    giving := fun hg => by cases hg
    gave := fun _ => hgives
    abortDelete := fun c hc => by
      have habort := h.abortDelete c hc
      grind
    abortGive := fun c hc => ⟨(h.abortGive c hc).1, fun _ => rfl⟩
    abortSignal := fun c hc => ⟨hgives, fun _ => rfl⟩
    finished := fun _ => .inr (.inl rfl)
    gone := fun _ => .inl hgives }

theorem CourseStep.of_eq {w : Course C} (hs : CourseStep target v w) (h : v' = w) :
    CourseStep target v v' :=
  h ▸ hs

theorem CourseInv.step (h : CourseInv target v) (hs : CourseStep target v v') :
    CourseInv target v' := by
  cases hs with
  | same => exact h
  | join hu => exact { h with unused := fun hg => hu (h.unused hg) }
  | mark hc => exact h.mark hc _
  | abortDelete ha hd hq => exact h.taskDeleted ha hd hq
  | abortGive ha hl => exact h.abortGave ha hl _
  | abortSignal ha => exact h.abortSignaled ha _
  | complete hd hl ha => exact h.complete hd hl ha
  | give hd hl ht => exact h.give hd hl ht _
  | signal hd hl => exact h.signal hl _
  | delete hd hl => exact h.leave hd hl

/-- Once nobody is about to abort it, an aborted thread has come to its end. -/
theorem CourseInv.ended (h : CourseInv target v) (ha : v.aborted = true)
    (hn : ∀ c, v.abort c = none) : v.deletes = 1 ∧ v.gives = 1 := by
  have hcompleted : v.completed = true := by
    by_contra hc
    rw [(h.fresh (Bool.eq_false_iff.mpr hc)).2.2.1] at ha
    cases ha
  have hdeleted : v.deleted = true := by
    rcases h.finished hcompleted with ⟨c, hc⟩ | hd | ⟨hna, -⟩
    · exact absurd (hn c) hc
    · exact hd
    · rw [hna] at ha
      cases ha
  refine ⟨by rw [h.deletes, hdeleted]; rfl, (h.gone hdeleted).resolve_right fun ⟨c, hc⟩ => ?_⟩
  rw [hn c] at hc
  cases hc

end

end HazelOsal.FreeRtos
