import HazelOsal.FreeRtos.Termination

/-! # Aborts against the progress of their targets

`os_thread_abort` tests and sets `completed` in one critical section, but deletes the native task
and gives the completion semaphore behind it. In between the target runs on. Where it then neither
gives its semaphore itself nor owns a mutex when it is deleted, an abort is safe. -/

namespace HazelOsal.FreeRtos

open TransitionSystem

variable {T M Q N : Type} [DecidableEq T] [DecidableEq M] [DecidableEq Q] [DecidableEq N]

section
variable {port : Port} {s s' : LifeState T M Q N} {c : Caller T N} {m' : Mem T M Q}
  {p p' : Pc T M Q} {t : T}

/-- The mutexes of threads that are aborted. -/
structure AbortFree (s : LifeState T M Q N) : Prop where
  owned : ∀ t mu, (s.base.mem.mutex mu).owner = some t →
    mu ∈ (s.base.mem.thread t).ownedMutexes
  deleted : ∀ t, (s.record t).byAbort = true → s.base.mem.deleted t = true
  free : ∀ t mu, (s.record t).byAbort = true ∨ (s.base.call (.thread t)).abortStage t ≠ none →
    (s.base.mem.mutex mu).owner ≠ some t

/-- Who owns a mutex has it in its list. -/
theorem OwnerChange.owned {m : Mem T M Q}
    (h : ∀ t mu, (m.mutex mu).owner = some t → mu ∈ (m.thread t).ownedMutexes)
    (hc : OwnerChange m p m') (t : T) (mu : M) (ho : (m'.mutex mu).owner = some t) :
    mu ∈ (m'.thread t).ownedMutexes := by
  cases hc with
  | same hs =>
    rw [hs.mutex] at ho
    rw [hs.ownedMutexes]
    exact h t mu ho
  | setMutex ht hm hv =>
    rw [hm, Function.update_apply] at ho
    rw [ht]
    split at ho
    case isTrue he => exact h t mu (by rw [he, ← hv, ho])
    case isFalse => exact h t mu ho
  | zero _ hm =>
    subst hm
    simp only [osMutexDeinitZero, Mem.setQueue_mutex, Mem.setMutex_mutex,
      Function.update_apply] at ho
    split at ho
    case isTrue => cases ho
    case isFalse => exact h t mu ho
  | @acquire m₁ u nu hs hf hm =>
    subst hm
    simp only [osMutexAcquire, Mem.recordLock_mutex, Mem.setThread_mutex, Mem.setMutex_mutex,
      Function.update_apply] at ho
    simp only [osMutexAcquire, Mem.recordLock_thread, Mem.setThread_thread, Mem.setMutex_thread,
      Function.update_apply]
    split at ho
    case isTrue he =>
      cases ho
      simp [he]
    case isFalse =>
      rw [hs.mutex] at ho
      have hmem := h t mu ho
      rw [← hs.ownedMutexes] at hmem
      split
      case isTrue he => subst he; exact List.mem_append_left _ hmem
      case isFalse => exact hmem
  | @disown nu hs =>
    rw [hs.mutex] at ho
    rw [hs.ownedMutexes]
    simp only [osMutexDisown, Mem.setMutex_mutex, Mem.unlinkOwner_mutex,
      Function.update_apply] at ho
    split at ho
    case isTrue => cases ho
    case isFalse hne =>
      simp only [osMutexDisown, Mem.setMutex_thread, Mem.unlinkOwner_thread]
      exact (List.mem_erase_of_ne hne).mpr (h t mu ho)

omit [DecidableEq M] [DecidableEq Q] [DecidableEq N] in
theorem note_byAbort {record : T → TaskRecord}
    (h : (note record (p.record c) t).byAbort = true) :
    (record t).byAbort = true ∨ p = .abortDelete t := by
  have hother (f : TaskRecord → TaskRecord) (hf : ∀ r, (f r).byAbort = r.byAbort) {u : T}
      (h : (note record (some (u, f)) t).byAbort = true) : (record t).byAbort = true := by
    by_cases hu : t = u
    · subst hu
      rwa [note_same, hf] at h
    · rwa [note_other hu] at h
  cases p with
  | abortDelete u =>
    by_cases hu : t = u
    · exact .inr (by rw [hu])
    · exact .inl (by rwa [Pc.record, note_other hu] at h)
  | abortGive => exact .inl (hother .give (fun _ => rfl) h)
  | exitGive | exitDelete =>
    cases hc : c.current with
    | none => exact .inl (by simpa [Pc.record, hc, note] using h)
    | some u =>
      simp only [Pc.record, hc, Option.map_some] at h
      first
      | exact .inl (hother .give (fun _ => rfl) h)
      | exact .inl (hother .delete (fun _ => rfl) h)
  | _ => exact .inl h

omit [DecidableEq M] [DecidableEq Q] [DecidableEq N] in
/-- Whose call is to abort itself has found that it owns no mutex. -/
theorem LifeEffect.abortsItself {m : Mem T M Q} (he : LifeEffect (.thread t : Caller T N) m p m' p')
    (h : p'.abortStage t ≠ none) : p.abortStage t ≠ none ∨
      p.locking = none ∧ (m.thread t).ownedMutexes = [] := by
  cases he with
  | same _ _ _ _ ha' => exact absurd (Pc.abortStage_none ha' t) h
  | @mark u m' _ ho _ =>
    by_cases hu : u = t
    · subst hu
      exact .inr ⟨rfl, ho⟩
    · refine absurd ?_ h
      split <;> simp [Pc.abortStage, Pc.aborts, hu]
  | @abortDelete u =>
    by_cases hu : u = t
    · subst hu
      exact absurd (by simp [Caller.current, Pc.abortStage, Pc.aborts]) h
    · refine absurd ?_ h
      split <;> simp [Pc.abortStage, Pc.aborts, hu]
  | abortGive =>
    refine .inl fun hn => h ?_
    simpa [Pc.abortStage, Pc.aborts] using hn
  | @abortSignal u =>
    by_cases hu : u = t
    · exact .inl (by simp [Pc.abortStage, Pc.aborts, hu])
    · refine absurd ?_ h
      split <;> simp [Pc.abortStage, Pc.aborts, hu]
  | complete | give | signal | delete => exact absurd rfl h

/-- A step of a call keeps the mutexes from the threads that are aborted. -/
theorem AbortFree.callStep (h : AbortFree s) (hok : QuietTarget s (.base (.step c)))
    (ha : s.base.alive c = true) (hs : callStep port c s.base.mem (s.base.call c) = some (m', p')) :
    AbortFree (s.setBase c (s.base.setCall c m' p')) := by
  have he := callStep_effect hs
  have hrunning {t : T} (hc : c = .thread t) : s.base.mem.deleted t = false := by
    subst hc
    simpa [State.alive, Caller.current] using ha
  refine ⟨fun t mu => he.ownerChange.owned h.owned t mu, fun t hby => ?_, fun t mu hab ho => ?_⟩
  · show m'.deleted t = true
    obtain hby | hp := note_byAbort hby
    · have hdeleted := h.deleted t hby
      by_contra hd
      rw [he.alive (Bool.eq_false_iff.mpr hd)] at hdeleted
      cases hdeleted
    · rw [hp] at hs
      cases hs
      exact Function.update_self ..
  · rcases he.mutexes.owner ho with howner | ⟨hc, hlocking, -⟩
    · -- the mutex had this owner before
      rcases hab with hby | hstage
      · obtain hby | hp := note_byAbort hby
        · exact h.free t mu (.inl hby) howner
        · by_cases hc : c = .thread t
          · refine h.free t mu (.inr ?_) howner
            rw [← hc, hp]
            simp [Pc.abortStage, Pc.aborts]
          · have hne : c.current ≠ some t := fun he => hc (Caller.current_eq_some_iff.mp he)
            exact (hok c t rfl hp hne).2.2.2 mu howner
      · rw [LifeState.setBase, State.setCall_call] at hstage
        split at hstage
        case isTrue hc =>
          subst hc
          rcases (callStep_lifeEffect hs).abortsItself hstage with hstage | ⟨-, hnone⟩
          · exact h.free t mu (.inr hstage) howner
          · have hmem := h.owned t mu howner
            rw [hnone] at hmem
            cases hmem
        case isFalse => exact h.free t mu (.inr hstage) howner
    · -- the thread locks it now
      subst hc
      have hby : (s.record t).byAbort ≠ true := fun hby => by
        have hdeleted := h.deleted t hby
        rw [hrunning rfl] at hdeleted
        cases hdeleted
      have hstage₀ : (s.base.call (.thread t)).abortStage t = none := by
        by_contra hstage
        rw [Pc.locking_of_abortStage hstage] at hlocking
        cases hlocking
      rcases hab with hby' | hstage
      · rcases note_byAbort hby' with hby' | hp
        · exact hby hby'
        · rw [hp] at hlocking
          cases hlocking
      · rw [LifeState.setBase, State.setCall_call, if_pos rfl] at hstage
        rcases (callStep_lifeEffect hs).abortsItself hstage with hstage | ⟨hnone, -⟩
        · exact hstage hstage₀
        · rw [hnone] at hlocking
          cases hlocking

omit [DecidableEq M] [DecidableEq Q] in
/-- A call that has no part in the end of a thread, neither before nor behind a step. -/
theorem AbortFree.move (h : AbortFree s) (ha' : p'.aborts = none) :
    AbortFree { s with base := s.base.setCall c s.base.mem p' } := by
  refine ⟨h.owned, h.deleted, fun t mu hab => ?_⟩
  refine h.free t mu (hab.imp_right fun hstage => ?_)
  rw [State.setCall_call] at hstage
  split at hstage
  case isTrue => exact absurd (Pc.abortStage_none ha' t) hstage
  case isFalse => exact hstage

theorem AbortFree.step {a : LifeAct T M Q N} (h : AbortFree s) (hok : QuietTarget s a)
    (hs : LifeCase port s a s') : AbortFree s' := by
  cases hs with
  | @call c op hf => exact h.move op.entry_life.2
  | step ha hstep => exact h.callStep hok ha hstep
  | expire hexpire => exact h.move (callExpire_life hexpire).2.2
  | tick | join | joinExpire => exact ⟨h.owned, h.deleted, h.free⟩
  | @joinStep c m' j' hstep =>
    have hf := joinStep_frame hstep
    have hby (t : T) : ((s.setJoin c m' j').record t).byAbort = (s.record t).byAbort :=
      (note_join s.record (s.join c) t).2.2.2.1
    constructor
    case owned =>
      intro t mu ho
      have ho : (s.base.mem.mutex mu).owner = some t := by rw [← hf.mutex]; exact ho
      show mu ∈ (m'.thread t).ownedMutexes
      rw [(hf.thread t).2.2]
      exact h.owned t mu ho
    case deleted =>
      intro t hb
      show m'.deleted t = true
      rw [hf.deleted]
      exact h.deleted t ((hby t).symm.trans hb)
    case free =>
      intro t mu hab
      show (m'.mutex mu).owner ≠ _
      rw [hf.mutex]
      exact h.free t mu (hab.imp_left fun hb => (hby t).symm.trans hb)

end

section
variable {port : Port} {prio : T → Int} {s s' : LifeState T M Q N} {c : Caller T N} {t : T}

theorem courseInv_of_reachable
    (h : ReachableVia (lifeSystem port prio : System (LifeState T M Q N) _) QuietTarget s) (t : T) :
    CourseInv (.thread t) (s.course t) := by
  refine h.induction (I := fun s => CourseInv (.thread t) (s.course t))
    (fun s (h : LifeInit port prio s) => ?_)
    fun s a s' _ (hi : CourseInv (.thread t) (s.course t)) hok hs =>
      hi.step ((lifeStep_cases hs).course hok t)
  have hthread := h.base.thread t
  have hcall := h.base.call
  have hv : s.course t =
      { completed := false
        aborted := false
        deleted := false
        leaving := .staying
        abort := fun _ => none
        unused := True
        deletes := 0
        gives := 0
        lateGives := 0 } := by
    ext1
    case abort => exact funext fun c => congrArg (Pc.abortStage t) (hcall c)
    case unused =>
      simp [LifeState.course, hthread, osThreadCreate, OsThread.create, OsSem.init, Counting.zero,
        h.record, TaskRecord.empty, h.join, JoinPc.reaping]
    all_goals
      simp [LifeState.course, hthread, hcall, h.base.deleted, h.record, osThreadCreate,
        OsThread.create, TaskRecord.empty, Pc.leaving]
  rw [hv]
  constructor
  all_goals simp

theorem abortFree_of_reachable
    (h : ReachableVia (lifeSystem port prio : System (LifeState T M Q N) _) QuietTarget s) :
    AbortFree s := by
  refine h.induction (fun s (h : LifeInit port prio s) => ?_)
    fun s a s' _ hi hok hs => hi.step hok (lifeStep_cases hs)
  have hfree (t : T) (mu : M) : (s.base.mem.mutex mu).owner ≠ some t := by
    obtain ⟨b, hb⟩ := h.base.mutex mu
    rw [hb]
    exact fun ho => by cases ho
  refine ⟨fun t mu ho => absurd ho (hfree t mu), fun t hb => ?_, fun t mu _ => hfree t mu⟩
  rw [h.record] at hb
  cases hb

/-- What an abort promises of a state. -/
structure AbortSafe (s : LifeState T M Q N) : Prop where
  deletes : ∀ t, (s.record t).deletes ≤ 1
  gives : ∀ t, (s.record t).gives ≤ 1
  lateGives : ∀ t, (s.record t).lateGives = 0
  /-- Once the abort of a thread is over it has been deleted, and its semaphore given. -/
  ended : ∀ t, (s.base.mem.thread t).aborted = true →
    (∀ c, (s.base.call c).abortStage t = none) →
    (s.record t).deletes = 1 ∧ (s.record t).gives = 1
  mutexes : ∀ t mu, (s.record t).byAbort = true → (s.base.mem.mutex mu).owner ≠ some t

/-! ### An abort comes to its end -/

theorem lifeStep_step {m' : Mem T M Q} {p p' : Pc T M Q} (hp : s.base.call c = p)
    (ha : s.base.alive c = true) (hs : callStep port c s.base.mem p = some (m', p')) :
    lifeStep port s (.base (.step c)) = some (s.setBase c (s.base.setCall c m' p')) := by
  simp only [lifeStep, step, ha, hp, hs, if_true, Option.map_some]

/-- The caller, running alone, gets to a point where it does not abort the thread. -/
def Finishes (port : Port) (prio : T → Int) (c : Caller T N) (t : T) (s : LifeState T M Q N) :
    Prop :=
  ∃ n s', exec (lifeSystem port prio) s (List.replicate n (.base (.step c))) = some s' ∧
    (s'.base.call c).abortStage t = none

theorem Finishes.of_none (h : (s.base.call c).abortStage t = none) : Finishes port prio c t s :=
  ⟨0, s, rfl, h⟩

theorem Finishes.step (hs : lifeStep port s (.base (.step c)) = some s')
    (h : Finishes port prio c t s') : Finishes port prio c t s := by
  obtain ⟨n, u, he, hu⟩ := h
  refine ⟨n + 1, u, ?_, hu⟩
  exact Option.bind_eq_some_iff.mpr ⟨s', hs, he⟩

omit [DecidableEq M] [DecidableEq Q] in
/-- The deletion of another thread's task leaves that of the caller. -/
theorem alive_vTaskDelete {p : Pc T M Q} (hc : c.current ≠ some t) (ha : s.base.alive c = true) :
    (s.base.setCall c (s.base.mem.vTaskDelete t) p).alive c = true := by
  simp only [State.alive, Option.all_eq_true, State.setCall_mem, Mem.vTaskDelete_deleted] at ha ⊢
  intro u hu
  have hne : u ≠ t := fun he => hc (he ▸ hu)
  rw [Function.update_of_ne hne]
  exact ha u hu

theorem abort_finishes (ha : s.base.alive c = true) (t : T) : Finishes port prio c t s := by
  have hcall (s : LifeState T M Q N) (m : Mem T M Q) (p : Pc T M Q) :
      ((s.setBase c (s.base.setCall c m p)).base.call c) = p :=
    (State.setCall_call ..).trans (if_pos rfl)
  by_cases hstage : (s.base.call c).abortStage t = none
  · exact .of_none hstage
  have hp := Pc.eq_of_abortStage hstage
  by_cases hc : c.current = some t
  · -- a thread that aborts itself gives, sets the flag and deletes its task
    have hdelete (s : LifeState T M Q N) (ha : s.base.alive c = true)
        (hp : s.base.call c = .abortDelete t) : Finishes port prio c t s :=
      .step (lifeStep_step hp ha rfl) (.of_none (by rw [hcall, if_pos hc]; rfl))
    have hsignal (s : LifeState T M Q N) (ha : s.base.alive c = true)
        (hp : s.base.call c = .abortSignal t) : Finishes port prio c t s :=
      .step (lifeStep_step hp ha rfl) (hdelete _ ha (by rw [hcall, if_pos hc]))
    rcases hp with hp | hp | hp
    · exact hdelete s ha hp
    · exact .step (lifeStep_step hp ha rfl) (hsignal _ ha (hcall ..))
    · exact hsignal s ha hp
  · have hsignal (s : LifeState T M Q N) (ha : s.base.alive c = true)
        (hp : s.base.call c = .abortSignal t) : Finishes port prio c t s :=
      .step (lifeStep_step hp ha rfl) (.of_none (by rw [hcall, if_neg hc]; rfl))
    have hgive (s : LifeState T M Q N) (ha : s.base.alive c = true)
        (hp : s.base.call c = .abortGive t) : Finishes port prio c t s :=
      .step (lifeStep_step hp ha rfl) (hsignal _ ha (hcall ..))
    rcases hp with hp | hp | hp
    · exact .step (lifeStep_step hp ha rfl)
        (hgive _ (alive_vTaskDelete hc ha) (by rw [hcall, if_neg hc]))
    · exact hgive s ha hp
    · exact hsignal s ha hp

/-- **Aborts are safe** where they delete targets that have not given their semaphore themselves and
own no mutex. Every native task is deleted and every completion semaphore given at most once, never
after a joiner has deleted the semaphore, and exactly once by the time an abort is over; an abort is
over after steps of its caller alone. No mutex is owned by a thread that an abort has deleted. -/
theorem abort_safe
    (h : ReachableVia (lifeSystem port prio : System (LifeState T M Q N) _) QuietTarget s) :
    AbortSafe s ∧ ∀ c t, s.base.alive c = true → Finishes port prio c t s := by
  have hi := courseInv_of_reachable h
  have hfree := abortFree_of_reachable h
  refine ⟨⟨fun t => ?_, fun t => (hi t).once, fun t => (hi t).late, fun t => (hi t).ended,
    fun t mu hb => hfree.free t mu (.inl hb)⟩, fun c t ha => abort_finishes ha t⟩
  have hdeletes : (s.record t).deletes = (s.base.mem.deleted t).toNat := (hi t).deletes
  rw [hdeletes]
  exact Bool.toNat_le _

/-- The check of `QuietTarget` where there is one mutex. -/
def quietTarget (s : LifeState T Unit Q N) : LifeAct T Unit Q N → Bool
  | .base (.step c) =>
    match s.base.call c with
    | .abortDelete t =>
      !s.base.mem.deleted t && s.base.call (.thread t) != .exitSignal &&
        s.base.call (.thread t) != .exitDelete && (s.base.mem.mutex ()).owner != some t
    | _ => true
  | _ => true

omit [DecidableEq N] in
theorem QuietTarget.of_quietTarget {s : LifeState T Unit Q N} {a : LifeAct T Unit Q N}
    (h : quietTarget s a = true) : QuietTarget s a := by
  rintro c t rfl hc -
  simp only [quietTarget, hc, Bool.and_eq_true, Bool.not_eq_eq_eq_not, Bool.not_true,
    bne_iff_ne] at h
  exact ⟨h.1.1.1, h.1.1.2, h.1.2, fun _ => h.2⟩

/-- A join and its first `n` steps. -/
def joinSteps (c : Caller T N) (t : T) (timeout : UInt32) (n : Nat) : List (LifeAct T M Q N) :=
  .join c (.join t timeout) :: List.replicate n (.joinStep c)

/-- A task aborts a thread that another one joins. -/
def abortRun : List (LifeAct Nat Unit Unit Unit) :=
  (callSteps (.task ()) (.abort 0) 4).map .base ++
    joinSteps (.thread 1) 0 OS_WAIT_FOREVER 5 ++ [.base (.step (.task ()))]

theorem abort_safe_joined : ∃ s : LifeState Nat Unit Unit Unit,
    exec (lifeSystem ⟨8, 32⟩ fun _ => 1) (.initial ⟨8, 32⟩ fun _ => 1) abortRun = some s ∧
    s.base.call (.task ()) = .done 0 ∧ s.join (.thread 1) = .done 0 ∧
    (s.record 0).byAbort = true ∧ (s.record 0).semDeleted = true ∧ AbortSafe s := by
  obtain ⟨s, hs, hcall, hjoin, hby, hsem⟩ := exists_of_exec abortRun
    (M := lifeSystem ⟨8, 32⟩ fun _ => 1)
    (s := (.initial ⟨8, 32⟩ fun _ => 1 : LifeState Nat Unit Unit Unit))
    (P := fun s => s.base.call (.task ()) = .done 0 ∧ s.join (.thread 1) = .done 0 ∧
      (s.record 0).byAbort = true ∧ (s.record 0).semDeleted = true) (by decide +kernel)
  have hsafe := abort_safe (reachableVia_of_execOk abortRun (fun _ _ => QuietTarget.of_quietTarget)
    (LifeState.init_initial ⟨8, 32⟩ fun _ => 1) (by decide +kernel) hs)
  exact ⟨s, hs, hcall, hjoin, hby, hsem, hsafe.1⟩

/-- Between the critical section of the abort and `vTaskDelete` the target returns from its entry
function and ends, and a joiner reaps it. -/
def lateAbortRun : List (LifeAct Nat Unit Unit Unit) :=
  (callSteps (.task ()) (.abort 0) 2 ++ callSteps (.thread 0) .exit 4).map .base ++
    joinSteps (.thread 1) 0 OS_WAIT_FOREVER 5 ++ List.replicate 2 (.base (.step (.task ())))

/-- Between the critical section of the abort and `vTaskDelete` the target locks a mutex. -/
def lockedAbortRun : List (LifeAct Nat Unit Unit Unit) :=
  (callSteps (.task ()) (.abort 0) 2 ++ callSteps (.thread 0) (.lock () OS_WAIT_FOREVER) 3).map
    .base ++ [.base (.step (.task ()))]

/-- An abort deletes a task that has ended and gives a semaphore that a joiner has deleted, or it
leaves a mutex to a thread that is no more. -/
theorem not_abort_safe :
    (¬ ∀ s : LifeState Nat Unit Unit Unit,
      Reachable (lifeSystem ⟨8, 32⟩ fun _ => 1) s → AbortSafe s) ∧
    (∃ s : LifeState Nat Unit Unit Unit,
      exec (lifeSystem ⟨8, 32⟩ fun _ => 1) (.initial ⟨8, 32⟩ fun _ => 1) lateAbortRun = some s ∧
      s.join (.thread 1) = .done 0 ∧ (s.record 0).deletes = 2 ∧ (s.record 0).gives = 2 ∧
      (s.record 0).lateGives = 1) ∧
    ∃ s : LifeState Nat Unit Unit Unit,
      exec (lifeSystem ⟨8, 32⟩ fun _ => 1) (.initial ⟨8, 32⟩ fun _ => 1) lockedAbortRun =
        some s ∧
      (s.record 0).byAbort = true ∧ (s.base.mem.mutex ()).owner = some 0 := by
  have hlate := exists_of_exec lateAbortRun (M := lifeSystem ⟨8, 32⟩ fun _ => 1)
    (s := (.initial ⟨8, 32⟩ fun _ => 1 : LifeState Nat Unit Unit Unit))
    (P := fun s => s.join (.thread 1) = .done 0 ∧ (s.record 0).deletes = 2 ∧
      (s.record 0).gives = 2 ∧ (s.record 0).lateGives = 1) (by decide +kernel)
  refine ⟨fun hall => ?_, hlate, exists_of_exec _ (by decide +kernel)⟩
  obtain ⟨s, hs, -, hdeletes, -⟩ := hlate
  have hle := (hall s (reachable_of_exec lateAbortRun
    (LifeState.init_initial ⟨8, 32⟩ fun _ => 1) hs)).deletes 0
  rw [hdeletes] at hle
  exact absurd hle (by decide)

end

end HazelOsal.FreeRtos
