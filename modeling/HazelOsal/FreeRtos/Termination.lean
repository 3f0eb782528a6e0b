import HazelOsal.FreeRtos.Course
import HazelOsal.FreeRtos.Invariant
import HazelOsal.FreeRtos.Joins

/-! # The steps of a run as steps of the end of each thread

`LifeState.course` is the end of a thread in a state of the system. Every step of the system, of
whatever caller, is one of the steps of `CourseStep` for every thread. -/

namespace HazelOsal.FreeRtos

/-! ## The steps that contribute to it -/

variable {T M Q N : Type} [DecidableEq T] [DecidableEq M] [DecidableEq Q] [DecidableEq N]

def Pc.leaving : Pc T M Q → Leaving
  | .exitGive => .give
  | .exitSignal => .signal
  | .exitDelete => .delete
  | _ => .staying

/-- The thread that the call is about to abort, behind the critical section. -/
def Pc.aborts : Pc T M Q → Option (T × AbortStage)
  | .abortDelete t => some (t, .delete)
  | .abortGive t => some (t, .give)
  | .abortSignal t => some (t, .signal)
  | _ => none

def Pc.abortStage (t : T) (p : Pc T M Q) : Option AbortStage :=
  p.aborts.bind fun (u, stage) => if u = t then some stage else none

/-- Nothing that concerns the end of threads changes. -/
structure SameLives (m m' : Mem T M Q) : Prop where
  thread : ∀ t, (m'.thread t).toOsThread = (m.thread t).toOsThread
  aborted : ∀ t, (m'.thread t).aborted = (m.thread t).aborted
  deleted : m'.deleted = m.deleted

namespace SameLives

variable {port : Port} {m m' m'' : Mem T M Q} {t : T} {mu : M}

omit [DecidableEq T] [DecidableEq M] [DecidableEq Q] in
theorem of_eq (ht : m'.thread = m.thread) (hd : m'.deleted = m.deleted) : SameLives m m' :=
  ⟨fun _ => by rw [ht], fun _ => by rw [ht], hd⟩

omit [DecidableEq T] [DecidableEq M] [DecidableEq Q] in
theorem refl (m : Mem T M Q) : SameLives m m := of_eq rfl rfl

omit [DecidableEq T] [DecidableEq M] [DecidableEq Q] in
theorem trans (h : SameLives m m') (h' : SameLives m' m'') : SameLives m m'' :=
  ⟨fun t => (h'.thread t).trans (h.thread t), fun t => (h'.aborted t).trans (h.aborted t),
    h'.deleted.trans h.deleted⟩

omit [DecidableEq M] [DecidableEq Q] in
theorem setThread {v : OsThread M Q} (ht : m'.thread = Function.update m.thread t v)
    (hd : m'.deleted = m.deleted) (hv : v.toOsThread = (m.thread t).toOsThread)
    (ha : v.aborted = (m.thread t).aborted) : SameLives m m' := by
  refine ⟨fun u => ?_, fun u => ?_, hd⟩
  all_goals
    rw [ht, Function.update_apply]
    split
    case isTrue he => rw [he]; assumption
    case isFalse => rfl

omit [DecidableEq M] [DecidableEq Q] in
theorem notify {value : UInt32} : SameLives m (osWaitqNotifyThreadLocked m t value) := by
  rw [osWaitqNotifyThreadLocked]
  split <;> exact of_eq rfl rfl

theorem updatePiChain {start : Option T} :
    SameLives m (osMutexUpdatePiChainLocked port m start) :=
  of_eq updatePiChain_thread updatePiChain_deleted

theorem mutexWakeHead : SameLives m (osMutexWakeHead m mu) := by
  rw [osMutexWakeHead]
  split
  case h_1 => exact refl m
  case h_2 t rest _ =>
    have hthread : SameLives m ((m.setQueue (.mutex mu) rest).setThread t { m.thread t with
        waitQ := none, waitingMutex := none, waitResult := 0, state := .ready }) :=
      setThread rfl rfl rfl rfl
    exact hthread.trans (notify.trans (of_eq rfl rfl))

theorem waitqWakeHead {q : Q} {reason : UInt32} : SameLives m (osWaitqWakeHead m q reason) := by
  rw [osWaitqWakeHead]
  split
  case h_1 => exact refl m
  case h_2 t rest _ =>
    have hthread : SameLives m ((m.setQueue (.plain q) rest).setThread t { m.thread t with
        waitQ := none, waitResult := reason, state := .ready }) := setThread rfl rfl rfl rfl
    exact hthread.trans (notify.trans (of_eq rfl rfl))

theorem waitqWakeAll {q : Q} {reason : UInt32} : SameLives m (osWaitqWakeAll m q reason) :=
  wakeAll_induction (refl m) fun _ h => h.trans waitqWakeHead

theorem enqueue : SameLives m (osMutexEnqueue port (m.forget t) t mu) :=
  have hlink : SameLives m (osMutexLink (m.forget t) t mu) := setThread rfl rfl rfl rfl
  hlink.trans updatePiChain

theorem lockTry {timeout : UInt32} {start : Nat} :
    SameLives m (osMutexLockTry port m t mu timeout start).1 := by
  have hforget : SameLives m (m.forget t) := of_eq rfl rfl
  simp only [osMutexLockTry]
  split
  · exact setThread rfl rfl rfl rfl
  · split
    · exact of_eq rfl rfl
    · split
      · exact hforget
      · split
        · exact hforget
        · split
          · exact enqueue
          · split
            · exact hforget
            · exact enqueue

theorem lockFinish {notified : Bool} :
    SameLives m (osMutexLockFinish port m t mu notified).1 := by
  rw [osMutexLockFinish]
  split
  · have hunlink : SameLives m (osMutexUnlink m t) := setThread rfl rfl rfl rfl
    exact hunlink.trans updatePiChain
  · exact setThread rfl rfl rfl rfl

theorem unlockCritical : SameLives m (osMutexUnlockCritical port m t mu).1 := by
  simp only [osMutexUnlockCritical]
  split
  · exact refl m
  · split
    · exact refl m
    · split
      · exact of_eq rfl rfl
      · have hdisown : SameLives m (osMutexDisown m mu) :=
          ⟨fun _ => rfl, fun _ => rfl, rfl⟩
        exact (hdisown.trans (mutexWakeHead.trans updatePiChain)).trans (of_eq rfl rfl)

omit [DecidableEq T] [DecidableEq Q] in
theorem deinitCritical : SameLives m (osMutexDeinitCritical m mu).1 := by
  rw [osMutexDeinitCritical]
  split <;> exact of_eq rfl rfl

omit [DecidableEq M] [DecidableEq Q] in
theorem blockFinish {notified : Bool} {notify : UInt32} :
    SameLives m (osWaitqBlockFinish m t notified notify).1 := by
  rw [osWaitqBlockFinish]
  split <;> exact setThread rfl rfl rfl rfl

theorem setPriority {priority : Int} :
    SameLives m (osThreadSetPriorityCritical port m t priority) := by
  have hbase : SameLives m (m.setThread t { m.thread t with basePriority := priority }) :=
    setThread rfl rfl rfl rfl
  rw [osThreadSetPriorityCritical]
  dsimp only
  split
  case h_1 => exact (hbase.trans updatePiChain).trans (of_eq rfl rfl)
  case h_2 => exact hbase.trans updatePiChain

theorem abortDequeue : SameLives m (osThreadAbortDequeue port m t) :=
  have hunlink : SameLives m (osThreadAbortUnlink m t) := setThread rfl rfl rfl rfl
  hunlink.trans updatePiChain

omit [DecidableEq M] [DecidableEq Q] in
theorem abortMark (h : SameLives m m') :
    SameLives (osThreadAbortMark m t) (osThreadAbortMark m' t) := by
  refine ⟨fun u => ?_, fun u => ?_, h.deleted⟩
  all_goals
    simp only [osThreadAbortMark, Mem.setThread_thread, Function.update_apply]
    split
  · rw [h.thread]
  · exact h.thread u
  · rfl
  · exact h.aborted u

end SameLives

/-- The steps of a call at `p`, as far as they concern the end of threads. -/
inductive LifeEffect (c : Caller T N) (m : Mem T M Q) : Pc T M Q → Mem T M Q → Pc T M Q → Prop
  | same (hs : SameLives m m') (hl : p.leaving = .staying) (ha : p.aborts = none)
    (hl' : p'.leaving = .staying) (ha' : p'.aborts = none) : LifeEffect c m p m' p'
  | mark (hc : (m.thread t).completed = false) (ho : (m.thread t).ownedMutexes = [])
    (hs : SameLives (osThreadAbortMark m t) m') :
    LifeEffect c m (.abortLock t) m' (if c.current = some t then .abortGive t else .abortDelete t)
  | abortDelete : LifeEffect c m (.abortDelete t) (m.vTaskDelete t)
    (if c.current = some t then .idle else .abortGive t)
  | abortGive : LifeEffect c m (.abortGive t) (m.setCompletion t (m.thread t).entryGive)
    (.abortSignal t)
  | abortSignal : LifeEffect c m (.abortSignal t) (m.setCompletion t (m.thread t).entrySignal)
    (if c.current = some t then .abortDelete t else .done 0)
  | complete (hc : c = .thread t) : LifeEffect c m .exitComplete
    (m.setThread t
      { m.thread t with toOsThread := (m.thread t).entryComplete, state := .terminated }) .exitGive
  | give (hc : c = .thread t) : LifeEffect c m .exitGive
    (m.setCompletion t (m.thread t).entryGive) .exitSignal
  | signal (hc : c = .thread t) : LifeEffect c m .exitSignal
    (m.setCompletion t (m.thread t).entrySignal) .exitDelete
  | delete (hc : c = .thread t) : LifeEffect c m .exitDelete (m.vTaskDelete t) .idle

section
variable {port : Port} {c : Caller T N} {m m' : Mem T M Q} {p p' : Pc T M Q}

omit [DecidableEq N] in
theorem callStep_lifeEffect (h : callStep port c m p = some (m', p')) :
    LifeEffect c m p m' p' := by
  have hstay {q : Pc T M Q} (hp : p.leaving = .staying ∧ p.aborts = none)
      (hq : q.leaving = .staying ∧ q.aborts = none) : LifeEffect c m p m q :=
    .same (.refl m) hp.1 hp.2 hq.1 hq.2
  cases p with
  | idle | done => cases h
  | lockEnter | unlockEnter | deinitEnter | blockEnter | setPriorityEnter | abortEnter =>
    simp only [callStep] at h
    repeat' split at h
    all_goals cases h; exact hstay ⟨rfl, rfl⟩ ⟨rfl, rfl⟩
  | lockStart => cases h; exact hstay ⟨rfl, rfl⟩ ⟨rfl, rfl⟩
  | lockTry =>
    obtain ⟨t, -, h⟩ := Option.map_eq_some_iff.mp h
    cases h
    refine .same .lockTry rfl rfl ?_ ?_
    all_goals dsimp only; split <;> rfl
  | lockNotifyWait | blockNotifyWait =>
    obtain ⟨t, -, h⟩ := Option.map_eq_some_iff.mp h
    split at h
    · cases h; exact .same (.of_eq rfl rfl) rfl rfl rfl rfl
    · cases h; exact hstay ⟨rfl, rfl⟩ ⟨rfl, rfl⟩
  | lockWaiting | blockWaiting =>
    obtain ⟨t, -, h⟩ := Option.bind_eq_some_iff.mp h
    obtain ⟨value, -, h⟩ := Option.map_eq_some_iff.mp h
    cases h
    exact .same (.of_eq rfl rfl) rfl rfl rfl rfl
  | lockFinish =>
    obtain ⟨t, -, h⟩ := Option.map_eq_some_iff.mp h
    cases h
    refine .same .lockFinish rfl rfl ?_ ?_
    all_goals dsimp only; split <;> rfl
  | unlockLock =>
    obtain ⟨t, -, h⟩ := Option.map_eq_some_iff.mp h
    cases h
    exact .same .unlockCritical rfl rfl rfl rfl
  | deinitLock =>
    cases h
    refine .same .deinitCritical rfl rfl ?_ ?_
    all_goals dsimp only; split <;> rfl
  | deinitZero => cases h; exact .same (.of_eq rfl rfl) rfl rfl rfl rfl
  | blockLock =>
    obtain ⟨t, -, h⟩ := Option.map_eq_some_iff.mp h
    cases h
    exact .same (.setThread rfl rfl rfl rfl) rfl rfl rfl rfl
  | blockFinish =>
    obtain ⟨t, -, h⟩ := Option.map_eq_some_iff.mp h
    cases h
    exact .same .blockFinish rfl rfl rfl rfl
  | wakeOneLock => cases h; exact .same .waitqWakeHead rfl rfl rfl rfl
  | wakeAllLock => cases h; exact .same .waitqWakeAll rfl rfl rfl rfl
  | setPriorityLock => cases h; exact .same .setPriority rfl rfl rfl rfl
  | abortLock t =>
    simp only [callStep, osThreadAbortCritical] at h
    split at h
    case isTrue => cases h; exact hstay ⟨rfl, rfl⟩ ⟨rfl, rfl⟩
    case isFalse hc =>
      have hc := Bool.eq_false_iff.mpr hc
      split at h
      case isTrue => cases h; exact hstay ⟨rfl, rfl⟩ ⟨rfl, rfl⟩
      case isFalse ho =>
        have ho := not_not.mp ho
        split at h
        · cases h; exact .mark hc ho (.abortMark .abortDequeue)
        · cases h; exact .mark hc ho (.refl _)
  | abortDelete => cases h; exact .abortDelete
  | abortGive => cases h; exact .abortGive
  | abortSignal => cases h; exact .abortSignal
  | exitComplete | exitGive | exitSignal | exitDelete =>
    obtain ⟨t, hc, h⟩ := Option.map_eq_some_iff.mp h
    have hc := Caller.current_eq_some hc
    cases h
    first
    | exact .complete hc
    | exact .give hc
    | exact .signal hc
    | exact .delete hc

end

/-- The end of the thread `t`. -/
def LifeState.course (s : LifeState T M Q N) (t : T) : Course (Caller T N) where
  completed := (s.base.mem.thread t).completed
  aborted := (s.base.mem.thread t).aborted
  deleted := s.base.mem.deleted t
  leaving := (s.base.call (.thread t)).leaving
  abort c := (s.base.call c).abortStage t
  unused := (s.base.mem.thread t).completion.count = 0 ∧
    (s.base.mem.thread t).completionSignaled = false ∧ (s.record t).semDeleted = false ∧
    ∀ c, (s.join c).reaping ≠ some t
  deletes := (s.record t).deletes
  gives := (s.record t).gives
  lateGives := (s.record t).lateGives

/-- Where an abort deletes the task of another thread, this thread has not given its completion
semaphore itself, nor ended, and it owns no mutex. -/
def QuietTarget (s : LifeState T M Q N) (a : LifeAct T M Q N) : Prop :=
  ∀ c t, a = .base (.step c) → s.base.call c = .abortDelete t → c.current ≠ some t →
    s.base.mem.deleted t = false ∧ s.base.call (.thread t) ≠ .exitSignal ∧
      s.base.call (.thread t) ≠ .exitDelete ∧ ∀ mu, (s.base.mem.mutex mu).owner ≠ some t

section
variable {port : Port} {s s' : LifeState T M Q N} {c : Caller T N} {m' : Mem T M Q}
  {p p' : Pc T M Q} {t : T}

section
omit [DecidableEq M] [DecidableEq Q]

omit [DecidableEq T] [DecidableEq N] in
theorem Pc.record_none (hl : p.leaving = .staying) (ha : p.aborts = none) : p.record c = none := by
  cases p with
  | abortDelete | abortGive | abortSignal => cases ha
  | exitGive | exitSignal | exitDelete => cases hl
  | _ => rfl

theorem Pc.abortStage_none (ha : p.aborts = none) (t : T) : p.abortStage t = none := by
  rw [abortStage, ha, Option.bind_none]

theorem Pc.eq_of_abortStage (h : p.abortStage t ≠ none) :
    p = .abortDelete t ∨ p = .abortGive t ∨ p = .abortSignal t := by
  cases p with
  | abortDelete u | abortGive u | abortSignal u =>
    have hu : u = t := by_contra fun hu => h (by simp [abortStage, aborts, hu])
    simp [hu]
  | _ => exact absurd rfl h

theorem Pc.locking_of_abortStage (h : p.abortStage t ≠ none) : p.locking = none := by
  rcases Pc.eq_of_abortStage h with rfl | rfl | rfl
  all_goals rfl

omit [DecidableEq N] in
/-- A step that leaves all that concerns the thread. -/
theorem LifeState.course_eq
    (hthread : (s'.base.mem.thread t).toOsThread = (s.base.mem.thread t).toOsThread)
    (haborted : (s'.base.mem.thread t).aborted = (s.base.mem.thread t).aborted)
    (hdeleted : s'.base.mem.deleted t = s.base.mem.deleted t)
    (hl : (s'.base.call (.thread t)).leaving = (s.base.call (.thread t)).leaving)
    (ha : ∀ c, (s'.base.call c).abortStage t = (s.base.call c).abortStage t)
    (hj : s'.join = s.join) (hr : s'.record t = s.record t) : s'.course t = s.course t := by
  simp only [course, hthread, haborted, hdeleted, hl, ha, hj, hr]

/-- A step of a call that has nothing to do with the end of the thread. -/
theorem course_setBase_same (hp : s.base.call c = p)
    (hthread : (m'.thread t).toOsThread = (s.base.mem.thread t).toOsThread)
    (haborted : (m'.thread t).aborted = (s.base.mem.thread t).aborted)
    (hdeleted : m'.deleted t = s.base.mem.deleted t)
    (hl : c = .thread t → p'.leaving = p.leaving) (ha : p'.abortStage t = p.abortStage t)
    (hr : note s.record (p.record c) t = s.record t) :
    (s.setBase c (s.base.setCall c m' p')).course t = s.course t := by
  refine LifeState.course_eq hthread haborted hdeleted ?_ (fun d => ?_) rfl ?_
  · show ((s.base.setCall c m' p').call _).leaving = _
    rw [State.setCall_call]
    split
    case isTrue hc => rw [hl hc.symm, ← hp, ← hc]
    case isFalse => rfl
  · show ((s.base.setCall c m' p').call d).abortStage t = _
    rw [State.setCall_call]
    split
    case isTrue hc => rw [ha, ← hp, hc]
    case isFalse => rfl
  · rw [← hr, ← hp]
    rfl

theorem course_setBase (s : LifeState T M Q N) (c : Caller T N) (m' : Mem T M Q) (p' : Pc T M Q)
    (t : T) : (s.setBase c (s.base.setCall c m' p')).course t =
      { completed := (m'.thread t).completed
        aborted := (m'.thread t).aborted
        deleted := m'.deleted t
        leaving := if c = .thread t then p'.leaving else (s.course t).leaving
        abort := Function.update (s.course t).abort c (p'.abortStage t)
        unused := (m'.thread t).completion.count = 0 ∧ (m'.thread t).completionSignaled = false ∧
          (note s.record ((s.base.call c).record c) t).semDeleted = false ∧
          ∀ d, (s.join d).reaping ≠ some t
        deletes := (note s.record ((s.base.call c).record c) t).deletes
        gives := (note s.record ((s.base.call c).record c) t).gives
        lateGives := (note s.record ((s.base.call c).record c) t).lateGives } := by
  ext1
  case leaving =>
    show ((s.base.setCall c m' p').call _).leaving = _
    rw [State.setCall_call]
    by_cases hc : c = .thread t
    · rw [if_pos hc.symm, if_pos hc]
    · rw [if_neg (Ne.symm hc), if_neg hc]
      rfl
  case abort =>
    funext d
    show ((s.base.setCall c m' p').call d).abortStage t =
      Function.update (s.course t).abort c (p'.abortStage t) d
    rw [State.setCall_call, Function.update_apply]
    split <;> rfl
  all_goals rfl

omit [DecidableEq N] in
theorem course_leaving (hp : s.base.call c = p) (hc : c = .thread t) :
    (s.course t).leaving = p.leaving := by
  subst hc
  exact congrArg Pc.leaving hp

omit [DecidableEq N] in
theorem course_abort (hp : s.base.call c = p) : (s.course t).abort c = p.abortStage t :=
  congrArg (Pc.abortStage t) hp

/-- A step of a call that leaves the other threads alone. -/
theorem note_other {record : T → TaskRecord} {u : T} {f : TaskRecord → TaskRecord} (h : t ≠ u) :
    note record (some (u, f)) t = record t :=
  Function.update_of_ne h ..

theorem note_same {record : T → TaskRecord} {f : TaskRecord → TaskRecord} :
    note record (some (t, f)) t = f (record t) :=
  Function.update_self ..

/-- A step of a call that concerns the end of another thread. -/
theorem course_setBase_other {u : T} (hp : s.base.call c = p) (hu : t ≠ u)
    (hthread : m'.thread t = s.base.mem.thread t) (hdeleted : m'.deleted t = s.base.mem.deleted t)
    (hl : c = .thread t → p'.leaving = p.leaving) (ha : p'.abortStage t = p.abortStage t)
    (hr : ∀ v f, p.record c = some (v, f) → v = u) :
    (s.setBase c (s.base.setCall c m' p')).course t = s.course t := by
  refine course_setBase_same hp (by rw [hthread]) (by rw [hthread]) hdeleted hl ha ?_
  cases hrec : p.record c with
  | none => rfl
  | some vf =>
    obtain ⟨v, f⟩ := vf
    rw [hr v f hrec]
    exact note_other hu

end

/-! ### The steps that concern the thread -/

section
omit [DecidableEq M] [DecidableEq Q]

theorem course_mark (hp : s.base.call c = .abortLock t)
    (hs : SameLives (osThreadAbortMark s.base.mem t) m') :
    (s.setBase c (s.base.setCall c m'
      (if c.current = some t then .abortGive t else .abortDelete t))).course t =
      { s.course t with
        completed := true
        aborted := true
        abort := Function.update (s.course t).abort c
          (some (if c = .thread t then .give else .delete)) } := by
  have hthread := hs.thread t
  have haborted := hs.aborted t
  simp only [osThreadAbortMark, Mem.setThread_thread, Function.update_self] at hthread haborted
  rw [course_setBase]
  simp only [Caller.current_eq_some_iff]
  ext1
  case leaving =>
    split
    case isTrue hc => rw [course_leaving hp hc]; rfl
    case isFalse => rfl
  case abort => split <;> simp [Pc.abortStage, Pc.aborts]
  case deleted => exact congrFun hs.deleted t
  case aborted => exact haborted
  all_goals simp [hthread, hp, Pc.record, note, LifeState.course]

theorem course_abortDelete (hp : s.base.call c = .abortDelete t) :
    (s.setBase c (s.base.setCall c (s.base.mem.vTaskDelete t)
      (if c.current = some t then .idle else .abortGive t))).course t =
      { s.course t with
        deleted := true
        deletes := (s.course t).deletes + 1
        abort := Function.update (s.course t).abort c
          (if c = .thread t then none else some .give) } := by
  rw [course_setBase]
  simp only [Caller.current_eq_some_iff]
  ext1
  case leaving =>
    split
    case isTrue hc => rw [course_leaving hp hc]; rfl
    case isFalse => rfl
  case abort => split <;> simp [Pc.abortStage, Pc.aborts]
  all_goals
    simp [hp, Pc.record, note_same, LifeState.course, TaskRecord.abortDelete, TaskRecord.delete]

/-- A give of the completion semaphore, by whomever. -/
theorem course_given (hr : (s.base.call c).record c = some (t, .give))
    (hl : c = .thread t → p'.leaving = l) (hl' : c ≠ .thread t → (s.course t).leaving = l)
    (hb : Function.update (s.course t).abort c (p'.abortStage t) = b') :
    (s.setBase c (s.base.setCall c
      (s.base.mem.setCompletion t (s.base.mem.thread t).entryGive) p')).course t =
      { s.course t with
        gives := (s.course t).gives + 1
        lateGives := (s.record t).give.lateGives
        unused := (s.base.mem.thread t).entryGive.completion.count = 0 ∧
          (s.base.mem.thread t).completionSignaled = false ∧
          (s.record t).semDeleted = false ∧ ∀ d, (s.join d).reaping ≠ some t
        leaving := l
        abort := b' } := by
  rw [course_setBase, hb]
  ext1
  case leaving =>
    split
    case isTrue hc => exact hl hc
    case isFalse hc => exact hl' hc
  all_goals
    simp [hr, note_same, LifeState.course, TaskRecord.give, Mem.setCompletion, OsThread.entryGive]

/-- `completion_signaled` is set, by whomever. -/
theorem course_signaled (hr : (s.base.call c).record c = none)
    (hl : c = .thread t → p'.leaving = l) (hl' : c ≠ .thread t → (s.course t).leaving = l)
    (hb : Function.update (s.course t).abort c (p'.abortStage t) = b') :
    (s.setBase c (s.base.setCall c
      (s.base.mem.setCompletion t (s.base.mem.thread t).entrySignal) p')).course t =
      { s.course t with
        unused := False
        leaving := l
        abort := b' } := by
  rw [course_setBase, hb]
  ext1
  case leaving =>
    split
    case isTrue hc => exact hl hc
    case isFalse hc => exact hl' hc
  all_goals simp [hr, note, LifeState.course, Mem.setCompletion, OsThread.entrySignal]

theorem course_complete (hp : s.base.call (.thread t) = .exitComplete) :
    (s.setBase (.thread t) (s.base.setCall (.thread t)
      (s.base.mem.setThread t { s.base.mem.thread t with
        toOsThread := (s.base.mem.thread t).entryComplete, state := .terminated })
      .exitGive)).course t =
      { s.course t with completed := true, leaving := .give } := by
  rw [course_setBase]
  ext1
  case abort =>
    exact (congrArg _ (course_abort (t := t) hp).symm).trans (Function.update_eq_self ..)
  all_goals simp [hp, Pc.record, Pc.leaving, note, LifeState.course, OsThread.entryComplete]

theorem course_exit (hp : s.base.call (.thread t) = .exitDelete) :
    (s.setBase (.thread t) (s.base.setCall (.thread t) (s.base.mem.vTaskDelete t) .idle)).course t =
      { s.course t with
        deleted := true, deletes := (s.course t).deletes + 1, leaving := .staying } := by
  rw [course_setBase]
  ext1
  case abort =>
    exact (congrArg _ (course_abort (t := t) hp).symm).trans (Function.update_eq_self ..)
  all_goals
    simp [hp, Pc.record, Pc.leaving, Caller.current, note_same, LifeState.course, TaskRecord.delete]

/-- **A step of a call is one of the steps of the end of each thread.** -/
theorem LifeEffect.course (he : LifeEffect c s.base.mem p m' p') (hp : s.base.call c = p)
    (ha : s.base.alive c = true) (hok : QuietTarget s (.base (.step c))) (t : T) :
    CourseStep (.thread t) (s.course t) ((s.setBase c (s.base.setCall c m' p')).course t) := by
  have hleaving := course_leaving (t := t) hp
  have habort : (s.course t).abort c = p.abortStage t := course_abort hp
  have halive (hc : c = .thread t) : (s.course t).deleted = false := by
    subst hc
    simpa [State.alive, Caller.current, LifeState.course] using ha
  cases he with
  | same hs hl hab hl' hab' =>
    exact .of_eq .same (course_setBase_same hp (hs.thread t) (hs.aborted t) (by rw [hs.deleted])
      (fun _ => hl'.trans hl.symm) (by rw [Pc.abortStage_none hab, Pc.abortStage_none hab'])
      (by rw [Pc.record_none hl hab]; rfl))
  | @mark u m' hc ho hs =>
    by_cases hu : t = u
    · subst hu
      exact .of_eq (.mark hc) (course_mark hp hs)
    · refine .of_eq .same (course_setBase_same hp ?_ ?_ (by rw [hs.deleted]; rfl)
        (fun _ => by split <;> rfl) (by split <;> simp [Pc.abortStage, Pc.aborts, Ne.symm hu]) rfl)
      · rw [hs.thread t]
        simp [osThreadAbortMark, hu]
      · rw [hs.aborted t]
        simp [osThreadAbortMark, hu]
  | @abortDelete u =>
    by_cases hu : t = u
    · subst hu
      have hstage : (s.course t).abort c = some .delete := habort.trans (if_pos rfl)
      refine .of_eq (.abortDelete hstage ?_ fun hc => ?_) (course_abortDelete hp)
      · by_cases hc : c = .thread t
        · exact halive hc
        · have hne : c.current ≠ some t := fun he => hc (Caller.current_eq_some_iff.mp he)
          exact (hok c t rfl hp hne).1
      · have hne : c.current ≠ some t := fun he => hc (Caller.current_eq_some_iff.mp he)
        obtain ⟨-, hsignal, hdelete, -⟩ := hok c t rfl hp hne
        simp only [LifeState.course]
        cases hcall : s.base.call (.thread t) with
        | exitSignal => exact absurd hcall hsignal
        | exitDelete => exact absurd hcall hdelete
        | exitGive => exact .inr rfl
        | _ => exact .inl rfl
    · exact .of_eq .same (course_setBase_other hp hu rfl (Function.update_of_ne hu ..)
        (fun _ => by split <;> rfl) (by split <;> simp [Pc.abortStage, Pc.aborts, Ne.symm hu])
        (fun v f hr => by cases hr; rfl))
  | @abortGive u =>
    by_cases hu : t = u
    · subst hu
      have hstage : (s.course t).abort c = some .give := habort.trans (if_pos rfl)
      refine .of_eq (.abortGive hstage fun hu => ?_) (course_given (by rw [hp]; rfl)
        (fun hc => (hleaving hc).symm) (fun _ => rfl) (by simp [Pc.abortStage, Pc.aborts]))
      exact if_neg (by rw [hu.2.2.1]; decide)
    · exact .of_eq .same (course_setBase_other hp hu (Function.update_of_ne hu ..) rfl
        (fun _ => rfl) (by simp [Pc.abortStage, Pc.aborts, Ne.symm hu])
        (fun v f hr => by cases hr; rfl))
  | @abortSignal u =>
    by_cases hu : t = u
    · subst hu
      have hstage : (s.course t).abort c = some .signal := habort.trans (if_pos rfl)
      refine .of_eq (.abortSignal hstage) (course_signaled (by rw [hp]; rfl)
        (fun hc => by rw [hleaving hc]; split <;> rfl) (fun _ => rfl) ?_)
      simp only [Caller.current_eq_some_iff]
      split <;> simp [Pc.abortStage, Pc.aborts]
    · exact .of_eq .same (course_setBase_other hp hu (Function.update_of_ne hu ..) rfl
        (fun _ => by split <;> rfl) (by split <;> simp [Pc.abortStage, Pc.aborts, Ne.symm hu])
        (fun v f hr => by cases hr))
  | @complete u hc =>
    subst hc
    by_cases hu : t = u
    · subst hu
      exact .of_eq (.complete (halive rfl) (hleaving rfl) habort) (course_complete hp)
    · exact .of_eq .same (course_setBase_other hp hu (Function.update_of_ne hu ..) rfl
        (fun hc => absurd (by cases hc; rfl) hu) rfl (fun v f hr => by cases hr))
  | @give u hc =>
    subst hc
    by_cases hu : t = u
    · subst hu
      have hsame : Function.update (s.course t).abort (.thread t) none = (s.course t).abort :=
        (congrArg _ habort.symm).trans (Function.update_eq_self ..)
      refine .of_eq (.give (halive rfl) (hleaving rfl) fun hu => ?_) (course_given (by rw [hp]; rfl)
        (fun _ => rfl) (fun hc => absurd rfl hc) hsame)
      exact if_neg (by rw [hu.2.2.1]; decide)
    · exact .of_eq .same (course_setBase_other hp hu (Function.update_of_ne hu ..) rfl
        (fun hc => absurd (by cases hc; rfl) hu) rfl (fun v f hr => by cases hr; rfl))
  | @signal u hc =>
    subst hc
    by_cases hu : t = u
    · subst hu
      have hsame : Function.update (s.course t).abort (.thread t) none = (s.course t).abort :=
        (congrArg _ habort.symm).trans (Function.update_eq_self ..)
      exact .of_eq (.signal (halive rfl) (hleaving rfl)) (course_signaled (by rw [hp]; rfl)
        (fun _ => rfl) (fun hc => absurd rfl hc) hsame)
    · exact .of_eq .same (course_setBase_other hp hu (Function.update_of_ne hu ..) rfl
        (fun hc => absurd (by cases hc; rfl) hu) rfl (fun v f hr => by cases hr))
  | @delete u hc =>
    subst hc
    by_cases hu : t = u
    · subst hu
      exact .of_eq (.delete (halive rfl) (hleaving rfl)) (course_exit hp)
    · exact .of_eq .same (course_setBase_other hp hu rfl (Function.update_of_ne hu ..)
        (fun hc => absurd (by cases hc; rfl) hu) rfl (fun v f hr => by cases hr; rfl))

end

/-! ### Joins -/

/-- What a step of a join or a delete from `p` to `p'` leaves. -/
structure JoinFrame (m m' : Mem T M Q) (p p' : JoinPc T) : Prop where
  mutex : m'.mutex = m.mutex
  deleted : m'.deleted = m.deleted
  thread : ∀ t, (m'.thread t).completed = (m.thread t).completed ∧
    (m'.thread t).aborted = (m.thread t).aborted ∧
    (m'.thread t).ownedMutexes = (m.thread t).ownedMutexes
  /-- A thread that has given no token is not reaped. -/
  unused : ∀ t, (m.thread t).completion.count = 0 → (m.thread t).completionSignaled = false →
    p.reaping ≠ some t → (m'.thread t).completion.count = 0 ∧
      (m'.thread t).completionSignaled = false ∧ p'.reaping ≠ some t

omit [DecidableEq T] [DecidableEq M] [DecidableEq Q] in
theorem JoinFrame.of_mem {m : Mem T M Q} {p p' : JoinPc T}
    (hp : p'.reaping = none ∨ p'.reaping = p.reaping) : JoinFrame m m p p' where
  mutex := rfl
  deleted := rfl
  thread _ := ⟨rfl, rfl, rfl⟩
  unused t hc hs hr := by
    refine ⟨hc, hs, ?_⟩
    rcases hp with hp | hp
    · rw [hp]; exact fun he => by cases he
    · rwa [hp]

omit [DecidableEq M] [DecidableEq Q] in
theorem JoinFrame.setCompletion {m : Mem T M Q} {p p' : JoinPc T} {v : HazelOsal.OsThread}
    (hc : v.completed = (m.thread t).completed)
    (hu : (m.thread t).completion.count = 0 → (m.thread t).completionSignaled = false →
      v.completion.count = 0 ∧ v.completionSignaled = false ∧ p'.reaping = none)
    (hp' : ∀ u, p'.reaping = some u → u = t) : JoinFrame m (m.setCompletion t v) p p' where
  mutex := rfl
  deleted := rfl
  thread u := by
    rw [Mem.setCompletion, Mem.setThread_thread, Function.update_apply]
    split
    case isTrue he => subst he; exact ⟨hc, rfl, rfl⟩
    case isFalse => exact ⟨rfl, rfl, rfl⟩
  unused u hcount hs _ := by
    rw [Mem.setCompletion, Mem.setThread_thread, Function.update_apply]
    split
    case isTrue he =>
      subst he
      obtain ⟨hcount', hs', hp'⟩ := hu hcount hs
      refine ⟨hcount', hs', ?_⟩
      rw [hp']
      exact fun he => by cases he
    case isFalse hne => exact ⟨hcount, hs, fun he => hne (hp' u he)⟩

theorem joinTake_eq_some {thread v : HazelOsal.OsThread} (h : thread.joinTake = some v) :
    thread.completion.count ≠ 0 ∧ v.completed = thread.completed := by
  obtain ⟨sem, hs, rfl⟩ := Option.map_eq_some_iff.mp h
  exact ⟨by rw [(OsSem.tryTake_eq_some hs).2]; exact Nat.succ_ne_zero _, rfl⟩

theorem joinBegin_frame (thread : HazelOsal.OsThread) :
    thread.joinBegin.1.completion = thread.completion ∧
      thread.joinBegin.1.completed = thread.completed ∧
      thread.joinBegin.1.completionSignaled = thread.completionSignaled := by
  rw [OsThread.joinBegin]
  repeat' split
  all_goals exact ⟨rfl, rfl, rfl⟩

theorem deleteBegin_frame (thread : HazelOsal.OsThread) :
    thread.deleteBegin.1.completion = thread.completion ∧
      thread.deleteBegin.1.completed = thread.completed ∧
      thread.deleteBegin.1.completionSignaled = thread.completionSignaled ∧
      (thread.deleteBegin.2 = none → thread.completionSignaled = true) := by
  rw [OsThread.deleteBegin]
  split
  case isTrue => exact ⟨rfl, rfl, rfl, fun h => by cases h⟩
  case isFalse =>
    split
    case isTrue => exact ⟨rfl, rfl, rfl, fun h => by cases h⟩
    case isFalse =>
      split
      case isTrue => exact ⟨rfl, rfl, rfl, fun h => by cases h⟩
      case isFalse hb => exact ⟨rfl, rfl, rfl, fun _ => by simp at hb; exact hb.1.2⟩

omit [DecidableEq M] [DecidableEq Q] [DecidableEq N] in
theorem joinStep_frame {p p' : JoinPc T} {m : Mem T M Q}
    (h : joinStep c m p = some (m', p')) : JoinFrame m m' p p' := by
  cases p with
  | idle | done => cases h
  | joinEnter t timeout =>
    cases h
    refine .of_mem (.inl ?_)
    repeat' split
    all_goals rfl
  | deleteEnter t =>
    cases h
    refine .of_mem (.inl ?_)
    split <;> rfl
  | joinBegin t timeout =>
    cases h
    obtain ⟨hcompletion, hc, hs⟩ := joinBegin_frame (m.thread t).toOsThread
    refine .setCompletion hc
      (fun hz hf => ⟨(congrArg OsSem.count hcompletion).trans hz, hs.trans hf, ?_⟩) fun u hu => ?_
    · split <;> rfl
    · split at hu <;> cases hu
  | deleteBegin t =>
    cases h
    obtain ⟨hcompletion, hc, hs, hgo⟩ := deleteBegin_frame (m.thread t).toOsThread
    refine .setCompletion hc
      (fun hz hf => ⟨(congrArg OsSem.count hcompletion).trans hz, hs.trans hf, ?_⟩) fun u hu => ?_
    · split
      case h_1 => rfl
      case h_2 hnone => rw [hgo hnone] at hf; cases hf
    · split at hu
      case h_1 => cases hu
      case h_2 => cases hu; rfl
  | joinTake t timeout =>
    simp only [joinStep] at h
    split at h
    case h_1 v hv =>
      cases h
      obtain ⟨hcount, hc⟩ := joinTake_eq_some hv
      exact .setCompletion hc (fun hz => absurd hz hcount) fun u hu => by cases hu; rfl
    case h_2 =>
      cases h
      refine .of_mem (.inl ?_)
      split <;> rfl
  | joinWaiting t timeout =>
    obtain ⟨v, hv, h⟩ := Option.map_eq_some_iff.mp h
    cases h
    obtain ⟨hcount, hc⟩ := joinTake_eq_some hv
    exact .setCompletion hc (fun hz => absurd hz hcount) fun u hu => by cases hu; rfl
  | joinAbandon t timeout =>
    cases h
    exact .setCompletion rfl (fun hz hs => ⟨hz, hs, rfl⟩) fun u hu => by cases hu
  | reap t =>
    cases h
    refine ⟨rfl, rfl, fun u => ?_, fun u hz hf hr => ?_⟩
    · rw [Mem.reap, Mem.setThread_thread, Function.update_apply]
      split
      case isTrue he => subst he; exact ⟨rfl, rfl, rfl⟩
      case isFalse => exact ⟨rfl, rfl, rfl⟩
    · have hne : u ≠ t := fun he => hr (by rw [he]; rfl)
      rw [Mem.reap, Mem.setThread_thread, Function.update_of_ne hne]
      refine ⟨hz, hf, ?_⟩
      split
      · exact hr
      · exact fun he => by cases he
  | reapDelete t =>
    cases h
    exact .of_mem (.inl rfl)

omit [DecidableEq T] in
theorem JoinPc.record_cases (p : JoinPc T) :
    p.record = none ∨ ∃ t, p.record = some (t, .semDelete) ∧ p.reaping = some t := by
  cases p with
  | reapDelete t => exact .inr ⟨t, rfl, rfl⟩
  | _ => exact .inl rfl

theorem note_join (record : T → TaskRecord) (p : JoinPc T) (t : T) :
    (note record p.record t).deletes = (record t).deletes ∧
      (note record p.record t).gives = (record t).gives ∧
      (note record p.record t).lateGives = (record t).lateGives ∧
      (note record p.record t).byAbort = (record t).byAbort ∧
      (p.reaping ≠ some t → (note record p.record t).semDeleted = (record t).semDeleted) := by
  rcases p.record_cases with hr | ⟨u, hr, hp⟩
  · rw [hr]
    exact ⟨rfl, rfl, rfl, rfl, fun _ => rfl⟩
  · rw [hr, hp]
    by_cases hu : t = u
    · subst hu
      rw [note_same]
      exact ⟨rfl, rfl, rfl, rfl, fun hne => absurd rfl hne⟩
    · rw [note_other hu]
      exact ⟨rfl, rfl, rfl, rfl, fun _ => rfl⟩

omit [DecidableEq M] [DecidableEq Q] in
theorem JoinFrame.course {p' : JoinPc T} (hf : JoinFrame s.base.mem m' (s.join c) p') (t : T) :
    CourseStep (.thread t) (s.course t) ((s.setJoin c m' p').course t) := by
  obtain ⟨hcompleted, haborted, -⟩ := hf.thread t
  obtain ⟨hdeletes, hgives, hlate, -, hsem⟩ := note_join s.record (s.join c) t
  have hv : (s.setJoin c m' p').course t =
      { s.course t with unused := ((s.setJoin c m' p').course t).unused } := by
    ext1
    case deleted => exact congrFun hf.deleted t
    case unused => rfl
    all_goals first | assumption | rfl
  refine .of_eq (.join fun ⟨hcount, hsignaled, hsemd, hreap⟩ => ?_) hv
  obtain ⟨hcount', hsignaled', hp'⟩ := hf.unused t hcount hsignaled (hreap c)
  refine ⟨hcount', hsignaled', (hsem (hreap c)).trans hsemd, fun d => ?_⟩
  show (Function.update s.join c p' d).reaping ≠ _
  rw [Function.update_apply]
  split
  case isTrue => exact hp'
  case isFalse => exact hreap d

omit [DecidableEq M] [DecidableEq Q] in
/-- A caller starts a call, a join or a delete, or stops waiting for a completion. -/
theorem course_setJoinPc {p' : JoinPc T} (hp' : p'.reaping = none) (t : T) :
    CourseStep (.thread t) (s.course t)
      (LifeState.course { s with join := Function.update s.join c p' } t) := by
  refine .join fun ⟨hcount, hsignaled, hsem, hreap⟩ => ⟨hcount, hsignaled, hsem, fun d => ?_⟩
  show (Function.update s.join c p' d).reaping ≠ _
  rw [Function.update_apply]
  split
  case isTrue => rw [hp']; exact fun he => by cases he
  case isFalse => exact hreap d

/-! ## Runs -/

omit [DecidableEq M] [DecidableEq Q] in
/-- A call that has no part in the end of a thread, neither before nor behind a step. -/
theorem course_move (hp : s.base.call c = p) (hl : p.leaving = .staying) (ha : p.aborts = none)
    (hl' : p'.leaving = .staying) (ha' : p'.aborts = none) (t : T) :
    LifeState.course { s with base := s.base.setCall c s.base.mem p' } t = s.course t := by
  refine LifeState.course_eq rfl rfl rfl ?_ (fun d => ?_) rfl rfl
  · show ((s.base.setCall c s.base.mem p').call _).leaving = _
    rw [State.setCall_call]
    split
    case isTrue hc => rw [hl', hc, hp, hl]
    case isFalse => rfl
  · show ((s.base.setCall c s.base.mem p').call d).abortStage t = _
    rw [State.setCall_call]
    split
    case isTrue hc =>
      rw [Pc.abortStage_none ha', hc, hp, Pc.abortStage_none ha]
    case isFalse => rfl

omit [DecidableEq T] [DecidableEq M] [DecidableEq Q] in
theorem Op.entry_life (op : Op T M Q) : op.entry.leaving = .staying ∧ op.entry.aborts = none := by
  cases op <;> exact ⟨rfl, rfl⟩

omit [DecidableEq T] [DecidableEq M] [DecidableEq Q] in
theorem Pc.life_of_free (h : p.free = true) : p.leaving = .staying ∧ p.aborts = none := by
  cases p with
  | idle | done => exact ⟨rfl, rfl⟩
  | _ => cases h

omit [DecidableEq T] [DecidableEq M] [DecidableEq Q] [DecidableEq N] in
theorem callExpire_life {m : Mem T M Q} (h : callExpire c m p = some p') :
    (p.leaving = .staying ∧ p.aborts = none) ∧ p'.leaving = .staying ∧ p'.aborts = none := by
  obtain ⟨_, _, -, -, -, ⟨_, _, _, rfl, rfl⟩ | ⟨_, _, _, rfl, rfl⟩⟩ := callExpire_cases h
  all_goals exact ⟨⟨rfl, rfl⟩, rfl, rfl⟩

/-- **Every step of the system is one of the steps of the end of each thread.** -/
theorem LifeCase.course {a : LifeAct T M Q N} (h : LifeCase port s a s') (hok : QuietTarget s a)
    (t : T) : CourseStep (.thread t) (s.course t) (s'.course t) := by
  cases h with
  | @call c op hf =>
    obtain ⟨hl, ha⟩ := Pc.life_of_free hf
    exact .of_eq .same (course_move rfl hl ha op.entry_life.1 op.entry_life.2 t)
  | step ha hs => exact (callStep_lifeEffect hs).course rfl ha hok t
  | expire hs =>
    obtain ⟨⟨hl, ha⟩, hl', ha'⟩ := callExpire_life hs
    exact .of_eq .same (course_move rfl hl ha hl' ha' t)
  | tick => exact .same
  | @join c op => exact course_setJoinPc (by cases op <;> rfl) t
  | joinStep hs => exact (joinStep_frame hs).course t
  | @joinExpire c j' hs =>
    refine course_setJoinPc ?_ t
    cases hj : s.join c with
    | joinWaiting =>
      rw [hj] at hs
      obtain ⟨-, hs⟩ := Option.ite_none_right_eq_some.mp hs
      cases hs
      rfl
    | _ => rw [hj] at hs; cases hs

end

end HazelOsal.FreeRtos
