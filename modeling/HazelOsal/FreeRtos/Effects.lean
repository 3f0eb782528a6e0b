import HazelOsal.FreeRtos.System

/-! # What a step does to the wait queues and mutexes

The inversion of `callStep`, made once: a step either leaves the wait queues, the mutexes and the
priorities alone (`Quiet`), or it is one of the critical sections listed in `Effect`, whose tests
have succeeded. -/

namespace HazelOsal.FreeRtos

variable {T M Q N : Type} [DecidableEq T] [DecidableEq M]

/-! ## Steps that leave the wait queues and mutexes alone -/

/-- The state of a thread matters while it is on a wait queue only. -/
structure SameSync (m m' : Mem T M Q) : Prop where
  queue : m'.queue = m.queue
  mutex : m'.mutex = m.mutex
  uxPriority : m'.uxPriority = m.uxPriority
  handle : ∀ t, (m'.thread t).handle = (m.thread t).handle
  waitQ : ∀ t, (m'.thread t).waitQ = (m.thread t).waitQ
  waitingMutex : ∀ t, (m'.thread t).waitingMutex = (m.thread t).waitingMutex
  basePriority : ∀ t, (m'.thread t).basePriority = (m.thread t).basePriority
  ownedMutexes : ∀ t, (m'.thread t).ownedMutexes = (m.thread t).ownedMutexes
  state : ∀ t, (m.thread t).waitQ ≠ none → (m'.thread t).state = (m.thread t).state

namespace SameSync

variable {m m' m'' : Mem T M Q} {t : T} {mu : M}

omit [DecidableEq T] [DecidableEq M] in
/-- Nothing but native notifications and tasks, the clock and the history changes. -/
theorem of_eq (hq : m'.queue = m.queue) (hm : m'.mutex = m.mutex)
    (hu : m'.uxPriority = m.uxPriority) (ht : m'.thread = m.thread) : SameSync m m' where
  queue := hq
  mutex := hm
  uxPriority := hu
  handle _ := by rw [ht]
  waitQ _ := by rw [ht]
  waitingMutex _ := by rw [ht]
  basePriority _ := by rw [ht]
  ownedMutexes _ := by rw [ht]
  state _ _ := by rw [ht]

omit [DecidableEq T] [DecidableEq M] in
theorem refl (m : Mem T M Q) : SameSync m m := of_eq rfl rfl rfl rfl

omit [DecidableEq T] [DecidableEq M] in
theorem trans (h : SameSync m m') (h' : SameSync m' m'') : SameSync m m'' where
  queue := h'.queue.trans h.queue
  mutex := h'.mutex.trans h.mutex
  uxPriority := h'.uxPriority.trans h.uxPriority
  handle t := (h'.handle t).trans (h.handle t)
  waitQ t := (h'.waitQ t).trans (h.waitQ t)
  waitingMutex t := (h'.waitingMutex t).trans (h.waitingMutex t)
  basePriority t := (h'.basePriority t).trans (h.basePriority t)
  ownedMutexes t := (h'.ownedMutexes t).trans (h.ownedMutexes t)
  state t ht := (h'.state t (by rwa [h.waitQ])).trans (h.state t ht)

omit [DecidableEq M] in
theorem forget : SameSync m (m.forget t) := of_eq rfl rfl rfl rfl

omit [DecidableEq M] in
theorem remove {r : Removal M Q} : SameSync m (m.remove t r) := of_eq rfl rfl rfl rfl

theorem recordLock : SameSync m (m.recordLock t mu) := of_eq rfl rfl rfl rfl

theorem recordUnlock : SameSync m (m.recordUnlock t mu) := of_eq rfl rfl rfl rfl

section
omit [DecidableEq M]

theorem takeNotification : SameSync m (m.takeNotification t) := of_eq rfl rfl rfl rfl

theorem vTaskDelete : SameSync m (m.vTaskDelete t) := of_eq rfl rfl rfl rfl

theorem osWaitqNotifyThreadLocked {value : UInt32} :
    SameSync m (osWaitqNotifyThreadLocked m t value) := by
  rw [FreeRtos.osWaitqNotifyThreadLocked]
  split <;> exact of_eq rfl rfl rfl rfl

/-- An update of one thread that changes none of the fields concerned. -/
theorem setThread {v : OsThread M Q} (hh : v.handle = (m.thread t).handle)
    (hw : v.waitQ = (m.thread t).waitQ) (hm : v.waitingMutex = (m.thread t).waitingMutex)
    (hb : v.basePriority = (m.thread t).basePriority)
    (ho : v.ownedMutexes = (m.thread t).ownedMutexes)
    (hs : (m.thread t).waitQ = none ∨ v.state = (m.thread t).state) :
    SameSync m (m.setThread t v) := by
  constructor
  case queue | mutex | uxPriority => rfl
  case state =>
    intro u hu
    rw [Mem.setThread_thread, Function.update_apply]
    split
    case isTrue he => subst he; exact hs.resolve_left hu
    case isFalse => rfl
  all_goals
    intro u
    rw [Mem.setThread_thread, Function.update_apply]
    split
    case isTrue he => subst he; assumption
    case isFalse => rfl

theorem setCompletion {v : HazelOsal.OsThread} : SameSync m (m.setCompletion t v) :=
  setThread rfl rfl rfl rfl rfl (.inr rfl)

end

end SameSync

variable [DecidableEq Q]

/-- The thread that releases a mutex finds no waiter, or removes the first one. -/
theorem mutexWakeHead_cases (m : Mem T M Q) (mu : M) :
    osMutexWakeHead m mu = m ∨
      ∃ t rest, m.queue (.mutex mu) = t :: rest ∧
        SameSync ((m.setQueue (.mutex mu) rest).setThread t { m.thread t with
          waitQ := none, waitingMutex := none, waitResult := 0, state := .ready })
          (osMutexWakeHead m mu) := by
  rw [osMutexWakeHead]
  split
  case h_1 => exact .inl rfl
  case h_2 t rest hl =>
    exact .inr ⟨t, rest, hl, SameSync.trans .osWaitqNotifyThreadLocked .remove⟩

/-- `os_waitq_wake_one` finds a wait queue empty, or removes its head. -/
theorem waitqWakeHead_cases (m : Mem T M Q) (q : Q) (reason : UInt32) :
    osWaitqWakeHead m q reason = m ∨
      ∃ t rest, m.queue (.plain q) = t :: rest ∧
        SameSync ((m.setQueue (.plain q) rest).setThread t { m.thread t with
          waitQ := none, waitResult := reason, state := .ready })
          (osWaitqWakeHead m q reason) := by
  rw [osWaitqWakeHead]
  split
  case h_1 => exact .inl rfl
  case h_2 t rest hl =>
    exact .inr ⟨t, rest, hl, SameSync.trans .osWaitqNotifyThreadLocked .remove⟩

/-! ## The critical sections -/

/-- The wait queue a call is on between its two critical sections, if nobody has removed it. -/
def Pc.waitsOn : Pc T M Q → Option (WaitQ M Q)
  | .lockNotifyWait mu .. | .lockWaiting mu .. | .lockFinish mu .. => some (.mutex mu)
  | .blockNotifyWait q .. | .blockWaiting q .. | .blockFinish q .. => some (.plain q)
  | _ => none

/-- The mutex a call of `os_mutex_lock` has found initialized. -/
def Pc.locking : Pc T M Q → Option M
  | .lockStart mu _ | .lockTry mu .. | .lockNotifyWait mu .. | .lockWaiting mu ..
  | .lockFinish mu .. => some mu
  | _ => none

/-- The mutex that a call of `os_mutex_deinit` is about to clear. -/
def Pc.zeroing : Pc T M Q → Option M
  | .deinitZero mu => some mu
  | _ => none

/-- A step that leaves the wait queues, the mutexes, the native tasks and the history alone. -/
structure Quiet (c : Caller T N) (m : Mem T M Q) (p : Pc T M Q) (m' : Mem T M Q) (p' : Pc T M Q) :
    Prop where
  sync : SameSync m m'
  deleted : m'.deleted = m.deleted
  tick : m'.tick = m.tick
  hist : m'.hist = m.hist
  notification : ∀ t, m'.notification t = m.notification t ∨ c = .thread t ∧ p.waitsOn ≠ none
  waitsOn : p'.waitsOn = p.waitsOn ∨
    p'.waitsOn = none ∧ ∀ t, c.current = some t → (m.thread t).waitQ = none
  locking : p'.locking = none ∨ p'.locking = p.locking ∨
    ∃ mu, p'.locking = some mu ∧ (m.mutex mu).initialized = true
  zeroing : p'.zeroing = none

/-- The steps of a context at `p` that change a wait queue, a mutex, a priority or the state of a
waiting thread, delete a native task, or refuse to wait, with the tests that have succeeded. -/
inductive Effect (port : Port) (c : Caller T N) (m : Mem T M Q) :
    Pc T M Q → Mem T M Q → Pc T M Q → Prop
  | same (h : Quiet c m p m' p') : Effect port c m p m' p'
  | delete (ht : p = .abortDelete t ∨ p = .exitDelete ∧ c = .thread t)
    (hp : p'.waitsOn = none) (hl : p'.locking = none) (hz : p'.zeroing = none) :
    Effect port c m p (m.vTaskDelete t) p'
  | refuse (hc : c = .thread t) (ho : (m.mutex mu).owner ≠ none)
    (hr : timeout = OS_WAIT_FOREVER → r = -EDEADLK) :
    Effect port c m (.lockTry mu timeout start) (m.forget t) (.done r)
  | acquire (hc : c = .thread t) (ho : (m.mutex mu).owner = none) :
    Effect port c m (.lockTry mu timeout start) (osMutexAcquire (m.forget t) t mu) (.done 0)
  | recurse (hc : c = .thread t) (ho : (m.mutex mu).owner = some t) :
    Effect port c m (.lockTry mu timeout start) (osMutexRecurse (m.forget t) t mu) (.done 0)
  | enqueue (hc : c = .thread t) (ho : (m.mutex mu).owner ≠ none)
    (hd : osMutexWouldDeadlockLocked m t mu = false) :
    Effect port c m (.lockTry mu timeout start) (osMutexEnqueue port (m.forget t) t mu)
      (.lockNotifyWait mu timeout start remaining)
  | abandon (hc : c = .thread t) (hw : (m.thread t).waitQ ≠ none) :
    Effect port c m (.lockFinish mu timeout start notified) (osMutexAbandon port m t mu)
      (.done r)
  | awake (hc : c = .thread t) (hw : (m.thread t).waitQ = none) :
    Effect port c m (.lockFinish mu timeout start notified)
      (m.setThread t { m.thread t with state := .ready, waitingMutex := none })
      (.lockTry mu timeout start)
  | unlockNested (hc : c = .thread t) (ho : (m.mutex mu).owner = some t)
    (hn : (m.mutex mu).lockCount ≠ 0) (hl : (m.mutex mu).lockCount - 1 > 0) :
    Effect port c m (.unlockLock mu)
      ((m.setMutex mu { m.mutex mu with lockCount := (m.mutex mu).lockCount - 1 }).recordUnlock
        t mu) (.done 0)
  | release (hc : c = .thread t) (ho : (m.mutex mu).owner = some t)
    (hn : (m.mutex mu).lockCount ≠ 0) (hl : ¬ (m.mutex mu).lockCount - 1 > 0) :
    Effect port c m (.unlockLock mu) ((osMutexRelease port m t mu).recordUnlock t mu) (.done 0)
  | deinit (ho : (m.mutex mu).owner = none) (hq : m.queue (.mutex mu) = []) :
    Effect port c m (.deinitLock mu) (m.setMutex mu { m.mutex mu with initialized := false })
      (.deinitZero mu)
  | zero : Effect port c m (.deinitZero mu) (osMutexDeinitZero m mu) (.done 0)
  | block (hc : c = .thread t) :
    Effect port c m (.blockLock q timeout) (osWaitqBlockEnqueue m t q)
      (.blockNotifyWait q timeout m.tick)
  | unblock (hc : c = .thread t) (hw : (m.thread t).waitQ ≠ none) :
    Effect port c m (.blockFinish q timeout began notified notify) (osWaitqBlockUnlink m t)
      (.done (-ETIMEDOUT))
  | wakeOne : Effect port c m (.wakeOneLock q reason) (osWaitqWakeHead m q reason) .idle
  | wakeAll : Effect port c m (.wakeAllLock q reason) (osWaitqWakeAll m q reason) .idle
  | setPriority :
    Effect port c m (.setPriorityLock t priority)
      (osThreadSetPriorityCritical port m t priority) .idle
  | abortWaiting (ho : (m.thread t).ownedMutexes = []) (hw : (m.thread t).waitQ ≠ none)
    (hp : p'.waitsOn = none) (hl : p'.locking = none) (hz : p'.zeroing = none) :
    Effect port c m (.abortLock t) (osThreadAbortMark (osThreadAbortDequeue port m t) t) p'
  | exit (hc : c = .thread t) :
    Effect port c m .exitComplete
      (m.setThread t
        { m.thread t with toOsThread := (m.thread t).entryComplete, state := .terminated })
      .exitGive

variable {port : Port} {c : Caller T N} {m m' : Mem T M Q} {p p' : Pc T M Q}

/-- A step of a call that does not touch the shared memory. -/
theorem Effect.move (hp : p'.waitsOn = p.waitsOn)
    (hl : p'.locking = none ∨ p'.locking = p.locking) (hz : p'.zeroing = none) :
    Effect port c m p m p' :=
  .same ⟨.refl m, rfl, rfl, rfl, fun _ => .inl rfl, .inl hp, hl.imp_right .inl, hz⟩

theorem Effect.take {t : T} (hc : c.current = some t) (hw : p.waitsOn ≠ none)
    (hp : p'.waitsOn = p.waitsOn) (hl : p'.locking = p.locking) (hz : p'.zeroing = none) :
    Effect port c m p (m.takeNotification t) p' := by
  refine .same ⟨.takeNotification, rfl, rfl, rfl, fun u => ?_, .inl hp, .inr (.inl hl), hz⟩
  by_cases hu : u = t
  · exact .inr ⟨hu ▸ Caller.current_eq_some hc, hw⟩
  · exact .inl (Function.update_of_ne hu ..)

theorem Effect.complete {t : T} {v : HazelOsal.OsThread} (hp : p'.waitsOn = p.waitsOn)
    (hl : p'.locking = none) (hz : p'.zeroing = none) :
    Effect port c m p (m.setCompletion t v) p' :=
  .same ⟨.setCompletion, rfl, rfl, rfl, fun _ => .inl rfl, .inl hp, .inl hl, hz⟩

omit [DecidableEq M] [DecidableEq Q] in
theorem wouldDeadlockFrom_congr (ht : m'.thread = m.thread) (hm : m'.mutex = m.mutex) (t : T)
    (rounds : Nat) (owner : Option T) :
    osMutexWouldDeadlockFrom m' t rounds owner = osMutexWouldDeadlockFrom m t rounds owner := by
  induction rounds generalizing owner with
  | zero => rfl
  | succ rounds ih =>
    cases owner with
    | none => rfl
    | some owner => simp only [osMutexWouldDeadlockFrom, ht, hm, ih]

omit [DecidableEq M] [DecidableEq Q] in
theorem wouldDeadlock_forget {t u : T} {mu : M} :
    osMutexWouldDeadlockLocked (m.forget u) t mu = osMutexWouldDeadlockLocked m t mu := by
  apply wouldDeadlockFrom_congr <;> rfl

theorem lockTry_effect {mu : M} {timeout : UInt32} {start : Nat}
    (h : callStep port c m (.lockTry mu timeout start) = some (m', p')) :
    Effect port c m (.lockTry mu timeout start) m' p' := by
  obtain ⟨t, hc, h⟩ := Option.map_eq_some_iff.mp h
  have hc' := Caller.current_eq_some hc
  simp only [osMutexLockTry, Mem.forget_mutex] at h
  split at h
  case isTrue ho => cases h; exact .acquire hc' ho
  case isFalse ho =>
    split at h
    case isTrue ho' => cases h; exact .recurse hc' ho'
    case isFalse =>
      split at h
      case isTrue ht =>
        cases h
        exact .refuse hc' ho fun he => absurd (he.symm.trans ht) (by decide)
      case isFalse =>
        split at h
        case isTrue => cases h; exact .refuse hc' ho fun _ => rfl
        case isFalse hd =>
          have hd : osMutexWouldDeadlockLocked (m.forget t) t mu = false := Bool.eq_false_iff.mpr hd
          rw [wouldDeadlock_forget] at hd
          split at h
          case isTrue => cases h; exact .enqueue hc' ho hd
          case isFalse hf =>
            split at h
            case isTrue => cases h; exact .refuse hc' ho fun he => absurd he hf
            case isFalse => cases h; exact .enqueue hc' ho hd

theorem lockFinish_effect {mu : M} {timeout : UInt32} {start : Nat} {notified : Bool}
    (h : callStep port c m (.lockFinish mu timeout start notified) = some (m', p')) :
    Effect port c m (.lockFinish mu timeout start notified) m' p' := by
  obtain ⟨t, hc, h⟩ := Option.map_eq_some_iff.mp h
  have hc' := Caller.current_eq_some hc
  simp only [osMutexLockFinish] at h
  split at h
  case isTrue hw => cases h; exact .abandon hc' hw
  case isFalse hw => cases h; exact .awake hc' (not_not.mp hw)

theorem unlockLock_effect {mu : M} (h : callStep port c m (.unlockLock mu) = some (m', p')) :
    Effect port c m (.unlockLock mu) m' p' := by
  obtain ⟨t, hc, h⟩ := Option.map_eq_some_iff.mp h
  have hc' := Caller.current_eq_some hc
  simp only [osMutexUnlockCritical] at h
  split at h
  case isTrue => cases h; exact .move rfl (.inl rfl) rfl
  case isFalse ho =>
    split at h
    case isTrue => cases h; exact .move rfl (.inl rfl) rfl
    case isFalse hn =>
      split at h
      case isTrue hl => cases h; exact .unlockNested hc' (not_not.mp ho) hn hl
      case isFalse hl => cases h; exact .release hc' (not_not.mp ho) hn hl

theorem blockFinish_effect {q : Q} {timeout notify : UInt32} {began : Nat} {notified : Bool}
    (h : callStep port c m (.blockFinish q timeout began notified notify) = some (m', p')) :
    Effect port c m (.blockFinish q timeout began notified notify) m' p' := by
  obtain ⟨t, hc, h⟩ := Option.map_eq_some_iff.mp h
  have hc' := Caller.current_eq_some hc
  simp only [osWaitqBlockFinish] at h
  split at h
  case isTrue hw => cases h; exact .unblock hc' hw
  case isFalse hw =>
    cases h
    have hw := not_not.mp hw
    refine .same ⟨.setThread rfl rfl rfl rfl rfl (.inl hw), rfl, rfl, rfl, fun _ => .inl rfl,
      .inr ⟨rfl, fun u hu => ?_⟩, .inl rfl, rfl⟩
    cases hc.symm.trans hu
    exact hw

/-- **The steps that change a wait queue, a mutex or a priority are the critical sections.** -/
theorem callStep_effect (h : callStep port c m p = some (m', p')) : Effect port c m p m' p' := by
  cases p with
  | idle | done => cases h
  | lockTry => exact lockTry_effect h
  | lockFinish => exact lockFinish_effect h
  | unlockLock => exact unlockLock_effect h
  | blockFinish => exact blockFinish_effect h
  | lockEnter mu =>
    simp only [callStep] at h
    split at h
    case isTrue => cases h; exact .move rfl (.inl rfl) rfl
    case isFalse hi =>
      split at h
      case isTrue => cases h; exact .move rfl (.inl rfl) rfl
      case isFalse =>
        split at h
        case isTrue => cases h; exact .move rfl (.inl rfl) rfl
        case isFalse =>
          cases h
          refine .same ⟨.refl m, rfl, rfl, rfl, fun _ => .inl rfl, .inl rfl,
            .inr (.inr ⟨mu, rfl, ?_⟩), rfl⟩
          simpa using hi
  | unlockEnter | deinitEnter | abortEnter | blockEnter =>
    simp only [callStep] at h
    split at h
    case isTrue => cases h; exact .move rfl (.inl rfl) rfl
    case isFalse =>
      split at h
      case isTrue => cases h; exact .move rfl (.inl rfl) rfl
      case isFalse =>
        try split at h
        all_goals cases h; exact .move rfl (.inl rfl) rfl
  | setPriorityEnter =>
    simp only [callStep] at h
    split at h
    all_goals cases h; exact .move rfl (.inl rfl) rfl
  | lockStart => cases h; exact .move rfl (.inr rfl) rfl
  | lockNotifyWait | blockNotifyWait =>
    obtain ⟨t, hc, h⟩ := Option.map_eq_some_iff.mp h
    split at h
    · cases h; exact .take hc (Option.some_ne_none _) rfl rfl rfl
    · cases h; exact .move rfl (.inr rfl) rfl
  | lockWaiting | blockWaiting =>
    obtain ⟨t, hc, h⟩ := Option.bind_eq_some_iff.mp h
    obtain ⟨value, hv, h⟩ := Option.map_eq_some_iff.mp h
    cases h
    exact .take hc (Option.some_ne_none _) rfl rfl rfl
  | deinitLock mu =>
    simp only [callStep, osMutexDeinitCritical] at h
    split at h
    case isTrue => cases h; exact .move rfl (.inl rfl) rfl
    case isFalse hd =>
      cases h
      obtain ⟨ho, hq⟩ := not_or.mp hd
      exact .deinit (not_not.mp ho) (not_not.mp hq)
  | deinitZero => cases h; exact .zero
  | blockLock =>
    obtain ⟨t, hc, h⟩ := Option.map_eq_some_iff.mp h
    cases h
    exact .block (Caller.current_eq_some hc)
  | wakeOneLock => cases h; exact .wakeOne
  | wakeAllLock => cases h; exact .wakeAll
  | setPriorityLock => cases h; exact .setPriority
  | abortLock t =>
    simp only [callStep, osThreadAbortCritical] at h
    split at h
    case isTrue => cases h; exact .move rfl (.inl rfl) rfl
    case isFalse =>
      split at h
      case isTrue => cases h; exact .move rfl (.inl rfl) rfl
      case isFalse ho =>
        have ho := not_not.mp ho
        split at h
        case isTrue hw =>
          cases h
          refine .abortWaiting ho hw ?_ ?_ ?_
          all_goals dsimp only; split <;> rfl
        case isFalse hw =>
          cases h
          refine .same ⟨.setThread rfl rfl rfl rfl rfl (.inl (not_not.mp hw)), rfl, rfl, rfl,
            fun _ => .inl rfl, .inl ?_, .inl ?_, ?_⟩
          all_goals dsimp only; split <;> rfl
  | abortDelete t =>
    cases h
    refine .delete (.inl rfl) ?_ ?_ ?_
    all_goals split <;> rfl
  | abortGive => cases h; exact .complete rfl rfl rfl
  | abortSignal t =>
    cases h
    refine .complete ?_ ?_ ?_
    all_goals split <;> rfl
  | exitComplete =>
    obtain ⟨t, hc, h⟩ := Option.map_eq_some_iff.mp h
    cases h
    exact .exit (Caller.current_eq_some hc)
  | exitGive | exitSignal =>
    obtain ⟨t, hc, h⟩ := Option.map_eq_some_iff.mp h
    cases h
    exact .complete rfl rfl rfl
  | exitDelete =>
    obtain ⟨t, hc, h⟩ := Option.map_eq_some_iff.mp h
    cases h
    exact .delete (.inr ⟨rfl, Caller.current_eq_some hc⟩) rfl rfl rfl

end HazelOsal.FreeRtos
