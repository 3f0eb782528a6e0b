import HazelOsal.FreeRtos.Invariant

/-! # The wait of one thread

`Slot` is what a wait of a thread depends on: the wait queue it is on, what removed it from there,
and its pending native notification. A step of another context changes it only by removing the
thread from its wait queue (`SlotChange`), and the steps of the thread's own call are listed in
`OwnStep`. -/

namespace HazelOsal.FreeRtos

open TransitionSystem

variable {T M Q N : Type} [DecidableEq T] [DecidableEq M] [DecidableEq Q]

structure Slot (M Q : Type) where
  waitQ : Option (WaitQ M Q)
  removed : Option (Removal M Q)
  notification : Option UInt32

def Mem.slot (m : Mem T M Q) (t : T) : Slot M Q :=
  ⟨(m.thread t).waitQ, m.hist.removed t, m.notification t⟩

section
variable {port : Port} {m : Mem T M Q} {t u : T} {mu : M}

omit [DecidableEq M] [DecidableEq Q] in
@[simp] theorem slot_setThread_ne {v : OsThread M Q} (h : u ≠ t) :
    (m.setThread t v).slot u = m.slot u := by
  simp [Mem.slot, h]

omit [DecidableEq M] [DecidableEq Q] in
theorem slot_setThread {v : OsThread M Q} (h : v.waitQ = (m.thread t).waitQ) :
    (m.setThread t v).slot u = m.slot u := by
  by_cases hu : u = t
  · simp [Mem.slot, hu, h]
  · exact slot_setThread_ne hu

omit [DecidableEq T] [DecidableEq Q] in
@[simp] theorem slot_setMutex {v : OsMutex T} : (m.setMutex mu v).slot u = m.slot u := rfl

omit [DecidableEq T] in
@[simp] theorem slot_setQueue {q : WaitQ M Q} {l : List T} :
    (m.setQueue q l).slot u = m.slot u := rfl

omit [DecidableEq M] [DecidableEq Q] in
@[simp] theorem slot_unlinkWait : (m.unlinkWait t).slot u = m.slot u := rfl

omit [DecidableEq T] [DecidableEq Q] in
@[simp] theorem slot_unlinkOwner : (m.unlinkOwner mu).slot u = m.slot u := rfl

omit [DecidableEq Q] in
@[simp] theorem slot_recordLock : (m.recordLock t mu).slot u = m.slot u := rfl

omit [DecidableEq Q] in
@[simp] theorem slot_recordUnlock : (m.recordUnlock t mu).slot u = m.slot u := rfl

omit [DecidableEq M] [DecidableEq Q] in
@[simp] theorem slot_forget_ne (h : u ≠ t) : (m.forget t).slot u = m.slot u := by
  simp [Mem.slot, Mem.forget, h]

omit [DecidableEq M] [DecidableEq Q] in
@[simp] theorem slot_remove_ne {r : Removal M Q} (h : u ≠ t) :
    (m.remove t r).slot u = m.slot u := by
  simp [Mem.slot, Mem.remove, h]

omit [DecidableEq M] [DecidableEq Q] in
@[simp] theorem slot_notify_ne {value : UInt32} (h : u ≠ t) :
    (osWaitqNotifyThreadLocked m t value).slot u = m.slot u := by
  rw [osWaitqNotifyThreadLocked]
  split
  · simp [Mem.slot, h]
  · rfl

@[simp] theorem slot_updatePiChain {start : Option T} :
    (osMutexUpdatePiChainLocked port m start).slot u = m.slot u := by
  simp [Mem.slot]

/-! ## Steps of others -/

/-- The points at which a step of a call belongs to the wait of its thread. -/
def Pc.parks : Pc T M Q → Bool
  | .lockTry .. | .lockNotifyWait .. | .lockWaiting .. | .lockFinish .. => true
  | .blockLock .. | .blockNotifyWait .. | .blockWaiting .. | .blockFinish .. => true
  | _ => false

omit [DecidableEq T] [DecidableEq M] [DecidableEq Q] in
theorem Pc.parks_of_waitsOn {p : Pc T M Q} (h : p.waitsOn ≠ none) : p.parks = true := by
  cases p <;> first | rfl | exact absurd rfl h

omit [DecidableEq T] [DecidableEq M] [DecidableEq Q] in
theorem Pc.waitsOn_of_not_parks {p : Pc T M Q} (h : p.parks = false) : p.waitsOn = none := by
  by_contra hw
  rw [parks_of_waitsOn hw] at h
  cases h

/-- What a step of a context at `p` does to the wait of a thread whose own wait it does not
belong to. -/
inductive SlotChange (c : Caller T N) (m : Mem T M Q) (p : Pc T M Q) (u : T) : Slot M Q → Prop
  | same : SlotChange c m p u (m.slot u)
  | unlock {t : T} {mu : M} (hw : (m.thread u).waitQ = some (.mutex mu))
    (hc : c = .thread t) (hp : p = .unlockLock mu) (ho : (m.mutex mu).owner = some t)
    (hn : (m.mutex mu).lockCount = 1) (hh : (m.queue (.mutex mu)).head? = some u) :
    SlotChange c m p u ⟨none, some (.unlock mu), some 0⟩
  | wake {q : Q} {reason : UInt32} (hw : (m.thread u).waitQ = some (.plain q))
    (hp : p = .wakeOneLock q reason ∧ (m.queue (.plain q)).head? = some u ∨
      p = .wakeAllLock q reason) :
    SlotChange c m p u ⟨none, some (.wake q reason), some reason⟩
  | abort (hw : (m.thread u).waitQ ≠ none) (hp : p = .abortLock u) :
    SlotChange c m p u ⟨none, some .abort, m.notification u⟩

theorem mutexWakeHead_slot (hh : ∀ t, (m.thread t).handle = true) (mu : M) (u : T) :
    (osMutexWakeHead m mu).slot u =
      if (m.queue (.mutex mu)).head? = some u then ⟨none, some (.unlock mu), some 0⟩
      else m.slot u := by
  rw [osMutexWakeHead]
  split
  case h_1 hl => simp [hl]
  case h_2 t rest hl =>
    rw [hl, List.head?_cons]
    split
    case isTrue he =>
      cases he
      simp [Mem.slot, Mem.remove, osWaitqNotifyThreadLocked, hh]
    case isFalse hne =>
      have hne : u ≠ t := fun he => hne (congrArg some he.symm)
      simp [hne]

theorem waitqWakeHead_slot (hh : ∀ t, (m.thread t).handle = true) (q : Q) (reason : UInt32)
    (u : T) : (osWaitqWakeHead m q reason).slot u =
      if (m.queue (.plain q)).head? = some u then ⟨none, some (.wake q reason), some reason⟩
      else m.slot u := by
  rw [osWaitqWakeHead]
  split
  case h_1 hl => simp [hl]
  case h_2 t rest hl =>
    rw [hl, List.head?_cons]
    split
    case isTrue he =>
      cases he
      simp [Mem.slot, Mem.remove, osWaitqNotifyThreadLocked, hh]
    case isFalse hne =>
      have hne : u ≠ t := fun he => hne (congrArg some he.symm)
      simp [hne]

theorem waitqWakeAll_slot (hq : QueueInv m) (hh : ∀ t, (m.thread t).handle = true) (q : Q)
    (reason : UInt32) (u : T) : (osWaitqWakeAll m q reason).slot u = m.slot u ∨
      (m.thread u).waitQ = some (.plain q) ∧
        (osWaitqWakeAll m q reason).slot u = ⟨none, some (.wake q reason), some reason⟩ := by
  suffices h : QueueInv (osWaitqWakeAll m q reason) ∧
      (∀ t, ((osWaitqWakeAll m q reason).thread t).handle = true) ∧
      ((osWaitqWakeAll m q reason).slot u = m.slot u ∨ (m.thread u).waitQ = some (.plain q) ∧
        (osWaitqWakeAll m q reason).slot u = ⟨none, some (.wake q reason), some reason⟩) from h.2.2
  refine wakeAll_induction (P := fun m' => QueueInv m' ∧ (∀ t, (m'.thread t).handle = true) ∧
    (m'.slot u = m.slot u ∨ (m.thread u).waitQ = some (.plain q) ∧
      m'.slot u = ⟨none, some (.wake q reason), some reason⟩)) ⟨hq, hh, .inl rfl⟩ ?_
  intro m' ⟨hq', hh', hs⟩
  refine ⟨hq'.waitqWakeHead, fun t => (Leaves.waitqWakeHead.handle t).trans (hh' t), ?_⟩
  rw [waitqWakeHead_slot hh']
  split
  case isTrue hhead =>
    have hw := (hq'.mem u _).mp (List.mem_of_head? hhead)
    rcases hs with hs | ⟨hw', -⟩
    · exact .inr ⟨(congrArg Slot.waitQ hs).symm.trans hw, rfl⟩
    · exact .inr ⟨hw', rfl⟩
  case isFalse => exact hs

/-- An unlock that releases a mutex removes the head of its wait queue. -/
theorem mutexRelease_slot (port : Port) (hh : ∀ t, (m.thread t).handle = true) (t : T) (mu : M)
    (u : T) :
    (osMutexRelease port m t mu).slot u =
      if (m.queue (.mutex mu)).head? = some u then ⟨none, some (.unlock mu), some 0⟩
      else m.slot u := by
  rw [osMutexRelease, slot_updatePiChain]
  exact mutexWakeHead_slot (m := osMutexDisown m mu) hh mu u

theorem lockCount_eq_one {n : UInt32} (hn : ¬ n - 1 > 0) : n = 1 := by
  have hzero : n - 1 = 0 := UInt32.toNat_inj.mp
    (Nat.eq_zero_of_not_pos fun hpos => hn (UInt32.lt_iff_toNat_lt.mpr hpos))
  rw [← UInt32.sub_add_cancel n 1, hzero, UInt32.zero_add]

variable {c : Caller T N} {m' : Mem T M Q} {p p' : Pc T M Q}

/-- **A step changes the wait of a thread, its own steps apart, only by removing it.** -/
theorem Effect.slotChange (he : Effect port c m p m' p') (hq : QueueInv m)
    (hh : ∀ t, (m.thread t).handle = true) (hown : c = .thread u → p.parks = false) :
    SlotChange c m p u (m'.slot u) := by
  have hsame (h : m'.slot u = m.slot u) : SlotChange c m p u (m'.slot u) := h ▸ .same
  have hne {t} (hc : c = .thread t) (hp : p.parks = true) : u ≠ t := by
    rintro rfl
    rw [hown hc] at hp
    cases hp
  cases he with
  | same hs =>
    refine hsame ?_
    rcases hs.notification u with hn | ⟨hc, hw⟩
    · simp only [Mem.slot, hs.sync.waitQ, hs.hist, hn]
    · exact absurd (Pc.waitsOn_of_not_parks (hown hc)) hw
  | delete | unlockNested | deinit | zero => exact .same
  | refuse hc => exact hsame (slot_forget_ne (hne hc rfl))
  | acquire hc =>
    have hne := hne hc rfl
    exact hsame (by simp [osMutexAcquire, hne])
  | recurse hc =>
    have hne := hne hc rfl
    exact hsame (by simp [osMutexRecurse, hne])
  | enqueue hc =>
    have hne := hne hc rfl
    exact hsame (by simp [osMutexEnqueue, osMutexLink, osWaitqInsertPriorityLocked, hne])
  | abandon hc =>
    have hne := hne hc rfl
    exact hsame (by simp [osMutexAbandon, osMutexUnlink, hne])
  | awake hc => exact hsame (slot_setThread_ne (hne hc rfl))
  | @release t mu hc ho hn hl =>
    rw [slot_recordUnlock, mutexRelease_slot port hh]
    split
    case isTrue hhead =>
      exact .unlock ((hq.mem u _).mp (List.mem_of_head? hhead)) hc rfl ho
        (lockCount_eq_one hl) hhead
    case isFalse => exact .same
  | block hc =>
    have hne := hne hc rfl
    exact hsame (by simp [osWaitqBlockEnqueue, osWaitqInsertPriorityLocked, hne])
  | unblock hc =>
    have hne := hne hc rfl
    exact hsame (by simp [osWaitqBlockUnlink, hne])
  | @wakeOne q reason =>
    rw [waitqWakeHead_slot hh]
    split
    case isTrue hhead =>
      exact .wake ((hq.mem u _).mp (List.mem_of_head? hhead)) (.inl ⟨rfl, hhead⟩)
    case isFalse => exact .same
  | @wakeAll q reason =>
    rcases waitqWakeAll_slot hq hh q reason u with hs | ⟨hw, hs⟩
    · exact hsame hs
    · exact hs ▸ .wake hw (.inr rfl)
  | @setPriority t priority =>
    refine hsame ?_
    rw [osThreadSetPriorityCritical]
    dsimp only
    split
    all_goals exact slot_updatePiChain.trans (slot_setThread rfl)
  | @abortWaiting t _ _ hw =>
    by_cases hu : u = t
    · subst hu
      have hslot : (osThreadAbortMark (osThreadAbortDequeue port m u) u).slot u =
          ⟨none, some .abort, m.notification u⟩ := by
        simp [Mem.slot, osThreadAbortMark, osThreadAbortDequeue, osThreadAbortUnlink, Mem.remove]
      exact hslot ▸ .abort hw rfl
    · refine hsame ?_
      simp [osThreadAbortMark, osThreadAbortDequeue, osThreadAbortUnlink, hu]
  | exit => exact hsame (slot_setThread rfl)

end

/-! ## Steps of the thread's own call -/

/-- The steps of a thread that belong to its waits, with what they do to its wait. -/
inductive OwnStep (port : Port) (m : Mem T M Q) (t : T) :
    Pc T M Q → Slot M Q → Pc T M Q → Prop
  | tried (hr : timeout = OS_WAIT_FOREVER → r = 0 ∨ r = -EDEADLK) :
    OwnStep port m t (.lockTry mu timeout start) { m.slot t with removed := none } (.done r)
  | enqueued (hr : timeout = OS_WAIT_FOREVER → remaining = OS_WAIT_FOREVER) :
    OwnStep port m t (.lockTry mu timeout start)
      { m.slot t with waitQ := some (.mutex mu), removed := none }
      (.lockNotifyWait mu timeout start remaining)
  | lockTaken (hn : m.notification t = some value)
    (hp : (∃ remaining, p = .lockNotifyWait mu timeout start remaining) ∨
      ∃ expiry, p = .lockWaiting mu timeout start expiry) :
    OwnStep port m t p { m.slot t with notification := none } (.lockFinish mu timeout start true)
  | lockParked (hn : m.notification t = none) :
    OwnStep port m t (.lockNotifyWait mu timeout start remaining) (m.slot t)
      (.lockWaiting mu timeout start (port.expiry m.tick (port.ticksToWait remaining)))
  | abandoned (hw : (m.thread t).waitQ ≠ none) :
    OwnStep port m t (.lockFinish mu timeout start notified) { m.slot t with waitQ := none }
      (.done (if notified then -EAGAIN else -ETIMEDOUT))
  | again (hw : (m.thread t).waitQ = none) :
    OwnStep port m t (.lockFinish mu timeout start notified) (m.slot t) (.lockTry mu timeout start)
  | blocked :
    OwnStep port m t (.blockLock q timeout) ⟨some (.plain q), none, m.notification t⟩
      (.blockNotifyWait q timeout m.tick)
  | blockTaken (hn : m.notification t = some value)
    (hp : p = .blockNotifyWait q timeout began ∨
      ∃ expiry, p = .blockWaiting q timeout began expiry) :
    OwnStep port m t p { m.slot t with notification := none }
      (.blockFinish q timeout began true value)
  | blockParked (hn : m.notification t = none) :
    OwnStep port m t (.blockNotifyWait q timeout began) (m.slot t)
      (.blockWaiting q timeout began (port.expiry m.tick (port.ticksToWait timeout)))
  | unblocked (hw : (m.thread t).waitQ ≠ none) :
    OwnStep port m t (.blockFinish q timeout began notified notify)
      { m.slot t with waitQ := none } (.done (-ETIMEDOUT))
  | returned (hw : (m.thread t).waitQ = none) :
    OwnStep port m t (.blockFinish q timeout began notified notify) (m.slot t)
      (.done (if notified then notify.toInt32.toInt else -ETIMEDOUT))

section
variable {port : Port} {m m' : Mem T M Q} {t : T} {p p' : Pc T M Q}

omit [DecidableEq M] [DecidableEq Q] in
@[simp] theorem slot_forget_self : (m.forget t).slot t = { m.slot t with removed := none } := by
  simp [Mem.slot, Mem.forget]

omit [DecidableEq M] [DecidableEq Q] in
@[simp] theorem slot_takeNotification_self :
    (m.takeNotification t).slot t = { m.slot t with notification := none } := by
  simp [Mem.slot]

theorem lockTry_ownStep {mu : M} {timeout : UInt32} {start : Nat}
    (h : callStep port (.thread t : Caller T N) m (.lockTry mu timeout start) = some (m', p')) :
    OwnStep port m t (.lockTry mu timeout start) (m'.slot t) p' := by
  have hforget : (m.forget t).slot t = { m.slot t with removed := none } := slot_forget_self
  have henqueue : (osMutexEnqueue port (m.forget t) t mu).slot t =
      { m.slot t with waitQ := some (.mutex mu), removed := none } := by
    rw [osMutexEnqueue, slot_updatePiChain]
    simp [osMutexLink, osWaitqInsertPriorityLocked, Mem.slot, Mem.forget]
  simp only [callStep, Caller.current, Option.map_some, osMutexLockTry] at h
  split at h
  case isTrue =>
    cases h
    have hslot : (osMutexAcquire (m.forget t) t mu).slot t =
        { m.slot t with removed := none } := by
      rw [osMutexAcquire, slot_recordLock]
      exact (slot_setThread (by rfl)).trans hforget
    exact hslot ▸ .tried fun _ => .inl rfl
  case isFalse =>
    split at h
    case isTrue => cases h; exact hforget ▸ .tried fun _ => .inl rfl
    case isFalse =>
      split at h
      case isTrue ht =>
        cases h
        exact hforget ▸ .tried fun he => absurd (he.symm.trans ht) (by decide)
      case isFalse =>
        split at h
        case isTrue => cases h; exact hforget ▸ .tried fun _ => .inr rfl
        case isFalse =>
          split at h
          case isTrue => cases h; exact henqueue ▸ .enqueued fun _ => rfl
          case isFalse hf =>
            split at h
            case isTrue => cases h; exact hforget ▸ .tried fun he => absurd he hf
            case isFalse => cases h; exact henqueue ▸ .enqueued fun he => absurd he hf

/-- **The steps of a thread that belong to its waits.** -/
theorem callStep_ownStep (h : callStep port (.thread t : Caller T N) m p = some (m', p'))
    (hp : p.parks = true) : OwnStep port m t p (m'.slot t) p' := by
  have htake : (m.takeNotification t).slot t = { m.slot t with notification := none } :=
    slot_takeNotification_self
  cases p with
  | lockTry => exact lockTry_ownStep h
  | lockNotifyWait =>
    simp only [callStep, Caller.current, Option.map_some] at h
    split at h
    case h_1 value hn => cases h; exact htake ▸ .lockTaken hn (.inl ⟨_, rfl⟩)
    case h_2 hn => cases h; exact .lockParked hn
  | lockWaiting =>
    obtain ⟨value, hn, h⟩ := Option.map_eq_some_iff.mp h
    cases h
    exact htake ▸ .lockTaken hn (.inr ⟨_, rfl⟩)
  | lockFinish mu =>
    simp only [callStep, Caller.current, Option.map_some, osMutexLockFinish] at h
    split at h
    case isTrue hw =>
      cases h
      have hslot : (osMutexAbandon port m t mu).slot t = { m.slot t with waitQ := none } := by
        rw [osMutexAbandon, slot_updatePiChain]
        simp [osMutexUnlink, Mem.slot]
      exact hslot ▸ .abandoned hw
    case isFalse hw =>
      cases h
      have hslot : (m.setThread t { m.thread t with state := .ready, waitingMutex := none }).slot
          t = m.slot t := slot_setThread rfl
      exact hslot ▸ .again (not_not.mp hw)
  | blockLock q =>
    cases h
    have hslot : (osWaitqBlockEnqueue m t q).slot t =
        ⟨some (.plain q), none, m.notification t⟩ := by
      simp [osWaitqBlockEnqueue, osWaitqInsertPriorityLocked, Mem.slot, Mem.forget]
    exact hslot ▸ .blocked
  | blockNotifyWait =>
    simp only [callStep, Caller.current, Option.map_some] at h
    split at h
    case h_1 value hn => cases h; exact htake ▸ .blockTaken hn (.inl rfl)
    case h_2 hn => cases h; exact .blockParked hn
  | blockWaiting =>
    obtain ⟨value, hn, h⟩ := Option.map_eq_some_iff.mp h
    cases h
    exact htake ▸ .blockTaken hn (.inr ⟨_, rfl⟩)
  | blockFinish q timeout began notified notify =>
    simp only [callStep, Caller.current, Option.map_some, osWaitqBlockFinish] at h
    split at h
    case isTrue hw =>
      cases h
      have hslot : (osWaitqBlockUnlink m t).slot t = { m.slot t with waitQ := none } := by
        simp [osWaitqBlockUnlink, Mem.slot]
      exact hslot ▸ .unblocked hw
    case isFalse hw =>
      cases h
      have hslot : (m.setThread t { m.thread t with waitResult := notify, state := .ready }).slot
          t = m.slot t := slot_setThread rfl
      exact hslot ▸ .returned (not_not.mp hw)
  | _ => cases hp

end

/-! ## Steps of the system -/

omit [DecidableEq T] [DecidableEq M] [DecidableEq Q] in
theorem SlotChange.eq_of_none {c : Caller T N} {m : Mem T M Q} {p : Pc T M Q} {u : T} {v : Slot M Q}
    (h : SlotChange c m p u v) (hw : (m.thread u).waitQ = none) : v = m.slot u := by
  cases h with
  | same => rfl
  | unlock hw' | wake hw' => rw [hw] at hw'; cases hw'
  | abort hw' => exact absurd hw hw'

/-- A call comes to wait only by a step that belongs to a wait. -/
theorem Effect.waitsOn_none {port : Port} {c : Caller T N} {m m' : Mem T M Q} {p p' : Pc T M Q}
    (he : Effect port c m p m' p') (hp : p.parks = false) : p'.waitsOn = none := by
  have hw := Pc.waitsOn_of_not_parks hp
  cases he with
  | same hs => exact hs.waitsOn.elim (fun h => h.trans hw) And.left
  | delete _ hp' | abortWaiting _ _ hp' => exact hp'
  | enqueue | block => cases hp
  | _ => rfl

/-- What a step of the system does to the wait of a thread and to its call. -/
inductive SlotStep (port : Port) (s : State T M Q N) (a : Act T M Q N) (u : T) :
    Slot M Q → Pc T M Q → Prop
  /-- A step of another context, or of the clock. -/
  | other (hv : v = s.mem.slot u ∨ ∃ c, a = .step c ∧ SlotChange c s.mem (s.call c) u v) :
    SlotStep port s a u v (s.call (.thread u))
  /-- A step of the thread outside its waits. -/
  | outside (hp : (s.call (.thread u)).parks = false) (hp' : p'.waitsOn = none) :
    SlotStep port s a u (s.mem.slot u) p'
  | own (ha : a = .step (.thread u))
    (h : OwnStep port s.mem u (s.call (.thread u)) v p') : SlotStep port s a u v p'
  /-- Its native wait times out. -/
  | expire (ha : a = .expire (.thread u))
    (h : callExpire (.thread u : Caller T N) s.mem (s.call (.thread u)) = some p') :
    SlotStep port s a u (s.mem.slot u) p'

variable [DecidableEq N]

/-- **The steps that a thread's wait goes through.** -/
theorem step_slot {port : Port} {s s' : State T M Q N} {a : Act T M Q N} (hi : SyncInv s)
    (hs : step port s a = some s') (u : T) :
    SlotStep port s a u (s'.mem.slot u) (s'.call (.thread u)) := by
  cases step_cases hs with
  | @call c op ha hf =>
    rw [State.setCall_call]
    split
    case isTrue hc =>
      subst hc
      have hnone : op.entry.waitsOn = none := op.entry_pc.1
      refine .outside ?_ hnone
      generalize s.call (.thread u) = p at hf
      cases p <;> first | rfl | cases hf
    case isFalse => exact .other (.inl rfl)
  | @step c m' p' ha hstep =>
    have he := callStep_effect hstep
    rw [State.setCall_call]
    split
    case isTrue hc =>
      subst hc
      by_cases hp : (s.call (.thread u)).parks = true
      · exact .own rfl (callStep_ownStep hstep hp)
      · have hp := Bool.eq_false_iff.mpr hp
        have hcall := Pc.waitsOn_of_not_parks hp
        have hnone : (s.mem.thread u).waitQ = none := by
          rw [Option.eq_none_iff_forall_ne_some]
          intro q hq
          rw [hi.calls u q hq] at hcall
          cases hcall
        have hslot : m'.slot u = s.mem.slot u :=
          (he.slotChange hi.queues hi.handle fun _ => hp).eq_of_none hnone
        rw [State.setCall_mem, hslot]
        exact .outside hp (he.waitsOn_none hp)
    case isFalse hc =>
      refine .other (.inr ⟨c, rfl, he.slotChange hi.queues hi.handle fun he => ?_⟩)
      exact absurd he.symm hc
  | @expire c p' ha hexpire =>
    rw [State.setCall_call]
    split
    case isTrue hc => subst hc; exact .expire rfl hexpire
    case isFalse => exact .other (.inl rfl)
  | tick => exact .other (.inl rfl)

/-- A step of a thread that belongs to its waits. -/
theorem step_own {port : Port} {s s' : State T M Q N} {t : T}
    (hp : (s.call (.thread t)).parks = true) (hs : step port s (.step (.thread t)) = some s') :
    OwnStep port s.mem t (s.call (.thread t)) (s'.mem.slot t) (s'.call (.thread t)) := by
  cases step_cases hs with
  | step _ hstep =>
    rw [State.setCall_call, if_pos rfl]
    exact callStep_ownStep hstep hp

/-! ## The wait of a thread in reachable states -/

/-- The removal is one that takes threads off `q`. -/
def Removal.takesFrom (q : WaitQ M Q) : Removal M Q → Prop
  | .unlock mu => q = .mutex mu
  | .wake q' _ => q = .plain q'
  | .abort => True

/-- The wait of a thread agrees with its call. -/
structure WaitOk (v : Slot M Q) (p : Pc T M Q) : Prop where
  calls : ∀ q, v.waitQ = some q → p.waitsOn = some q
  queued : v.waitQ ≠ none → v.removed = none
  left : ∀ q, p.waitsOn = some q → v.waitQ = none → ∃ r, v.removed = some r ∧ r.takesFrom q
  unlocked : ∀ mu, v.removed = some (.unlock mu) →
    p.waitsOn = some (.mutex mu) ∨ ∃ timeout start, p = .lockTry mu timeout start

section
variable {port : Port} {prio : T → Int} {s s' : State T M Q N} {a : Act T M Q N} {u : T}
  {v : Slot M Q} {p p' : Pc T M Q}

section
omit [DecidableEq T] [DecidableEq M] [DecidableEq Q]

/-- A thread off the wait queues, that no unlock has removed, at a point outside the waits. -/
theorem WaitOk.off (hw : v.waitQ = none) (hr : ∀ mu, v.removed ≠ some (.unlock mu))
    (hp : p.waitsOn = none) : WaitOk v p where
  calls q h := by rw [hw] at h; cases h
  queued h := absurd hw h
  left q h := by rw [hp] at h; cases h
  unlocked mu h := absurd h (hr mu)

/-- A thread joins a wait queue. -/
theorem WaitOk.join {q : WaitQ M Q} (hw : v.waitQ = some q) (hr : v.removed = none)
    (hp : p.waitsOn = some q) : WaitOk v p where
  calls q' h := by rw [hp, ← hw, h]
  queued _ := hr
  left q' _ h := by rw [hw] at h; cases h
  unlocked mu h := by rw [hr] at h; cases h

/-- A call goes on waiting on the same wait queue. -/
theorem WaitOk.stay {v' : Slot M Q} (h : WaitOk v p) (hw : v'.waitQ = v.waitQ)
    (hr : v'.removed = v.removed) (hp : p'.waitsOn = p.waitsOn) (hne : p.waitsOn ≠ none) :
    WaitOk v' p' where
  calls q hq := by rw [hp]; exact h.calls q (hw ▸ hq)
  queued hq := by rw [hr]; exact h.queued (hw ▸ hq)
  left q hq hn := by rw [hr]; exact h.left q (hp ▸ hq) (hw ▸ hn)
  unlocked mu hmu := by
    rcases h.unlocked mu (hr ▸ hmu) with hq | ⟨timeout, start, he⟩
    · exact .inl (hp.trans hq)
    · rw [he] at hne
      exact absurd rfl hne

theorem WaitOk.removed {q : WaitQ M Q} {r : Removal M Q} {n : Option UInt32} (h : WaitOk v p)
    (hw : v.waitQ = some q) (hr : r.takesFrom q) : WaitOk ⟨none, some r, n⟩ p where
  calls q hq := by cases hq
  queued hq := absurd rfl hq
  left q' hq _ := by
    cases (h.calls q hw).symm.trans hq
    exact ⟨r, rfl, hr⟩
  unlocked mu hmu := by
    cases hmu
    exact .inl (hr ▸ h.calls q hw)

/-- A step of a thread that belongs to its waits. -/
theorem OwnStep.waitOk {m : Mem T M Q} (h : OwnStep port m u p v p') (hok : WaitOk (m.slot u) p) :
    WaitOk v p' := by
  have hoff (hp : p.waitsOn = none) : (m.slot u).waitQ = none := by
    rw [Option.eq_none_iff_forall_ne_some]
    intro q hq
    rw [hok.calls q hq] at hp
    cases hp
  cases h with
  | tried => exact .off (hoff rfl) (fun mu h => by cases h) rfl
  | enqueued => exact .join rfl rfl rfl
  | lockTaken hn hp =>
    rcases hp with ⟨_, rfl⟩ | ⟨_, rfl⟩
    all_goals exact hok.stay rfl rfl rfl (Option.some_ne_none _)
  | lockParked | blockParked => exact hok.stay rfl rfl rfl (Option.some_ne_none _)
  | abandoned hw | unblocked hw =>
    refine .off rfl (fun mu hmu => ?_) rfl
    rw [hok.queued hw] at hmu
    cases hmu
  | again hw =>
    refine ⟨fun q hq => ?_, fun hq => absurd hw hq, fun q hq => ?_, fun mu hmu => .inr ?_⟩
    · rw [show (m.slot u).waitQ = none from hw] at hq; cases hq
    · cases hq
    · obtain ⟨r, hr, hfrom⟩ := hok.left _ rfl hw
      cases hr.symm.trans hmu
      cases hfrom
      exact ⟨_, _, rfl⟩
  | blocked => exact .join rfl rfl rfl
  | blockTaken hn hp =>
    rcases hp with rfl | ⟨_, rfl⟩
    all_goals exact hok.stay rfl rfl rfl (Option.some_ne_none _)
  | returned hw =>
    refine .off hw (fun mu hmu => ?_) rfl
    rcases hok.unlocked mu hmu with hq | ⟨_, _, he⟩
    · cases hq
    · cases he

/-- A thread's own steps remove it from no wait queue. -/
theorem OwnStep.removed_cases {m : Mem T M Q} (h : OwnStep port m u p v p') :
    v.removed = none ∨ v.removed = m.hist.removed u := by
  cases h with
  | tried | enqueued | blocked => exact .inl rfl
  | _ => exact .inr rfl

/-- While a thread waits, its own steps keep what has removed it. -/
theorem OwnStep.removed {m : Mem T M Q} (h : OwnStep port m u p v p') (hw : p.waitsOn ≠ none) :
    v.removed = m.hist.removed u := by
  cases h with
  | tried | enqueued | blocked => exact absurd rfl hw
  | _ => rfl

omit [DecidableEq N] in
theorem SlotStep.waitOk (h : SlotStep port s a u v p')
    (hok : WaitOk (s.mem.slot u) (s.call (.thread u))) : WaitOk v p' := by
  cases h with
  | other hv =>
    rcases hv with rfl | ⟨c, -, hv⟩
    · exact hok
    · cases hv with
      | same => exact hok
      | unlock hw | wake hw => exact hok.removed hw rfl
      | abort hw =>
        obtain ⟨q, hq⟩ := Option.ne_none_iff_exists'.mp hw
        exact hok.removed hq trivial
  | outside hp hp' =>
    have hw := Pc.waitsOn_of_not_parks hp
    refine .off (Option.eq_none_iff_forall_ne_some.mpr fun q hq => ?_) (fun mu hmu => ?_) hp'
    · rw [hok.calls q hq] at hw; cases hw
    · rcases hok.unlocked mu hmu with hq | ⟨timeout, start, he⟩
      · rw [hq] at hw; cases hw
      · rw [he] at hp; cases hp
  | own _ h => exact h.waitOk hok
  | expire _ h =>
    obtain ⟨hw, -⟩ := callExpire_pc h
    refine hok.stay rfl rfl hw ?_
    obtain ⟨_, _, -, -, -, ⟨_, _, _, hp, -⟩ | ⟨_, _, _, hp, -⟩⟩ := callExpire_cases h
    all_goals rw [hp]; exact Option.some_ne_none _

end

/-- **The waits of the threads agree with their calls in every reachable state.** -/
theorem waitOk_of_reachable {ok : State T M Q N → Act T M Q N → Prop}
    (hok : ∀ s a, ok s a → SafeDeinit s a)
    (h : ReachableVia (system port prio : System (State T M Q N) _) ok s) (t : T) :
    WaitOk (s.mem.slot t) (s.call (.thread t)) := by
  refine h.induction (I := fun s => WaitOk (s.mem.slot t) (s.call (.thread t)))
    (fun s (h : Init port prio s) => ?_) fun s a s' hr hw ha hs =>
      (step_slot (syncInv_of_reachable hok hr) hs t).waitOk hw
  have hwait : (s.mem.thread t).waitQ = none := by rw [h.thread]; rfl
  have hremoved : s.mem.hist.removed t = none := by rw [h.hist]; rfl
  refine .off hwait (fun mu hmu => ?_) (by rw [h.call]; rfl)
  rw [show s.mem.hist.removed t = _ from hmu] at hremoved
  cases hremoved

end

end HazelOsal.FreeRtos
