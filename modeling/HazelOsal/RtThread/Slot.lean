import HazelOsal.Library.Located
import HazelOsal.RtThread.WaitQueue

/-! # The wait of one thread

`Slot` is what a wait of a thread depends on. A step of another context changes it only by removing
the thread from its wait queue (`SlotChange`), and the steps of the thread's own call are listed in
`OwnStep`. The wait queues and the calls agree in every reachable state (`WaitInv`). -/

namespace HazelOsal.RtThread

open TransitionSystem

variable {T Q N : Type} [DecidableEq T] [DecidableEq Q] [DecidableEq N]

/-! ## The wait queues -/

/-- The wait queues and the threads agree. -/
def QueueInv (m : Mem T Q) : Prop := Located m.queue fun t => (m.thread t).waitQ

section
variable {port : Port} {m m' : Mem T Q} {t u : T} {q : Q} {reason : UInt32} {v : OsThread Q}

omit [DecidableEq Q] in
theorem waitQ_setThread (m : Mem T Q) (t : T) (v : OsThread Q) :
    (fun u => ((m.setThread t v).thread u).waitQ) =
      Function.update (fun u => (m.thread u).waitQ) t v.waitQ := by
  funext u
  rw [Mem.setThread_thread, Function.update_apply, Function.update_apply]
  split <;> rfl

omit [DecidableEq Q] in
theorem QueueInv.setThread (h : QueueInv m) (hw : v.waitQ = (m.thread t).waitQ) :
    QueueInv (m.setThread t v) := by
  rw [QueueInv, waitQ_setThread, hw, Function.update_eq_self]
  exact h

theorem QueueInv.insert (h : QueueInv m) (ht : (m.thread t).waitQ = none)
    (hv : v.waitQ = some q) : QueueInv (osRtWaitqInsertLocked port (m.setThread t v) q t) := by
  show Located _ (fun u => ((m.setThread t v).thread u).waitQ)
  rw [waitQ_setThread, hv]
  exact Located.insert h ht (List.perm_orderedInsert _ _ _)

theorem QueueInv.enqueue (h : QueueInv m) (ht : (m.thread t).waitQ = none) :
    QueueInv (osWaitqBlockEnqueue port m t q) :=
  QueueInv.insert (m := m.record t none) h ht rfl

omit [DecidableEq Q] in
theorem QueueInv.unlink (h : QueueInv m) (hw : v.waitQ = none) :
    QueueInv ((m.unlinkWait t).setThread t v) := by
  rw [QueueInv, waitQ_setThread, hw]
  exact Located.erase h t

omit [DecidableEq Q] in
theorem QueueInv.blockFinish {result : Int} (h : QueueInv m) :
    QueueInv (osWaitqBlockFinish m t result).1 := by
  rw [osWaitqBlockFinish]
  split
  · exact h.unlink rfl
  · exact h.setThread rfl

theorem QueueInv.waitqWakeHead (h : QueueInv m) : QueueInv (osWaitqWakeHead m q reason) := by
  rw [osWaitqWakeHead]
  split
  case h_1 => exact h
  case h_2 t rest hl =>
    show Located _ (fun u => (((m.setQueue q rest).setThread t _).thread u).waitQ)
    rw [waitQ_setThread]
    exact Located.pop h hl

/-- What `osWaitqWakeHead` keeps, the loop of `os_waitq_wake_all` does. -/
theorem wakeAll_induction {P : Mem T Q → Prop} (h : P m)
    (hhead : ∀ m, P m → P (osWaitqWakeHead m q reason)) : P (osWaitqWakeAll m q reason) := by
  rw [osWaitqWakeAll]
  generalize (m.queue q).length = n
  induction n generalizing m with
  | zero => exact h
  | succ n ih => exact ih (hhead m h)

theorem QueueInv.requeue (h : QueueInv m) : QueueInv (osThreadSetPriorityRequeue port m t) := by
  rw [osThreadSetPriorityRequeue]
  split
  case h_1 q hq =>
    exact Located.perm h (Located.replace h ((h.mem t q).mpr hq) (List.perm_orderedInsert _ _ _))
  case h_2 => exact h

omit [DecidableEq Q] in
theorem QueueInv.abortDequeue (h : QueueInv m) : QueueInv (osThreadAbortDequeue m t) := by
  rw [osThreadAbortDequeue]
  split
  · exact h.unlink (v := { m.thread t with waitQ := none }) rfl
  · exact h

end

/-! ## The steps of a wait -/

/-- The wait queue a call is on between its two critical sections, if nobody has removed it. -/
def Pc.waitsOn : Pc T Q → Option Q
  | .blockTake q .. | .blockWaiting q .. | .blockFinish q .. => some q
  | _ => none

/-- The points at which a step of a call belongs to the wait of its thread. -/
def Pc.parks : Pc T Q → Bool
  | .blockLock .. | .blockTake .. | .blockWaiting .. | .blockFinish .. => true
  | _ => false

/-- What a wait of a thread depends on. -/
structure Slot (Q : Type) where
  waitQ : Option Q
  removed : Option (Removal Q)
  waitStorage : Counting 1

def Mem.slot (m : Mem T Q) (t : T) : Slot Q := ⟨(m.thread t).waitQ, m.removed t, m.waitStorage t⟩

/-- What a step of a context at `p` does to the wait of a thread whose own wait it does not belong
to. -/
inductive SlotChange (m : Mem T Q) (p : Pc T Q) (u : T) : Slot Q → Prop
  | same : SlotChange m p u (m.slot u)
  | wake (hw : (m.thread u).waitQ = some q)
    (hp : p = .wakeOneLock q reason ∧ (m.queue q).head? = some u ∨ p = .wakeAllLock q reason) :
    SlotChange m p u ⟨none, some (.wake q reason), (m.waitStorage u).give⟩
  | abort (hw : (m.thread u).waitQ ≠ none) (hp : p = .abortLock u) :
    SlotChange m p u ⟨none, some .abort, m.waitStorage u⟩

/-- The steps of a thread that belong to its waits, with what they do to its wait. -/
inductive OwnStep (m : Mem T Q) (t : T) : Pc T Q → Slot Q → Pc T Q → Prop
  | blocked : OwnStep m t (.blockLock q timeout) ⟨some q, none, m.waitStorage t⟩
    (.blockTake q timeout m.tick)
  | taken (hn : (m.waitStorage t).take? = some sem)
    (hp : p = .blockTake q timeout began ∨ ∃ expiry, p = .blockWaiting q timeout began expiry) :
    OwnStep m t p { m.slot t with waitStorage := sem } (.blockFinish q timeout began RT_EOK)
  | refused (hn : (m.waitStorage t).take? = none) (ht : osToRtTimeout timeout = 0) :
    OwnStep m t (.blockTake q timeout began) (m.slot t)
      (.blockFinish q timeout began (-RT_ETIMEOUT))
  | parked (hn : (m.waitStorage t).take? = none) :
    OwnStep m t (.blockTake q timeout began) (m.slot t)
      (.blockWaiting q timeout began (expiry m.tick (osToRtTimeout timeout)))
  | unblocked (hw : (m.thread t).waitQ ≠ none) :
    OwnStep m t (.blockFinish q timeout began result) { m.slot t with waitQ := none }
      (.done (if result = -RT_ETIMEOUT then -ETIMEDOUT else -EAGAIN))
  | returned (hw : (m.thread t).waitQ = none) :
    OwnStep m t (.blockFinish q timeout began result) (m.slot t)
      (.done (m.thread t).waitResult.toInt32.toInt)

section
variable {port : Port} {c : Caller T N} {m m' : Mem T Q} {t u : T} {p p' : Pc T Q} {q : Q}
  {reason : UInt32}
omit [DecidableEq N]

omit [DecidableEq Q] in
theorem slot_setThread_ne {v : OsThread Q} (h : u ≠ t) : (m.setThread t v).slot u = m.slot u := by
  simp [Mem.slot, h]

omit [DecidableEq Q] in
theorem slot_setThread {v : OsThread Q} (h : v.waitQ = (m.thread t).waitQ) :
    (m.setThread t v).slot u = m.slot u := by
  by_cases hu : u = t
  · simp [Mem.slot, hu, h]
  · exact slot_setThread_ne hu

theorem waitqWakeHead_slot (u : T) : (osWaitqWakeHead m q reason).slot u =
    if (m.queue q).head? = some u then
      ⟨none, some (.wake q reason), (m.waitStorage u).give⟩ else m.slot u := by
  rw [osWaitqWakeHead]
  split
  case h_1 hl => simp [hl]
  case h_2 t rest hl =>
    rw [hl, List.head?_cons]
    split
    case isTrue he => cases he; simp [Mem.slot]
    case isFalse hne =>
      have hne : u ≠ t := fun he => hne (congrArg some he.symm)
      simp [Mem.slot, hne]

theorem waitqWakeAll_slot (hq : QueueInv m) (q : Q) (reason : UInt32) (u : T) :
    (osWaitqWakeAll m q reason).slot u = m.slot u ∨ (m.thread u).waitQ = some q ∧
      (osWaitqWakeAll m q reason).slot u =
        ⟨none, some (.wake q reason), (m.waitStorage u).give⟩ := by
  refine (wakeAll_induction (P := fun m' => QueueInv m' ∧ (m'.slot u = m.slot u ∨
    (m.thread u).waitQ = some q ∧
      m'.slot u = ⟨none, some (.wake q reason), (m.waitStorage u).give⟩)) ⟨hq, .inl rfl⟩ ?_).2
  intro m' ⟨hq', hs⟩
  refine ⟨hq'.waitqWakeHead, ?_⟩
  rw [waitqWakeHead_slot]
  split
  case isTrue hhead =>
    have hw := (hq'.mem u q).mp (List.mem_of_head? hhead)
    rcases hs with hs | ⟨-, hs⟩
    · refine .inr ⟨(congrArg Slot.waitQ hs).symm.trans hw, ?_⟩
      rw [show m'.waitStorage u = m.waitStorage u from congrArg Slot.waitStorage hs]
    · rw [show (m'.thread u).waitQ = none from congrArg Slot.waitQ hs] at hw
      cases hw
  case isFalse => exact hs

omit [DecidableEq Q] in
theorem osWaitqBlockFinish_slot {result : Int} (h : u ≠ t) :
    (osWaitqBlockFinish m t result).1.slot u = m.slot u := by
  rw [osWaitqBlockFinish]
  split
  all_goals exact slot_setThread_ne h

theorem setPriorityRequeue_slot : (osThreadSetPriorityRequeue port m t).slot u = m.slot u := by
  rw [osThreadSetPriorityRequeue]
  split <;> rfl

omit [DecidableEq Q] in
theorem abortDequeue_slot : (osThreadAbortDequeue m t).slot u =
    if u = t ∧ (m.thread t).waitQ ≠ none then ⟨none, some .abort, m.waitStorage u⟩
    else m.slot u := by
  rw [osThreadAbortDequeue]
  split
  case isTrue hw =>
    by_cases hu : u = t
    · simp [Mem.slot, hu, hw]
    · simp [Mem.slot, hu]
  case isFalse hw => rw [if_neg fun h => hw h.2]

/-- **A step changes the wait of a thread, its own steps apart, only by removing it.** -/
theorem callStep_slotChange (h : callStep port c m p = some (m', p')) (hq : QueueInv m)
    (hown : c = .thread u → p.parks = false) : SlotChange m p u (m'.slot u) := by
  have hsame (h : m'.slot u = m.slot u) : SlotChange m p u (m'.slot u) := h ▸ .same
  have hne {t} (hc : c.current = some t) (hp : p.parks = true) : u ≠ t := by
    rintro rfl
    rw [hown (Caller.current_eq_some hc)] at hp
    cases hp
  cases p with
  | idle | done => cases h
  | blockEnter | abortEnter =>
    simp only [callStep] at h
    repeat' split at h
    all_goals cases h; exact .same
  | setPriorityEnter =>
    simp only [callStep] at h
    split at h
    all_goals cases h; exact .same
  | blockLock =>
    obtain ⟨t, hc, h⟩ := Option.map_eq_some_iff.mp h
    cases h
    refine hsame ?_
    have hne := hne hc rfl
    simp [osWaitqBlockEnqueue, osRtWaitqInsertLocked, Mem.slot, hne]
  | blockTake =>
    obtain ⟨t, hc, h⟩ := Option.map_eq_some_iff.mp h
    have hne := hne hc rfl
    split at h
    case h_1 => cases h; exact hsame (by simp [Mem.slot, hne])
    case h_2 => split at h <;> cases h <;> exact .same
  | blockWaiting =>
    obtain ⟨t, hc, h⟩ := Option.bind_eq_some_iff.mp h
    obtain ⟨sem, -, h⟩ := Option.map_eq_some_iff.mp h
    have hne := hne hc rfl
    cases h
    exact hsame (by simp [Mem.slot, hne])
  | blockFinish =>
    obtain ⟨t, hc, h⟩ := Option.map_eq_some_iff.mp h
    cases h
    exact hsame (osWaitqBlockFinish_slot (hne hc rfl))
  | wakeOneLock q reason =>
    cases h
    rw [waitqWakeHead_slot]
    split
    case isTrue hhead =>
      exact .wake ((hq.mem u _).mp (List.mem_of_head? hhead)) (.inl ⟨rfl, hhead⟩)
    case isFalse => exact .same
  | wakeAllLock q reason =>
    cases h
    rcases waitqWakeAll_slot hq q reason u with hs | ⟨hw, hs⟩
    · exact hsame hs
    · exact hs ▸ .wake hw (.inr rfl)
  | setPriorityBase => cases h; exact hsame (slot_setThread rfl)
  | setPriorityControl => cases h; exact .same
  | setPriorityLock => cases h; exact hsame setPriorityRequeue_slot
  | abortLock t =>
    simp only [callStep, osThreadAbortCritical] at h
    split at h
    case isTrue => cases h; exact .same
    case isFalse =>
      cases h
      rw [slot_setThread (by rfl), abortDequeue_slot]
      split
      case isTrue ht => obtain ⟨rfl, hw⟩ := ht; exact .abort hw rfl
      case isFalse => exact .same
  | abortDetach => cases h; exact .same
  | abortRestore | abortGive | abortSignal => cases h; exact hsame (slot_setThread rfl)
  | exitComplete | exitGive | exitSignal =>
    obtain ⟨t, -, h⟩ := Option.map_eq_some_iff.mp h
    cases h
    exact hsame (slot_setThread rfl)
  | exitNative =>
    obtain ⟨t, -, h⟩ := Option.map_eq_some_iff.mp h
    cases h
    exact .same

/-- **The steps of a thread that belong to its waits.** -/
theorem callStep_ownStep (h : callStep port (.thread t : Caller T N) m p = some (m', p'))
    (hp : p.parks = true) : OwnStep m t p (m'.slot t) p' := by
  have htake (sem : Counting 1) : (m.setWaitStorage t sem).slot t =
      { m.slot t with waitStorage := sem } := by
    simp [Mem.slot]
  cases p with
  | blockLock q =>
    cases h
    have hslot : (osWaitqBlockEnqueue port m t q).slot t = ⟨some q, none, m.waitStorage t⟩ := by
      simp [osWaitqBlockEnqueue, osRtWaitqInsertLocked, Mem.slot]
    exact hslot ▸ .blocked
  | blockTake =>
    simp only [callStep, Caller.current, Option.map_some] at h
    split at h
    case h_1 sem hn => cases h; exact htake sem ▸ .taken hn (.inl rfl)
    case h_2 hn =>
      split at h
      case isTrue ht => cases h; exact .refused hn ht
      case isFalse => cases h; exact .parked hn
  | blockWaiting =>
    obtain ⟨sem, hn, h⟩ := Option.map_eq_some_iff.mp h
    cases h
    exact htake sem ▸ .taken hn (.inr ⟨_, rfl⟩)
  | blockFinish q timeout began result =>
    simp only [callStep, Caller.current, Option.map_some, osWaitqBlockFinish] at h
    split at h
    case isTrue hw =>
      cases h
      have hslot : ((m.unlinkWait t).setThread t
          { m.thread t with waitQ := none, state := .ready }).slot t =
          { m.slot t with waitQ := none } := by
        simp [Mem.slot]
      exact hslot ▸ .unblocked hw
    case isFalse hw =>
      cases h
      have hslot : (m.setThread t { m.thread t with state := .ready }).slot t = m.slot t :=
        slot_setThread rfl
      exact hslot ▸ .returned (not_not.mp hw)
  | _ => cases hp

end

/-! ## The wait queues and the calls agree -/

/-- The removal is one that takes threads off `q`. -/
def Removal.takesFrom (q : Q) : Removal Q → Prop
  | .wake q' _ => q = q'
  | .abort => True

/-- The wait of a thread agrees with its call. -/
structure WaitOk (v : Slot Q) (p : Pc T Q) : Prop where
  calls : ∀ q, v.waitQ = some q → p.waitsOn = some q
  queued : v.waitQ ≠ none → v.removed = none
  left : ∀ q, p.waitsOn = some q → v.waitQ = none → ∃ r, v.removed = some r ∧ r.takesFrom q

structure WaitInv (s : State T Q N) : Prop where
  queues : QueueInv s.mem
  waits : ∀ t, WaitOk (s.mem.slot t) (s.call (.thread t))

/-- What a step of the system does to the wait of a thread and to its call. -/
inductive SlotStep (s : State T Q N) (a : Act T Q N) (u : T) : Slot Q → Pc T Q → Prop
  /-- A step of another context, or of none. -/
  | other (hv : v = s.mem.slot u ∨ ∃ c, a = .step c ∧ SlotChange s.mem (s.call c) u v) :
    SlotStep s a u v (s.call (.thread u))
  /-- A step of the thread outside its waits. -/
  | outside (hp : (s.call (.thread u)).parks = false) (hp' : p'.waitsOn = none) :
    SlotStep s a u (s.mem.slot u) p'
  | own (h : OwnStep s.mem u (s.call (.thread u)) v p') : SlotStep s a u v p'
  /-- Its native wait times out. -/
  | expire (h : callExpire (.thread u : Caller T N) s.mem (s.call (.thread u)) = some p') :
    SlotStep s a u (s.mem.slot u) p'

section
variable {port : Port} {prio : T → Int} {s s' : State T Q N} {a : Act T Q N} {c : Caller T N}
  {m m' : Mem T Q} {p p' : Pc T Q} {t u : T} {v : Slot Q}

omit [DecidableEq T] [DecidableEq Q] in
theorem Pc.waitsOn_of_not_parks (h : p.parks = false) : p.waitsOn = none := by
  cases p <;> first | rfl | cases h

omit [DecidableEq T] [DecidableEq Q] in
theorem SlotChange.eq_of_none (h : SlotChange m p u v) (hw : (m.thread u).waitQ = none) :
    v = m.slot u := by
  cases h with
  | same => rfl
  | wake hw' => rw [hw] at hw'; cases hw'
  | abort hw' => exact absurd hw hw'

omit [DecidableEq N] in
/-- A call comes to wait only by a step that belongs to a wait. -/
theorem callStep_waitsOn (h : callStep port c m p = some (m', p')) (hp : p.parks = false) :
    p'.waitsOn = none := by
  cases p with
  | idle | done => cases h
  | blockEnter | abortEnter | setPriorityEnter =>
    simp only [callStep] at h
    repeat' split at h
    all_goals cases h; rfl
  | abortLock =>
    cases h
    split <;> rfl
  | exitComplete | exitGive | exitSignal | exitNative =>
    obtain ⟨_, -, h⟩ := Option.map_eq_some_iff.mp h
    cases h
    rfl
  | wakeOneLock | wakeAllLock | setPriorityBase | setPriorityControl | setPriorityLock
  | abortDetach | abortRestore | abortGive | abortSignal => cases h; rfl
  | blockLock | blockTake | blockWaiting | blockFinish => cases hp

omit [DecidableEq N] in
theorem callStep_queues (h : callStep port c m p = some (m', p')) (hq : QueueInv m)
    (hc : ∀ t q, c = .thread t → (m.thread t).waitQ = some q → p.waitsOn = some q) :
    QueueInv m' := by
  cases p with
  | idle | done => cases h
  | blockEnter | abortEnter | setPriorityEnter =>
    simp only [callStep] at h
    repeat' split at h
    all_goals cases h; exact hq
  | blockLock =>
    obtain ⟨t, ht, h⟩ := Option.map_eq_some_iff.mp h
    cases h
    refine hq.enqueue (Option.eq_none_iff_forall_ne_some.mpr fun q hw => ?_)
    cases hc t q (Caller.current_eq_some ht) hw
  | blockTake =>
    obtain ⟨t, -, h⟩ := Option.map_eq_some_iff.mp h
    split at h
    case h_1 => cases h; exact hq
    case h_2 => split at h <;> cases h <;> exact hq
  | blockWaiting =>
    obtain ⟨t, -, h⟩ := Option.bind_eq_some_iff.mp h
    obtain ⟨sem, -, h⟩ := Option.map_eq_some_iff.mp h
    cases h
    exact hq
  | blockFinish =>
    obtain ⟨t, -, h⟩ := Option.map_eq_some_iff.mp h
    cases h
    exact hq.blockFinish
  | wakeOneLock => cases h; exact hq.waitqWakeHead
  | wakeAllLock => cases h; exact wakeAll_induction hq fun _ h => h.waitqWakeHead
  | setPriorityBase | abortRestore | abortGive | abortSignal => cases h; exact hq.setThread rfl
  | setPriorityControl | abortDetach => cases h; exact hq
  | setPriorityLock => cases h; exact hq.requeue
  | abortLock =>
    simp only [callStep, osThreadAbortCritical] at h
    split at h
    case isTrue => cases h; exact hq
    case isFalse => cases h; exact hq.abortDequeue.setThread rfl
  | exitComplete | exitGive | exitSignal =>
    obtain ⟨t, -, h⟩ := Option.map_eq_some_iff.mp h
    cases h
    exact hq.setThread rfl
  | exitNative =>
    obtain ⟨t, -, h⟩ := Option.map_eq_some_iff.mp h
    cases h
    exact hq

omit [DecidableEq T] [DecidableEq Q] [DecidableEq N] in
/-- A native wait that times out goes on to the second critical section. -/
theorem callExpire_cases (h : callExpire c m p = some p') :
    ∃ t q timeout began expiry, c = .thread t ∧ (m.waitStorage t).count = 0 ∧ expiry ≤ m.tick ∧
      p = .blockWaiting q timeout began (some expiry) ∧
      p' = .blockFinish q timeout began (-RT_ETIMEOUT) := by
  cases p with
  | blockWaiting q timeout began expiry =>
    cases expiry with
    | none => cases h
    | some expiry =>
      obtain ⟨t, hc, h⟩ := Option.bind_eq_some_iff.mp h
      split at h
      case isTrue hn =>
        cases h
        exact ⟨t, q, timeout, began, expiry, Caller.current_eq_some hc, hn.1, hn.2, rfl, rfl⟩
      case isFalse => cases h
  | _ => cases h

/-- **The steps that a thread's wait goes through.** -/
theorem step_slot (hi : WaitInv s) (hs : step port s a = some s') (u : T) :
    SlotStep s a u (s'.mem.slot u) (s'.call (.thread u)) := by
  have hoff {c : Caller T N} {p' : Pc T Q} (hp : (s.call c).parks = false)
      (hp' : p'.waitsOn = none) :
      SlotStep s a u (s.mem.slot u) ((s.setCall c s.mem p').call (.thread u)) := by
    rw [State.setCall_call]
    split
    case isTrue hc => subst hc; exact .outside hp hp'
    case isFalse => exact .other (.inl rfl)
  cases step_cases hs with
  | @call c op hf =>
    refine hoff ?_ (by cases op <;> rfl)
    generalize s.call c = p at hf
    cases p <;> first | rfl | cases hf
  | @step c m' p' hstep =>
    rw [State.setCall_call]
    split
    case isTrue hc =>
      subst hc
      by_cases hp : (s.call (.thread u)).parks = true
      · exact .own (callStep_ownStep hstep hp)
      · have hp := Bool.eq_false_iff.mpr hp
        have hnone : (s.mem.thread u).waitQ = none := by
          rw [Option.eq_none_iff_forall_ne_some]
          intro q hq
          have hw := (hi.waits u).calls q hq
          rw [Pc.waitsOn_of_not_parks hp] at hw
          cases hw
        have hslot : m'.slot u = s.mem.slot u :=
          (callStep_slotChange hstep hi.queues fun _ => hp).eq_of_none hnone
        rw [State.setCall_mem, hslot]
        exact .outside hp (callStep_waitsOn hstep hp)
    case isFalse hc =>
      exact .other (.inr ⟨c, rfl, callStep_slotChange hstep hi.queues fun he => absurd he.symm hc⟩)
  | expire hexpire =>
    rw [State.setCall_call]
    split
    case isTrue hc => subst hc; exact .expire hexpire
    case isFalse => exact .other (.inl rfl)
  | @fail c p' hfail =>
    generalize hc : s.call c = p at hfail
    cases p with
    | abortDetach => cases hfail; exact hoff (by rw [hc]; rfl) rfl
    | _ => cases hfail
  | inherit | tick => exact .other (.inl rfl)

section
omit [DecidableEq T] [DecidableEq Q]

/-- A thread off the wait queues, at a point outside the waits. -/
theorem WaitOk.off (hw : v.waitQ = none) (hp : p.waitsOn = none) : WaitOk v p where
  calls q h := by rw [hw] at h; cases h
  queued h := absurd hw h
  left q h := by rw [hp] at h; cases h

/-- A call goes on waiting on the same wait queue. -/
theorem WaitOk.stay {v' : Slot Q} (h : WaitOk v p) (hw : v'.waitQ = v.waitQ)
    (hr : v'.removed = v.removed) (hp : p'.waitsOn = p.waitsOn) : WaitOk v' p' where
  calls q hq := by rw [hp]; exact h.calls q (hw ▸ hq)
  queued hq := by rw [hr]; exact h.queued (hw ▸ hq)
  left q hq hn := by rw [hr]; exact h.left q (hp ▸ hq) (hw ▸ hn)

theorem WaitOk.removed {q : Q} {r : Removal Q} {n : Counting 1} (h : WaitOk v p)
    (hw : v.waitQ = some q) (hr : r.takesFrom q) : WaitOk ⟨none, some r, n⟩ p where
  calls q hq := by cases hq
  queued hq := absurd rfl hq
  left q' hq _ := by
    cases (h.calls q hw).symm.trans hq
    exact ⟨r, rfl, hr⟩

theorem OwnStep.waitOk (h : OwnStep m u p v p') (hok : WaitOk (m.slot u) p) : WaitOk v p' := by
  cases h with
  | blocked =>
    exact ⟨fun q hq => by cases hq; rfl, fun _ => rfl, fun q _ hn => by cases hn⟩
  | taken _ hp =>
    rcases hp with rfl | ⟨_, rfl⟩
    all_goals exact hok.stay rfl rfl rfl
  | refused | parked => exact hok.stay rfl rfl rfl
  | unblocked => exact .off rfl rfl
  | returned hw => exact .off hw rfl

omit [DecidableEq N] in
theorem SlotStep.waitOk (h : SlotStep s a u v p')
    (hok : WaitOk (s.mem.slot u) (s.call (.thread u))) : WaitOk v p' := by
  cases h with
  | other hv =>
    rcases hv with rfl | ⟨c, -, hv⟩
    · exact hok
    · cases hv with
      | same => exact hok
      | wake hw => exact hok.removed hw rfl
      | abort hw =>
        obtain ⟨q, hq⟩ := Option.ne_none_iff_exists'.mp hw
        exact hok.removed hq trivial
  | outside hp hp' =>
    refine .off (Option.eq_none_iff_forall_ne_some.mpr fun q hq => ?_) hp'
    have hw := hok.calls q hq
    rw [Pc.waitsOn_of_not_parks hp] at hw
    cases hw
  | own h => exact h.waitOk hok
  | expire h =>
    obtain ⟨_, _, _, _, _, -, -, -, hp, rfl⟩ := callExpire_cases h
    exact hok.stay rfl rfl (by rw [hp]; rfl)

end

theorem WaitInv.step (hi : WaitInv s) (hs : step port s a = some s') : WaitInv s' := by
  refine ⟨?_, fun t => (step_slot hi hs t).waitOk (hi.waits t)⟩
  cases step_cases hs with
  | step hstep =>
    exact callStep_queues hstep hi.queues fun t q hc hq => hc ▸ (hi.waits t).calls q hq
  | call | expire | fail | inherit | tick => exact hi.queues

theorem waitInv_of_reachable {ok : State T Q N → Act T Q N → Prop}
    (h : ReachableVia (system port prio : System (State T Q N) _) ok s) : WaitInv s := by
  refine h.invariant (fun s (h : Init port prio s) => ?_) fun _ _ _ _ hi _ hs => hi.step hs
  have hwait (t) : (s.mem.thread t).waitQ = none := by rw [h.thread]; rfl
  refine ⟨⟨fun q => ?_, fun t q => ?_⟩, fun t => .off (hwait t) (by rw [h.call]; rfl)⟩
  · rw [h.queue]; exact .nil
  · simp [h.queue, hwait]

end

end HazelOsal.RtThread
