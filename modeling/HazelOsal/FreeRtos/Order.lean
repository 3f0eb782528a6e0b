import HazelOsal.FreeRtos.Inheritance
import HazelOsal.Library.PriorityOrder

/-! # The order of the wait queues

Every wait queue is in the order of the native priorities of its threads, so that its head is one
of the highest priority. The walk of `os_mutex_update_pi_chain_locked` puts the threads whose
priority it changes back into the order of the mutex they wait for, but a thread on a plain wait
queue stays where it is (`keepsPlace`). -/

namespace HazelOsal.FreeRtos

open TransitionSystem

variable {T M Q N : Type} [DecidableEq T] [DecidableEq M] [DecidableEq Q] [DecidableEq N]

/-- Every wait queue is in the order of the priorities. -/
def Ordered (m : Mem T M Q) : Prop := ∀ q, Descending (osThreadGetPriority m) (m.queue q)

/-- Every wait queue is, but perhaps for the place of one thread. -/
def OrderedExcept (m : Mem T M Q) (t : T) : Prop :=
  ∀ q, Descending (osThreadGetPriority m) ((m.queue q).erase t)

/-- A round of the walk for `t` leaves it in its place on a plain wait queue: the effective
priority is the one it has, or one that no thread before it is below and none after it above. -/
def keepsPlace (port : Port) (m : Mem T M Q) (t : T) : Bool :=
  match (m.thread t).waitQ with
  | some (.plain q) =>
    let effective := osMutexComputePriorityLocked m t
    let priority := port.nativePriority effective
    effective < 0 || osThreadGetPriority m t = effective ||
      ((m.queue (.plain q)).takeWhile (· ≠ t)).all (fun u => priority ≤ m.uxPriority u) &&
        ((m.queue (.plain q)).dropWhile (· ≠ t)).tail.all fun u => m.uxPriority u ≤ priority
  | _ => true

/-- Every round of the walk does, with `rounds` rounds left. -/
def walkKeepsPlaceFrom (port : Port) : Nat → List T → Mem T M Q → Option T → Bool
  | 0, _, _, _ => true
  | _ + 1, _, _, none => true
  | rounds + 1, visited, m, some t =>
    if t ∈ visited then true
    else
      keepsPlace port m t &&
        let m := osMutexUpdatePriority port m t
        match (m.thread t).waitingMutex with
        | none => true
        | some upstream =>
          walkKeepsPlaceFrom port rounds (t :: visited) (osMutexRequeue m t upstream)
            (m.mutex upstream).owner

/-- The walk leaves a thread on a plain wait queue in its place. -/
def walkKeepsPlace (port : Port) (m : Mem T M Q) (t : Option T) : Bool :=
  walkKeepsPlaceFrom port OS_PI_MAX_CHAIN_DEPTH [] m t

section
variable {port : Port} {m m' : Mem T M Q} {t u : T} {mu : M} {q : WaitQ M Q}

omit [DecidableEq T] [DecidableEq M] [DecidableEq Q] in
theorem getPriority_congr (hu : m'.uxPriority = m.uxPriority)
    (hh : ∀ t, (m'.thread t).handle = (m.thread t).handle) :
    osThreadGetPriority m' = osThreadGetPriority m := by
  funext t
  rw [osThreadGetPriority, osThreadGetPriority, hu, hh]

omit [DecidableEq T] [DecidableEq M] [DecidableEq Q] in
theorem Ordered.same (h : Ordered m) (hq : m'.queue = m.queue)
    (hu : m'.uxPriority = m.uxPriority)
    (hh : ∀ t, (m'.thread t).handle = (m.thread t).handle) : Ordered m' := by
  intro q
  rw [getPriority_congr hu hh, hq]
  exact h q

/-! ## The operations -/

/-- The thread is inserted where its priority belongs. -/
theorem OrderedExcept.insert (h : OrderedExcept m t) :
    Ordered (osWaitqInsertPriorityLocked (m.unlinkWait t) q t) := by
  intro q'
  show Descending (osThreadGetPriority m) _
  rw [osWaitqInsertPriorityLocked, Mem.setQueue_queue, Function.update_apply]
  split
  case isTrue => exact (h q).orderedInsert t
  case isFalse => exact h q'

omit [DecidableEq T] in
theorem Ordered.insert (h : Ordered m) : Ordered (osWaitqInsertPriorityLocked m q t) := by
  intro q'
  show Descending (osThreadGetPriority m) _
  rw [osWaitqInsertPriorityLocked, Mem.setQueue_queue, Function.update_apply]
  split
  case isTrue => exact (h q).orderedInsert t
  case isFalse => exact h q'

omit [DecidableEq M] [DecidableEq Q] in
theorem Ordered.unlink (h : Ordered m) : Ordered (m.unlinkWait t) :=
  fun q => (h q).erase t

omit [DecidableEq T] in
theorem Ordered.pop {rest : List T} (h : Ordered m) (hl : m.queue q = t :: rest) :
    Ordered (m.setQueue q rest) := by
  intro q'
  show Descending (osThreadGetPriority m) _
  rw [Mem.setQueue_queue, Function.update_apply]
  split
  case isTrue =>
    have hq := h q
    rw [hl] at hq
    exact (List.pairwise_cons.mp hq).2
  case isFalse => exact h q'

omit [DecidableEq M] [DecidableEq Q] in
theorem Ordered.setThread {v : OsThread M Q} (h : Ordered m)
    (hv : v.handle = (m.thread t).handle) : Ordered (m.setThread t v) := by
  refine h.same rfl rfl fun u => ?_
  rw [Mem.setThread_thread, Function.update_apply]
  split
  case isTrue he => rw [hv, he]
  case isFalse => rfl

omit [DecidableEq T] [DecidableEq M] [DecidableEq Q] in
theorem Ordered.sync (h : Ordered m) (hs : SameSync m m') : Ordered m' :=
  h.same hs.queue hs.uxPriority hs.handle

theorem Ordered.mutexWakeHead (h : Ordered m) : Ordered (osMutexWakeHead m mu) := by
  rcases mutexWakeHead_cases m mu with he | ⟨t, rest, hl, hwake⟩
  · rwa [he]
  · refine Ordered.sync ?_ hwake
    exact (h.pop hl).setThread rfl

theorem Ordered.waitqWakeHead {q : Q} {reason : UInt32} (h : Ordered m) :
    Ordered (osWaitqWakeHead m q reason) := by
  rcases waitqWakeHead_cases m q reason with he | ⟨t, rest, hl, hwake⟩
  · rwa [he]
  · refine Ordered.sync ?_ hwake
    exact (h.pop hl).setThread rfl

/-! ## The walk -/

/-- What the walk relies on to keep the order. -/
structure OrderInv (m : Mem T M Q) : Prop where
  handle : ∀ t, (m.thread t).handle = true
  queues : QueueInv m
  ordered : Ordered m

omit [DecidableEq M] [DecidableEq Q] in
theorem updatePriority_getPriority_of_ne (hu : u ≠ t) :
    osThreadGetPriority (osMutexUpdatePriority port m t) u = osThreadGetPriority m u := by
  rw [osMutexUpdatePriority]
  split
  case isTrue =>
    simp only [osThreadGetPriority, vTaskPrioritySet, Function.update_of_ne hu]
  case isFalse => rfl

omit [DecidableEq M] [DecidableEq Q] in
theorem updatePriority_queue : (osMutexUpdatePriority port m t).queue = m.queue := by
  obtain ⟨uxPriority, he⟩ := updatePriority_eq port m t
  rw [he]

omit [DecidableEq M] [DecidableEq Q] in
theorem updatePriority_thread : (osMutexUpdatePriority port m t).thread = m.thread := by
  obtain ⟨uxPriority, he⟩ := updatePriority_eq port m t
  rw [he]

/-- The walk from a thread that waits for no mutex is one round. -/
theorem updatePiChain_of_not_waiting (hw : (m.thread t).waitingMutex = none) :
    osMutexUpdatePiChainLocked port m (some t) = osMutexUpdatePriority port m t := by
  simp [osMutexUpdatePiChainLocked, OS_PI_MAX_CHAIN_DEPTH, osMutexUpdatePiChainFrom,
    updatePriority_thread, hw]

omit [DecidableEq M] [DecidableEq Q] in
/-- A round for `t` concerns the place of `t` only. -/
theorem Ordered.updatePriority_except (h : Ordered m) (hq : QueueInv m) (port : Port) (t : T) :
    OrderedExcept (osMutexUpdatePriority port m t) t := by
  intro q
  rw [updatePriority_queue]
  refine ((h q).erase t).congr fun u hu => updatePriority_getPriority_of_ne fun he => ?_
  exact (hq.nodup q).not_mem_erase (he ▸ hu)

omit [DecidableEq M] [DecidableEq Q] in
/-- A round for a thread on a plain wait queue, which the walk does not put back in order. -/
theorem OrderInv.updatePriority_plain {q : Q} (h : OrderInv m) (hk : keepsPlace port m t = true)
    (hw : (m.thread t).waitQ = some (.plain q)) :
    Descending (osThreadGetPriority (osMutexUpdatePriority port m t)) (m.queue (.plain q)) := by
  simp only [keepsPlace, hw, Bool.or_eq_true, Bool.and_eq_true, List.all_eq_true,
    decide_eq_true_eq] at hk
  have hexcept := h.ordered.updatePriority_except h.queues port t (.plain q)
  rw [updatePriority_queue] at hexcept
  by_cases hset : 0 ≤ osMutexComputePriorityLocked m t ∧
      osThreadGetPriority m t ≠ osMutexComputePriorityLocked m t
  case neg =>
    rw [osMutexUpdatePriority, if_neg hset]
    exact h.ordered _
  case pos =>
    rcases hk with (hneg | heq) | ⟨hbefore, hafter⟩
    · exact absurd hset.1 (Int.not_le.mpr hneg)
    · exact absurd heq hset.2
    have hnew : osThreadGetPriority (osMutexUpdatePriority port m t) t =
        port.nativePriority (osMutexComputePriorityLocked m t) := by
      rw [osMutexUpdatePriority, if_pos hset]
      simp [osThreadGetPriority, vTaskPrioritySet, h.handle t]
    have hold {u : T} (hu : u ≠ t) :
        osThreadGetPriority (osMutexUpdatePriority port m t) u = m.uxPriority u := by
      rw [updatePriority_getPriority_of_ne hu, osThreadGetPriority, if_pos (h.handle u)]
    refine Descending.of_erase hexcept (fun u hu => ?_) fun u hu => ?_
    · rcases eq_or_ne u t with rfl | hne
      · rfl
      · rw [hnew, hold hne]
        exact Int.ofNat_le.mpr (hbefore u hu)
    · rcases eq_or_ne u t with rfl | hne
      · rfl
      · rw [hnew, hold hne]
        exact Int.ofNat_le.mpr (hafter u hu)

omit [DecidableEq M] [DecidableEq Q] in
/-- A round for a thread that waits for no mutex. -/
theorem OrderInv.updatePriority (h : OrderInv m) (hk : keepsPlace port m t = true)
    (hw : (m.thread t).waitingMutex = none) : Ordered (osMutexUpdatePriority port m t) := by
  intro q
  rw [updatePriority_queue]
  by_cases ht : t ∈ m.queue q
  case neg =>
    have hexcept := h.ordered.updatePriority_except h.queues port t q
    rwa [updatePriority_queue, List.erase_of_not_mem ht] at hexcept
  case pos =>
    have hwait := (h.queues.mem t q).mp ht
    cases q with
    | mutex mu =>
      rw [(h.queues.waiting t mu).mpr hwait] at hw
      cases hw
    | plain q => exact h.updatePriority_plain hk hwait

/-- A round of the walk keeps the wait queues and the threads in agreement. -/
theorem QueueInv.round (h : QueueInv m) (port : Port) (hw : (m.thread t).waitingMutex = some mu) :
    QueueInv (osMutexRequeue (osMutexUpdatePriority port m t) t mu) := by
  obtain ⟨uxPriority, he⟩ := updatePriority_eq port m t
  have hq : QueueInv { m with uxPriority } := h.perm (fun _ => .refl _) rfl
  rw [he]
  exact hq.perm (requeue_perm hq (hq.waiting_mem.mp hw)) rfl

theorem OrderInv.requeue (h : OrderInv m) (hw : (m.thread t).waitingMutex = some mu) :
    OrderInv (osMutexRequeue (osMutexUpdatePriority port m t) t mu) := by
  have hexcept := h.ordered.updatePriority_except h.queues port t
  refine ⟨fun u => ?_, h.queues.round port hw, hexcept.insert⟩
  show ((osMutexUpdatePriority port m t).thread u).handle = true
  rw [updatePriority_thread]
  exact h.handle u

theorem OrderInv.updatePiChainFrom {rounds : Nat} {visited : List T} {start : Option T}
    (h : OrderInv m) (hk : walkKeepsPlaceFrom port rounds visited m start = true) :
    Ordered (osMutexUpdatePiChainFrom port rounds visited m start) := by
  induction rounds generalizing visited m start with
  | zero => exact h.ordered
  | succ rounds ih =>
    cases start with
    | none => exact h.ordered
    | some t =>
      rw [osMutexUpdatePiChainFrom]
      rw [walkKeepsPlaceFrom] at hk
      split
      case isTrue => exact h.ordered
      case isFalse hv =>
        rw [if_neg hv, Bool.and_eq_true] at hk
        obtain ⟨hplace, hk⟩ := hk
        dsimp only at hk ⊢
        split
        case h_1 hw =>
          rw [updatePriority_thread] at hw
          exact h.updatePriority hplace hw
        case h_2 upstream hw =>
          rw [hw] at hk
          rw [updatePriority_thread] at hw
          exact ih (h.requeue hw) hk

/-- **The walk keeps the order** where no thread on a plain wait queue loses its place. -/
theorem OrderInv.updatePiChain {start : Option T} (h : OrderInv m)
    (hk : walkKeepsPlace port m start = true) :
    Ordered (osMutexUpdatePiChainLocked port m start) :=
  h.updatePiChainFrom hk

/-- The walk of `os_mutex_unlock` is one round for the thread that runs. -/
theorem QueueInv.release (h : QueueInv m) (port : Port) (mu : M) (ht : (m.thread t).waitQ = none) :
    ((osMutexWakeHead (osMutexDisown m mu) mu).thread t).waitQ = none ∧
      osMutexRelease port m t mu =
        osMutexUpdatePriority port (osMutexWakeHead (osMutexDisown m mu) mu) t := by
  have hnone : ((osMutexWakeHead (osMutexDisown m mu) mu).thread t).waitQ = none := by
    have hleaves : Leaves (osMutexDisown m mu) (osMutexWakeHead (osMutexDisown m mu) mu) :=
      .mutexWakeHead
    refine Option.eq_none_iff_forall_ne_some.mpr fun q hq => ?_
    cases ht.symm.trans (hleaves.waitQ t q hq)
  have hqueues : QueueInv (osMutexWakeHead (osMutexDisown m mu) mu) :=
    (h.disown mu).mutexWakeHead
  exact ⟨hnone, updatePiChain_of_not_waiting (hqueues.not_waiting_of_none hnone)⟩

/-- `os_thread_set_priority` puts a thread on a plain wait queue back in order after the walk. -/
theorem OrderInv.setPriority {priority : Int} (h : OrderInv m)
    (hk : (∃ q, (m.thread t).waitQ = some (.plain q)) ∨ walkKeepsPlace port
      (m.setThread t { m.thread t with basePriority := priority }) (some t) = true) :
    Ordered (osThreadSetPriorityCritical port m t priority) := by
  have hbase : OrderInv (m.setThread t { m.thread t with basePriority := priority }) := by
    refine ⟨fun u => ?_, h.queues.setBase t priority, h.ordered.setThread rfl⟩
    rw [Mem.setThread_thread, Function.update_apply]
    split
    · exact h.handle t
    · exact h.handle u
  rw [osThreadSetPriorityCritical]
  dsimp only
  rw [updatePiChain_thread, Mem.setThread_thread, Function.update_self]
  split
  case h_1 q hq hw =>
    rw [updatePiChain_of_not_waiting (by rwa [Mem.setThread_thread, Function.update_self])]
    exact (hbase.ordered.updatePriority_except hbase.queues port t).insert
  case h_2 hnot =>
    rcases hk with ⟨q, hq⟩ | hk
    · exact absurd (h.queues.not_waiting_of_plain hq) (hnot _ hq)
    · exact hbase.updatePiChain hk

end

/-! ## Runs -/

/-- The walk that the step starts leaves a thread on a plain wait queue in its place. The one that
`os_thread_set_priority` starts at a thread on a plain wait queue may move it, since the thread is
put back in order afterwards. -/
def keepsPlaces (port : Port) (s : State T M Q N) : Act T M Q N → Bool
  | .step c =>
    match s.call c, c.current with
    | .lockTry mu timeout start, some t =>
      match (osMutexLockTry port s.mem t mu timeout start).2 with
      | .ret _ => true
      | .wait _ =>
        walkKeepsPlace port (osMutexLink (s.mem.forget t) t mu) (s.mem.mutex mu).owner
    | .lockFinish mu .., some t =>
      (s.mem.thread t).waitQ = none ||
        walkKeepsPlace port (osMutexUnlink s.mem t) (s.mem.mutex mu).owner
    | .setPriorityLock t priority, _ =>
      match (s.mem.thread t).waitQ with
      | some (.plain _) => true
      | _ =>
        walkKeepsPlace port
          (s.mem.setThread t { s.mem.thread t with basePriority := priority }) (some t)
    | .abortLock t, _ =>
      (s.mem.thread t).completed || (s.mem.thread t).ownedMutexes ≠ [] ||
        (s.mem.thread t).waitQ = none ||
        walkKeepsPlace port (osThreadAbortUnlink s.mem t)
          ((s.mem.thread t).waitingMutex.bind fun mu => (s.mem.mutex mu).owner)
    | _, _ => true
  | _ => true

/-- The guard of the runs that keep the order. -/
structure OrderGuard (port : Port) (s : State T M Q N) (a : Act T M Q N) : Prop where
  deinit : SafeDeinit s a
  places : keepsPlaces port s a = true

section
variable {port : Port} {prio : T → Int} {s s' : State T M Q N} {a : Act T M Q N} {c : Caller T N}
  {m' : Mem T M Q} {p' : Pc T M Q}

omit [DecidableEq N] in
/-- **A step of a call keeps the order.** -/
theorem Ordered.callStep (h : Ordered s.mem) (hi : SyncInv s)
    (hstep : callStep port c s.mem (s.call c) = some (m', p'))
    (hk : keepsPlaces port s (.step c) = true) : Ordered m' := by
  have he := callStep_effect hstep
  have hhandle := he.handle
  have hsame (hq : m'.queue = s.mem.queue) (hu : m'.uxPriority = s.mem.uxPriority) :=
    h.same hq hu hhandle
  have hwalk {m : Mem T M Q} {start} (hh : ∀ t, (m.thread t).handle = (s.mem.thread t).handle)
      (hq : QueueInv m) (ho : Ordered m) (hk : walkKeepsPlace port m start = true) :=
    OrderInv.updatePiChain ⟨fun t => (hh t).trans (hi.handle t), hq, ho⟩ hk
  generalize hp : s.call c = p at he hstep
  cases he with
  | same hs => exact hsame hs.sync.queue hs.sync.uxPriority
  | delete | refuse | acquire | recurse | awake | unlockNested | deinit | exit =>
    exact hsame rfl rfl
  | @zero mu =>
    have hnil := hi.queue_nil (hi.zeroing c mu hp)
    refine hsame ?_ rfl
    show Function.update s.mem.queue _ [] = _
    rw [← hnil, Function.update_eq_self]
  | @enqueue t mu timeout start remaining hc ho =>
    subst hc
    have hnone : (s.mem.thread t).waitQ = none := hi.waitQ_eq_none (by rw [hp]; rfl)
    simp only [keepsPlaces, hp, Caller.current] at hk
    split at hk
    case h_1 hr => simp [callStep, Caller.current, hr] at hstep
    case h_2 =>
      have hlink : SameOwners s.mem (osMutexLink (s.mem.forget t) t mu) :=
        .setThread rfl rfl rfl rfl
      exact hwalk hlink.handle (hi.queues.mutexLink hnone mu)
        (.insert (.setThread (h.sync .forget) rfl)) hk
  | @abandon t mu _ _ _ _ hc hw =>
    subst hc
    simp only [keepsPlaces, hp, Caller.current, hw, decide_false, Bool.false_or] at hk
    exact hwalk Leaves.mutexUnlink.handle (hi.queues.mutexUnlink t) (h.unlink.setThread rfl) hk
  | @release t mu hc ho =>
    subst hc
    have hnone : (s.mem.thread t).waitQ = none := hi.waitQ_eq_none (by rw [hp]; rfl)
    obtain ⟨hnone', hround⟩ := hi.queues.release port mu hnone
    have hwake : OrderInv (osMutexWakeHead (osMutexDisown s.mem mu) mu) := by
      refine ⟨fun u => ?_, (hi.queues.disown mu).mutexWakeHead, .mutexWakeHead ?_⟩
      · exact (Leaves.mutexWakeHead.handle u).trans (hi.handle u)
      · exact h.same rfl rfl fun _ => rfl
    have hrelease : Ordered (osMutexRelease port s.mem t mu) := by
      rw [hround]
      exact hwake.updatePriority (by simp [keepsPlace, hnone'])
        (hwake.queues.not_waiting_of_none hnone')
    exact hrelease.sync .recordUnlock
  | block => exact Ordered.insert (.setThread (h.sync .forget) rfl)
  | unblock => exact h.unlink.setThread rfl
  | wakeOne => exact h.waitqWakeHead
  | wakeAll => exact wakeAll_induction h fun _ h => h.waitqWakeHead
  | @setPriority t priority =>
    refine OrderInv.setPriority ⟨hi.handle, hi.queues, h⟩ ?_
    simp only [keepsPlaces, hp] at hk
    split at hk
    case h_1 q hq => exact .inl ⟨q, hq⟩
    case h_2 => exact .inr hk
  | @abortWaiting t _ ho hw =>
    have hunlink : Leaves s.mem (osThreadAbortUnlink s.mem t) :=
      .setThread rfl rfl rfl rfl (.inl rfl)
    simp only [keepsPlaces, hp, hw, decide_false, Bool.or_false, Bool.or_eq_true] at hk
    rcases hk with hdone | hk
    case inl =>
      have hdone : (s.mem.thread t).completed = true := by simpa [ho] using hdone
      simp only [callStep, osThreadAbortCritical, if_pos hdone, Option.some.injEq,
        Prod.mk.injEq] at hstep
      exact hstep.1 ▸ h
    case inr =>
      have hset : Ordered ((s.mem.unlinkWait t).setThread t
          { s.mem.thread t with waitQ := none, waitingMutex := none }) := h.unlink.setThread rfl
      exact (hwalk hunlink.handle (hi.queues.abortUnlink t) (hset.sync .remove) hk).setThread rfl

theorem ordered_of_reachable
    (h : ReachableVia (system port prio : System (State T M Q N) _) (OrderGuard port) s) :
    Ordered s.mem := by
  refine h.induction (I := fun s => Ordered s.mem) (fun s (h : Init port prio s) q => ?_)
    fun s a s' hr ho hok hs => ?_
  · rw [h.queue]
    exact List.Pairwise.nil
  · have hi := syncInv_of_reachable (fun _ _ => OrderGuard.deinit) hr
    cases step_cases hs with
    | call | expire => exact ho
    | tick => exact ho.same rfl rfl fun _ => rfl
    | step _ hstep => exact ho.callStep hi hstep hok.places

/-- The next step of the context unlocks a mutex for the last time, or wakes one thread of a plain
wait queue. -/
def Releases (s : State T M Q N) (c : Caller T N) : WaitQ M Q → Prop
  | .mutex mu => s.call c = .unlockLock mu ∧ c.current = (s.mem.mutex mu).owner ∧
      (s.mem.mutex mu).lockCount = 1
  | .plain q => ∃ reason, s.call c = .wakeOneLock q reason

theorem mutexWakeHead_of_cons {m : Mem T M Q} {mu : M} {t : T} {rest : List T}
    (hl : m.queue (.mutex mu) = t :: rest) : (osMutexWakeHead m mu).queue (.mutex mu) = rest ∧
      ((osMutexWakeHead m mu).thread t).waitQ = none := by
  rw [osMutexWakeHead, hl]
  dsimp only
  rw [Mem.remove_queue, Mem.remove_thread, SameSync.osWaitqNotifyThreadLocked.queue,
    SameSync.osWaitqNotifyThreadLocked.waitQ]
  simp

theorem waitqWakeHead_of_cons {m : Mem T M Q} {q : Q} {reason : UInt32} {t : T} {rest : List T}
    (hl : m.queue (.plain q) = t :: rest) :
    (osWaitqWakeHead m q reason).queue (.plain q) = rest ∧
      ((osWaitqWakeHead m q reason).thread t).waitQ = none := by
  rw [osWaitqWakeHead, hl]
  dsimp only
  rw [Mem.remove_queue, Mem.remove_thread, SameSync.osWaitqNotifyThreadLocked.queue,
    SameSync.osWaitqNotifyThreadLocked.waitQ]
  simp

/-- A release removes the head of the wait queue. -/
theorem releases_head (hi : SyncInv s) {q : WaitQ M Q} {t : T} {rest : List T}
    (hrel : Releases s c q) (hl : s.mem.queue q = t :: rest)
    (hs : step port s (.step c) = some s') :
    s'.mem.queue q = rest ∧ (s'.mem.thread t).waitQ = none := by
  cases step_cases hs with
  | @step _ m' p' _ hstep =>
  rw [State.setCall_mem]
  cases q with
  | plain q =>
    obtain ⟨reason, hc⟩ := hrel
    rw [hc] at hstep
    cases hstep
    exact waitqWakeHead_of_cons hl
  | mutex mu =>
    obtain ⟨hp, howner, hcount⟩ := hrel
    rw [hp] at hstep
    obtain ⟨u, hc, hstep⟩ := Option.map_eq_some_iff.mp hstep
    have hnone : (s.mem.thread u).waitQ = none := by
      refine hi.waitQ_eq_none ?_
      rw [← Caller.current_eq_some hc, hp]
      rfl
    rw [hc] at howner
    simp only [osMutexUnlockCritical, ← howner, hcount, ne_eq, not_true, if_false] at hstep
    cases hstep
    show (osMutexRelease port s.mem u mu).queue _ = rest ∧
      ((osMutexRelease port s.mem u mu).thread t).waitQ = none
    rw [(hi.queues.release port mu hnone).2, updatePriority_queue, updatePriority_thread]
    exact mutexWakeHead_of_cons (m := osMutexDisown s.mem mu) hl

/-- **The wait queues are in the order of the priorities**, where the walk moves no thread of a
plain wait queue past another one. What an unlock or `os_waitq_wake_one` releases is a thread of
the highest priority. -/
theorem queues_ordered
    (h : ReachableVia (system port prio : System (State T M Q N) _) (OrderGuard port) s) :
    (∀ q, Descending s.mem.uxPriority (s.mem.queue q)) ∧
    ∀ c q s', Releases s c q → step port s (.step c) = some s' → s.mem.queue q ≠ [] →
      ∃ t rest, s.mem.queue q = t :: rest ∧ s'.mem.queue q = rest ∧
        (s'.mem.thread t).waitQ = none ∧ ∀ u ∈ rest, s.mem.uxPriority u ≤ s.mem.uxPriority t := by
  have hi := syncInv_of_reachable (fun _ _ => OrderGuard.deinit) h
  have hordered (q) : Descending s.mem.uxPriority (s.mem.queue q) := by
    have hq := ordered_of_reachable h q
    rw [getPriority_eq hi.handle] at hq
    exact hq.imp Int.ofNat_le.mp
  refine ⟨hordered, fun c q s' hrel hs hne => ?_⟩
  obtain ⟨t, rest, hl⟩ := List.exists_cons_of_ne_nil hne
  have hle : ∀ u ∈ rest, s.mem.uxPriority u ≤ s.mem.uxPriority t := by
    have hq := hordered q
    rw [hl] at hq
    exact (List.pairwise_cons.mp hq).1
  obtain ⟨hrest, hnone⟩ := releases_head hi hrel hl hs
  exact ⟨t, rest, hl, hrest, hnone, hle⟩

end

/-! ## Concrete runs -/

omit [DecidableEq N] in
theorem OrderGuard.of_check {port : Port} {s : State T M Q N} {a : Act T M Q N}
    (h : (noDeinit s a && keepsPlaces port s a) = true) : OrderGuard port s a := by
  rw [Bool.and_eq_true] at h
  exact ⟨.of_noDeinit h.1, h.2⟩

theorem queues_ordered_two_waiters : ∃ s s' : State (Fin 3) Unit Unit Unit,
    exec (system ⟨8, 32⟩ threePriorities) (.initial ⟨8, 32⟩ threePriorities)
      (twoWaitersRun 0 1 2) = some s ∧
    step ⟨8, 32⟩ s (.step (.thread 0)) = some s' ∧
    ∃ t rest, s.mem.queue (.mutex ()) = t :: rest ∧ s'.mem.queue (.mutex ()) = rest ∧
      (s'.mem.thread t).waitQ = none ∧
      ∀ u ∈ rest, s.mem.uxPriority u ≤ s.mem.uxPriority t := by
  obtain ⟨s, hs, hp, howner, hcount, hne, hstep⟩ := exists_of_exec (twoWaitersRun 0 1 2)
    (M := system ⟨8, 32⟩ threePriorities) (s := .initial ⟨8, 32⟩ threePriorities)
    (P := fun s => s.call (.thread 0) = .unlockLock () ∧ some 0 = (s.mem.mutex ()).owner ∧
      (s.mem.mutex ()).lockCount = 1 ∧ s.mem.queue (.mutex ()) ≠ [] ∧
      (step ⟨8, 32⟩ s (.step (.thread 0))).isSome) (by decide +kernel)
  obtain ⟨s', hs'⟩ := Option.isSome_iff_exists.mp hstep
  have h := queues_ordered (reachableVia_of_execOk (twoWaitersRun 0 1 2)
    (fun _ _ => OrderGuard.of_check) (State.init_initial ⟨8, 32⟩ threePriorities)
    (by decide +kernel) hs)
  exact ⟨s, s', hs, hs', h.2 (.thread 0) (.mutex ()) s' ⟨hp, howner, hcount⟩ hs' hne⟩

/-- A thread that owns the mutex waits on a plain wait queue behind one of higher priority. The
walk that a third thread starts by waiting for the mutex raises the first above the second, but
leaves it behind. -/
theorem queue_disordered_by_walk : ∃ s : State (Fin 3) Unit Unit Unit,
    exec (system ⟨8, 32⟩ threePriorities) (.initial ⟨8, 32⟩ threePriorities)
      (callSteps (.thread 0) (.lock () OS_WAIT_FOREVER) 3 ++
        callSteps (.thread 0) (.block () OS_WAIT_FOREVER) 3 ++
        callSteps (.thread 1) (.block () OS_WAIT_FOREVER) 3 ++
        callSteps (.thread 2) (.lock () OS_WAIT_FOREVER) 3) = some s ∧
    s.mem.queue (.plain ()) = [1, 0] ∧ s.mem.uxPriority 1 = 3 ∧ s.mem.uxPriority 0 = 5 :=
  exists_of_exec _ (by decide +kernel)

end HazelOsal.FreeRtos
