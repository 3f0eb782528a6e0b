import HazelOsal.FreeRtos.Effects
import HazelOsal.Library.Located

/-! # The invariant of the wait queues and mutexes

`QueueInv` says that the wait queues and the threads agree, `OwnerInv` that the mutexes and their
owners' lists do. Each operation is shown to keep them, and a run keeps them if no
`os_mutex_deinit` takes effect under a call of `os_mutex_lock` (`SafeDeinit`). -/

namespace HazelOsal.FreeRtos

open TransitionSystem

variable {T M Q N : Type} [DecidableEq T] [DecidableEq M] [DecidableEq Q]

section
variable {port : Port} {m m' : Mem T M Q} {t u : T} {mu : M} {q : WaitQ M Q}

/-! ## The chain walk -/

/-- What holds before `os_mutex_update_pi_chain_locked` and is kept by both halves of a round holds
after it. -/
theorem updatePiChain_induction (port : Port) (start : Option T) {P : Mem T M Q → Prop} (h : P m)
    (hprio : ∀ m t, P m → P (osMutexUpdatePriority port m t))
    (hrequeue : ∀ m t mu, P m → (m.thread t).waitingMutex = some mu → P (osMutexRequeue m t mu)) :
    P (osMutexUpdatePiChainLocked port m start) := by
  have hfrom (rounds : Nat) (visited : List T) (m : Mem T M Q) (start : Option T) (h : P m) :
      P (osMutexUpdatePiChainFrom port rounds visited m start) := by
    induction rounds generalizing visited m start with
    | zero => exact h
    | succ rounds ih =>
      cases start with
      | none => exact h
      | some t =>
        rw [osMutexUpdatePiChainFrom]
        split
        case isTrue => exact h
        case isFalse =>
          have h₁ := hprio m t h
          dsimp only
          split
          case h_1 => exact h₁
          case h_2 mu hmu => exact ih _ _ _ (hrequeue _ t mu h₁ hmu)
  exact hfrom _ _ _ _ h

omit [DecidableEq M] [DecidableEq Q] in
theorem updatePriority_eq (port : Port) (m : Mem T M Q) (t : T) :
    ∃ uxPriority, osMutexUpdatePriority port m t = { m with uxPriority } := by
  rw [osMutexUpdatePriority]
  split
  · exact ⟨_, rfl⟩
  · exact ⟨m.uxPriority, rfl⟩

theorem updatePiChain_eq (port : Port) (m : Mem T M Q) (start : Option T) :
    ∃ queue uxPriority,
      osMutexUpdatePiChainLocked port m start = { m with queue, uxPriority } := by
  refine updatePiChain_induction port start
    (P := fun m' => ∃ queue uxPriority, m' = { m with queue, uxPriority })
    ⟨m.queue, m.uxPriority, rfl⟩ ?_ ?_
  · rintro _ t ⟨queue, uxPriority, rfl⟩
    obtain ⟨uxPriority', h⟩ :=
      updatePriority_eq port { m with queue, uxPriority } t
    exact ⟨queue, uxPriority', h⟩
  · rintro _ t mu ⟨queue, uxPriority, rfl⟩ -
    exact ⟨_, uxPriority, rfl⟩

@[simp] theorem updatePiChain_thread {start : Option T} :
    (osMutexUpdatePiChainLocked port m start).thread = m.thread := by
  obtain ⟨_, _, h⟩ := updatePiChain_eq port m start
  rw [h]

@[simp] theorem updatePiChain_mutex {start : Option T} :
    (osMutexUpdatePiChainLocked port m start).mutex = m.mutex := by
  obtain ⟨_, _, h⟩ := updatePiChain_eq port m start
  rw [h]

@[simp] theorem updatePiChain_notification {start : Option T} :
    (osMutexUpdatePiChainLocked port m start).notification = m.notification := by
  obtain ⟨_, _, h⟩ := updatePiChain_eq port m start
  rw [h]

@[simp] theorem updatePiChain_deleted {start : Option T} :
    (osMutexUpdatePiChainLocked port m start).deleted = m.deleted := by
  obtain ⟨_, _, h⟩ := updatePiChain_eq port m start
  rw [h]

@[simp] theorem updatePiChain_tick {start : Option T} :
    (osMutexUpdatePiChainLocked port m start).tick = m.tick := by
  obtain ⟨_, _, h⟩ := updatePiChain_eq port m start
  rw [h]

@[simp] theorem updatePiChain_hist {start : Option T} :
    (osMutexUpdatePiChainLocked port m start).hist = m.hist := by
  obtain ⟨_, _, h⟩ := updatePiChain_eq port m start
  rw [h]

/-! ## The wait queues -/

/-- The wait queues and the threads agree. -/
structure QueueInv (m : Mem T M Q) : Prop extends
    Located m.queue (fun t => (m.thread t).waitQ) where
  waiting : ∀ t mu, (m.thread t).waitingMutex = some mu ↔ (m.thread t).waitQ = some (.mutex mu)
  pending : ∀ t, (m.thread t).waitQ ≠ none → (m.thread t).state = .pending

section
omit [DecidableEq T] [DecidableEq M] [DecidableEq Q]

theorem QueueInv.congr (h : QueueInv m) (hq : m'.queue = m.queue)
    (hw : ∀ t, (m'.thread t).waitQ = (m.thread t).waitQ)
    (hm : ∀ t, (m'.thread t).waitingMutex = (m.thread t).waitingMutex)
    (hs : ∀ t, (m.thread t).waitQ ≠ none → (m'.thread t).state = (m.thread t).state) :
    QueueInv m' where
  nodup q := hq ▸ h.nodup q
  mem t q := by rw [hq, hw]; exact h.mem t q
  waiting t mu := by rw [hm, hw]; exact h.waiting t mu
  pending t ht := by
    rw [hw] at ht
    rw [hs t ht]
    exact h.pending t ht

theorem QueueInv.same (h : QueueInv m) (hs : SameSync m m') : QueueInv m' :=
  h.congr hs.queue hs.waitQ hs.waitingMutex hs.state

/-- A thread that is on no wait queue of a mutex waits for none. -/
theorem QueueInv.not_waiting (h : QueueInv m) (ht : ∀ mu, (m.thread t).waitQ ≠ some (.mutex mu)) :
    (m.thread t).waitingMutex = none :=
  Option.eq_none_iff_forall_ne_some.mpr fun mu hmu => ht mu ((h.waiting t mu).mp hmu)

theorem QueueInv.not_waiting_of_none (h : QueueInv m) (ht : (m.thread t).waitQ = none) :
    (m.thread t).waitingMutex = none :=
  h.not_waiting fun mu hmu => by rw [ht] at hmu; cases hmu

theorem QueueInv.not_waiting_of_plain {q : Q} (h : QueueInv m)
    (ht : (m.thread t).waitQ = some (.plain q)) : (m.thread t).waitingMutex = none :=
  h.not_waiting fun mu hmu => by rw [ht] at hmu; cases hmu

end

omit [DecidableEq M] [DecidableEq Q] in
/-- The same wait queues, and a thread that is on none. -/
theorem QueueInv.setThread {v : OsThread M Q} (h : QueueInv m) (ht : (m.thread t).waitQ = none)
    (hq : v.waitQ = none) (hm : v.waitingMutex = none) : QueueInv (m.setThread t v) := by
  refine h.congr rfl (fun u => ?_) (fun u => ?_) fun u hu => ?_
  all_goals rw [Mem.setThread_thread, Function.update_apply]; split
  case refine_1.isTrue he => rw [hq, he, ht]
  case refine_2.isTrue he => rw [hm, he, h.not_waiting_of_none ht]
  case refine_3.isTrue he => exact absurd (he ▸ ht) hu
  all_goals rfl

omit [DecidableEq T] [DecidableEq M] [DecidableEq Q] in
theorem QueueInv.waiting_mem (h : QueueInv m) :
    (m.thread t).waitingMutex = some mu ↔ t ∈ m.queue (.mutex mu) :=
  (h.waiting t mu).trans (h.mem t _).symm

omit [DecidableEq T] [DecidableEq M] [DecidableEq Q] in
/-- What the chain walk may do to the wait queues. -/
theorem QueueInv.perm (h : QueueInv m) (hq : ∀ q, (m'.queue q).Perm (m.queue q))
    (ht : m'.thread = m.thread) : QueueInv m' where
  toLocated := ht ▸ h.toLocated.perm hq
  waiting := ht ▸ h.waiting
  pending := ht ▸ h.pending

omit [DecidableEq M] [DecidableEq Q] in
theorem waitQ_setThread (m : Mem T M Q) (t : T) (v : OsThread M Q) :
    (fun u => ((m.setThread t v).thread u).waitQ) =
      Function.update (fun u => (m.thread u).waitQ) t v.waitQ := by
  funext u
  rw [Mem.setThread_thread, Function.update_apply, Function.update_apply]
  split <;> rfl

/-- A thread joins a wait queue. -/
theorem QueueInv.insert {v : OsThread M Q} (h : QueueInv m) (ht : (m.thread t).waitQ = none)
    (hq : v.waitQ = some q) (hm : ∀ mu, v.waitingMutex = some mu ↔ q = .mutex mu)
    (hs : v.state = .pending) :
    QueueInv (osWaitqInsertPriorityLocked (m.setThread t v) q t) := by
  constructor
  · show Located _ (fun u => ((m.setThread t v).thread u).waitQ)
    rw [waitQ_setThread, hq]
    exact h.toLocated.insert ht (List.perm_orderedInsert _ _ _)
  · intro u mu
    simp only [osWaitqInsertPriorityLocked, Mem.setQueue_thread, Mem.setThread_thread,
      Function.update_apply]
    split
    case isTrue => rw [hm, hq, Option.some.injEq]
    case isFalse => exact h.waiting u mu
  · intro u
    simp only [osWaitqInsertPriorityLocked, Mem.setQueue_thread, Mem.setThread_thread,
      Function.update_apply]
    split
    case isTrue => exact fun _ => hs
    case isFalse => exact h.pending u

omit [DecidableEq M] [DecidableEq Q] in
/-- A thread leaves its wait queue. -/
theorem QueueInv.leave {v : OsThread M Q} (h : QueueInv m) (hq : v.waitQ = none)
    (hm : v.waitingMutex = none) (ht : m'.thread = (m.setThread t v).thread)
    (hl : Located m'.queue (Function.update (fun u => (m.thread u).waitQ) t none)) :
    QueueInv m' := by
  constructor
  · rw [ht, waitQ_setThread, hq]
    exact hl
  · intro u mu
    rw [ht, Mem.setThread_thread, Function.update_apply]
    split
    case isTrue => simp [hq, hm]
    case isFalse => exact h.waiting u mu
  · intro u
    rw [ht, Mem.setThread_thread, Function.update_apply]
    split
    case isTrue => exact fun hne => absurd hq hne
    case isFalse => exact h.pending u

omit [DecidableEq M] [DecidableEq Q] in
theorem QueueInv.unlink {v : OsThread M Q} (h : QueueInv m) (hq : v.waitQ = none)
    (hm : v.waitingMutex = none) : QueueInv ((m.unlinkWait t).setThread t v) :=
  h.leave hq hm rfl (h.toLocated.erase t)

/-- The head of a wait queue is removed. -/
theorem QueueInv.pop {v : OsThread M Q} {rest : List T} (h : QueueInv m)
    (hl : m.queue q = t :: rest) (hq : v.waitQ = none) (hm : v.waitingMutex = none) :
    QueueInv ((m.setQueue q rest).setThread t v) :=
  h.leave hq hm rfl (h.toLocated.pop hl)

theorem requeue_perm (h : QueueInv m) (hq : t ∈ m.queue q) (q' : WaitQ M Q) :
    ((osWaitqInsertPriorityLocked (m.unlinkWait t) q t).queue q').Perm (m.queue q') :=
  h.toLocated.replace hq (List.perm_orderedInsert _ _ _) q'

/-- **The chain walk reorders the wait queues.** -/
theorem updatePiChain_perm (h : QueueInv m) (start : Option T) (q : WaitQ M Q) :
    ((osMutexUpdatePiChainLocked port m start).queue q).Perm (m.queue q) := by
  have hwalk := updatePiChain_induction port start
    (P := fun m' => QueueInv m' ∧ ∀ q, (m'.queue q).Perm (m.queue q)) ⟨h, fun _ => .refl _⟩
    (fun m₁ t ⟨h₁, hp⟩ => by
      obtain ⟨_, he⟩ := updatePriority_eq port m₁ t
      rw [he]
      exact ⟨h₁.perm (fun _ => .refl _) rfl, hp⟩)
    (fun m₁ t mu ⟨h₁, hp⟩ hmu =>
      have hq := requeue_perm h₁ (h₁.waiting_mem.mp hmu)
      ⟨h₁.perm hq rfl, fun q => (hq q).trans (hp q)⟩)
  exact hwalk.2 q

theorem QueueInv.updatePiChain (h : QueueInv m) (port : Port) (start : Option T) :
    QueueInv (osMutexUpdatePiChainLocked port m start) :=
  h.perm (updatePiChain_perm h start) updatePiChain_thread

theorem QueueInv.mutexWakeHead (h : QueueInv m) : QueueInv (osMutexWakeHead m mu) := by
  rcases mutexWakeHead_cases m mu with he | ⟨t, rest, hl, hwake⟩
  · rwa [he]
  · exact (h.pop hl rfl rfl).same hwake

theorem QueueInv.waitqWakeHead {q : Q} {reason : UInt32} (h : QueueInv m) :
    QueueInv (osWaitqWakeHead m q reason) := by
  rcases waitqWakeHead_cases m q reason with he | ⟨t, rest, hl, hwake⟩
  · rwa [he]
  · have ht : t ∈ m.queue (.plain q) := hl ▸ List.mem_cons_self
    have hm := h.not_waiting_of_plain ((h.mem t _).mp ht)
    refine QueueInv.same ?_ hwake
    exact h.pop hl rfl hm

/-- What `osWaitqWakeHead` keeps, the loop of `os_waitq_wake_all` does. -/
theorem wakeAll_induction {P : Mem T M Q → Prop} {q : Q} {reason : UInt32} (h : P m)
    (hhead : ∀ m, P m → P (osWaitqWakeHead m q reason)) : P (osWaitqWakeAll m q reason) := by
  rw [osWaitqWakeAll]
  generalize (m.queue (.plain q)).length = n
  induction n generalizing m with
  | zero => exact h
  | succ n ih => exact ih (hhead m h)

omit [DecidableEq M] [DecidableEq Q] in
/-- The new base priority of a thread. -/
theorem QueueInv.setBase (h : QueueInv m) (t : T) (priority : Int) :
    QueueInv (m.setThread t { m.thread t with basePriority := priority }) := by
  refine h.congr rfl (fun u => ?_) (fun u => ?_) fun u _ => ?_
  all_goals
    rw [Mem.setThread_thread, Function.update_apply]
    split
    case isTrue he => rw [he]
    case isFalse => rfl

theorem QueueInv.setPriority {priority : Int} (h : QueueInv m) :
    QueueInv (osThreadSetPriorityCritical port m t priority) := by
  have hwalk := (h.setBase t priority).updatePiChain port (some t)
  rw [osThreadSetPriorityCritical]
  dsimp only
  split
  case h_1 q hq _ => exact hwalk.perm (requeue_perm hwalk ((hwalk.mem t q).mpr hq)) rfl
  case h_2 => exact hwalk

omit [DecidableEq M] [DecidableEq Q] in
theorem QueueInv.abortUnlink (h : QueueInv m) (t : T) : QueueInv (osThreadAbortUnlink m t) :=
  (h.unlink rfl rfl).same .remove

/-- The queueing of a thread that is on no wait queue. -/
theorem QueueInv.mutexLink (h : QueueInv m) (ht : (m.thread t).waitQ = none) (mu : M) :
    QueueInv (osMutexLink (m.forget t) t mu) :=
  (h.same .forget).insert ht rfl (fun mu' => by rw [Option.some.injEq, WaitQ.mutex.injEq]) rfl

omit [DecidableEq M] [DecidableEq Q] in
theorem QueueInv.mutexUnlink (h : QueueInv m) (t : T) : QueueInv (osMutexUnlink m t) :=
  h.unlink rfl rfl

omit [DecidableEq T] [DecidableEq Q] in
theorem QueueInv.disown (h : QueueInv m) (mu : M) : QueueInv (osMutexDisown m mu) :=
  h.congr rfl (fun _ => rfl) (fun _ => rfl) fun _ _ => rfl

theorem QueueInv.abortWaiting (h : QueueInv m) :
    QueueInv (osThreadAbortMark (osThreadAbortDequeue port m t) t) := by
  have hnone : ((osThreadAbortDequeue port m t).thread t).waitQ = none := by
    simp [osThreadAbortDequeue, osThreadAbortUnlink]
  have hnone' : ((osThreadAbortDequeue port m t).thread t).waitingMutex = none := by
    simp [osThreadAbortDequeue, osThreadAbortUnlink]
  exact ((h.abortUnlink t).updatePiChain port _).setThread hnone hnone hnone'

/-! ## The mutexes and their owners -/

/-- The mutexes and their owners' lists agree. -/
structure OwnerInv (m : Mem T M Q) : Prop where
  owned : ∀ t mu, mu ∈ (m.thread t).ownedMutexes ↔ (m.mutex mu).owner = some t
  nodup : ∀ t, (m.thread t).ownedMutexes.Nodup

/-- Nothing that concerns the mutexes and their owners changes. -/
structure SameOwners (m m' : Mem T M Q) : Prop where
  mutex : m'.mutex = m.mutex
  handle : ∀ t, (m'.thread t).handle = (m.thread t).handle
  ownedMutexes : ∀ t, (m'.thread t).ownedMutexes = (m.thread t).ownedMutexes

/-- In addition no thread joins a wait queue. -/
structure Leaves (m m' : Mem T M Q) : Prop extends SameOwners m m' where
  waitQ : ∀ t q, (m'.thread t).waitQ = some q → (m.thread t).waitQ = some q

omit [DecidableEq M] [DecidableEq Q] in
theorem SameOwners.setThread {v : OsThread M Q} (hm : m'.mutex = m.mutex)
    (ht : m'.thread = Function.update m.thread t v) (hh : v.handle = (m.thread t).handle)
    (ho : v.ownedMutexes = (m.thread t).ownedMutexes) : SameOwners m m' := by
  refine ⟨hm, fun u => ?_, fun u => ?_⟩
  all_goals
    rw [ht, Function.update_apply]
    split
    case isTrue he => rw [he]; assumption
    case isFalse => rfl

omit [DecidableEq T] [DecidableEq M] [DecidableEq Q] in
theorem SameOwners.trans {m'' : Mem T M Q} (h : SameOwners m m') (h' : SameOwners m' m'') :
    SameOwners m m'' where
  mutex := h'.mutex.trans h.mutex
  handle t := (h'.handle t).trans (h.handle t)
  ownedMutexes t := (h'.ownedMutexes t).trans (h.ownedMutexes t)

namespace Leaves

variable {m'' : Mem T M Q}

section
omit [DecidableEq T] [DecidableEq M] [DecidableEq Q]

theorem refl (m : Mem T M Q) : Leaves m m := ⟨⟨rfl, fun _ => rfl, fun _ => rfl⟩, fun _ _ => id⟩

theorem trans (h : Leaves m m') (h' : Leaves m' m'') : Leaves m m'' :=
  ⟨h.toSameOwners.trans h'.toSameOwners, fun t q ht => h.waitQ t q (h'.waitQ t q ht)⟩

theorem same (h : SameSync m m') : Leaves m m' :=
  ⟨⟨h.mutex, h.handle, h.ownedMutexes⟩, fun t q ht => by rwa [h.waitQ] at ht⟩

theorem of_eq (hm : m'.mutex = m.mutex) (ht : m'.thread = m.thread) : Leaves m m' :=
  ⟨⟨hm, fun _ => by rw [ht], fun _ => by rw [ht]⟩, fun t q h => by rwa [ht] at h⟩

end

omit [DecidableEq M] [DecidableEq Q] in
theorem setThread {v : OsThread M Q} (hm : m'.mutex = m.mutex)
    (ht : m'.thread = Function.update m.thread t v) (hh : v.handle = (m.thread t).handle)
    (ho : v.ownedMutexes = (m.thread t).ownedMutexes)
    (hw : v.waitQ = none ∨ v.waitQ = (m.thread t).waitQ) : Leaves m m' := by
  refine ⟨.setThread hm ht hh ho, fun u q hu => ?_⟩
  rw [ht, Function.update_apply] at hu
  split at hu
  case isTrue he =>
    rcases hw with hn | hw
    · rw [hn] at hu; cases hu
    · rw [he, ← hw, hu]
  case isFalse => exact hu

theorem updatePiChain {start : Option T} :
    Leaves m (osMutexUpdatePiChainLocked port m start) :=
  .of_eq updatePiChain_mutex updatePiChain_thread

theorem mutexWakeHead : Leaves m (osMutexWakeHead m mu) := by
  rcases mutexWakeHead_cases m mu with he | ⟨t, rest, -, hwake⟩
  · rw [he]
    exact refl m
  · refine trans ?_ (same hwake)
    exact setThread rfl rfl rfl rfl (.inl rfl)

theorem waitqWakeHead {q : Q} {reason : UInt32} : Leaves m (osWaitqWakeHead m q reason) := by
  rcases waitqWakeHead_cases m q reason with he | ⟨t, rest, -, hwake⟩
  · rw [he]
    exact refl m
  · refine trans ?_ (same hwake)
    exact setThread rfl rfl rfl rfl (.inl rfl)

theorem waitqWakeAll {q : Q} {reason : UInt32} : Leaves m (osWaitqWakeAll m q reason) :=
  wakeAll_induction (refl m) fun _ h => h.trans waitqWakeHead

omit [DecidableEq M] [DecidableEq Q] in
theorem mutexUnlink : Leaves m (osMutexUnlink m t) := setThread rfl rfl rfl rfl (.inl rfl)

omit [DecidableEq M] [DecidableEq Q] in
theorem blockUnlink : Leaves m (osWaitqBlockUnlink m t) := setThread rfl rfl rfl rfl (.inl rfl)

theorem setPriority {priority : Int} :
    Leaves m (osThreadSetPriorityCritical port m t priority) := by
  have hbase : Leaves m (m.setThread t { m.thread t with basePriority := priority }) :=
    setThread rfl rfl rfl rfl (.inr rfl)
  rw [osThreadSetPriorityCritical]
  dsimp only
  split
  case h_1 => exact (hbase.trans updatePiChain).trans (of_eq rfl rfl)
  case h_2 => exact hbase.trans updatePiChain

theorem abortDequeue : Leaves m (osThreadAbortDequeue port m t) :=
  have hthread : Leaves m (osThreadAbortUnlink m t) := setThread rfl rfl rfl rfl (.inl rfl)
  hthread.trans updatePiChain

omit [DecidableEq M] [DecidableEq Q] in
theorem abortMark : Leaves m (osThreadAbortMark m t) := setThread rfl rfl rfl rfl (.inr rfl)

end Leaves

omit [DecidableEq T] [DecidableEq M] [DecidableEq Q] in
theorem OwnerInv.congr (h : OwnerInv m)
    (hm : ∀ mu, (m'.mutex mu).owner = (m.mutex mu).owner)
    (ho : ∀ t, (m'.thread t).ownedMutexes = (m.thread t).ownedMutexes) : OwnerInv m' where
  owned t mu := by rw [ho, hm]; exact h.owned t mu
  nodup t := ho t ▸ h.nodup t

omit [DecidableEq T] [DecidableEq M] [DecidableEq Q] in
theorem OwnerInv.same (h : OwnerInv m) (hs : SameOwners m m') : OwnerInv m' :=
  h.congr (fun _ => by rw [hs.mutex]) hs.ownedMutexes

omit [DecidableEq T] [DecidableEq Q] in
/-- An update of a mutex that leaves its owner. -/
theorem OwnerInv.setMutex {v : OsMutex T} (h : OwnerInv m) (ht : m'.thread = m.thread)
    (hm : m'.mutex = Function.update m.mutex mu v) (hv : v.owner = (m.mutex mu).owner) :
    OwnerInv m' := by
  refine h.congr (fun mu' => ?_) fun _ => by rw [ht]
  rw [hm, Function.update_apply]
  split
  case isTrue he => rw [he, hv]
  case isFalse => rfl

omit [DecidableEq Q] in
theorem OwnerInv.acquire (h : OwnerInv m) (ho : (m.mutex mu).owner = none) :
    OwnerInv (osMutexAcquire m t mu) := by
  have hnot (u) : mu ∉ (m.thread u).ownedMutexes := by
    rw [h.owned, ho]
    exact (Option.some_ne_none u).symm
  refine ⟨fun u mu' => ?_, fun u => ?_⟩
  · simp only [osMutexAcquire, Mem.recordLock_thread, Mem.recordLock_mutex, Mem.setThread_thread,
      Mem.setThread_mutex, Mem.setMutex_thread, Mem.setMutex_mutex, Function.update_apply]
    by_cases hmu : mu' = mu
    · subst hmu
      by_cases hu : u = t
      · simp [hu]
      · simp [hu, hnot, Ne.symm hu]
    · by_cases hu : u = t
      · simp [hu, hmu, h.owned]
      · simp [hu, hmu, h.owned]
  · simp only [osMutexAcquire, Mem.recordLock_thread, Mem.setThread_thread, Mem.setMutex_thread,
      Function.update_apply]
    split
    case isTrue => exact List.nodup_append.mpr ⟨h.nodup t, List.nodup_singleton mu, by
      intro a ha b hb he
      rw [List.mem_singleton.mp hb] at he
      exact hnot t (he ▸ ha)⟩
    case isFalse => exact h.nodup u

omit [DecidableEq T] [DecidableEq Q] in
theorem OwnerInv.disown (h : OwnerInv m) : OwnerInv (osMutexDisown m mu) := by
  refine ⟨fun u mu' => ?_, fun u => (h.nodup u).erase mu⟩
  simp only [osMutexDisown, Mem.setMutex_thread, Mem.setMutex_mutex, Mem.unlinkOwner_thread,
    Function.update_apply, (h.nodup u).mem_erase_iff]
  split
  case isTrue he => simp [he]
  case isFalse he => simp [he, h.owned]

end

/-! ## A step of a call -/

section
variable {port : Port} {c : Caller T N} {m m' : Mem T M Q} {p p' : Pc T M Q} {t : T} {mu : M}

theorem Effect.queues (he : Effect port c m p m' p') (h : QueueInv m)
    (hown : ∀ t q, c = .thread t → (m.thread t).waitQ = some q → p.waitsOn = some q)
    (hzero : ∀ mu, p = .deinitZero mu → m.queue (.mutex mu) = []) : QueueInv m' := by
  have hfree {t} (hc : c = .thread t) (hp : p.waitsOn = none) : (m.thread t).waitQ = none := by
    rw [Option.eq_none_iff_forall_ne_some]
    intro q hq
    rw [hown t q hc hq] at hp
    cases hp
  cases he with
  | same hs => exact h.same hs.sync
  | delete => exact h.same .vTaskDelete
  | refuse => exact h.same .forget
  | acquire hc =>
    refine h.congr rfl (fun u => ?_) (fun u => ?_) fun u _ => ?_
    all_goals
      simp only [osMutexAcquire, Mem.recordLock_thread, Mem.setThread_thread,
        Mem.setMutex_thread, Mem.forget_thread, Function.update_apply]
      split
      case isTrue he => rw [he]
      case isFalse => rfl
  | recurse | unlockNested | deinit =>
    exact h.congr rfl (fun _ => rfl) (fun _ => rfl) fun _ _ => rfl
  | @enqueue t mu _ _ _ hc => exact (h.mutexLink (hfree hc rfl) mu).updatePiChain port _
  | @abandon t => exact (h.mutexUnlink t).updatePiChain port _
  | awake hc hw => exact h.setThread hw hw rfl
  | @release t mu =>
    exact ((h.disown mu).mutexWakeHead.updatePiChain port _).same .recordUnlock
  | @zero mu =>
    refine h.congr ?_ (fun _ => rfl) (fun _ => rfl) fun _ _ => rfl
    funext q
    rw [osMutexDeinitZero, Mem.setQueue_queue, Function.update_apply]
    split
    case isTrue he => rw [he, hzero mu rfl]
    case isFalse => rfl
  | @block t q _ hc =>
    have hnone := hfree hc rfl
    refine (h.same .forget).insert hnone rfl (fun mu => ?_) rfl
    simp only [reduceCtorEq, iff_false]
    rw [h.waiting, hnone]
    exact fun he => by cases he
  | @unblock t q _ _ _ _ hc hw =>
    obtain ⟨q', hq'⟩ := Option.ne_none_iff_exists'.mp hw
    cases hown t q' hc hq'
    exact h.unlink rfl (h.not_waiting_of_plain hq')
  | wakeOne => exact h.waitqWakeHead
  | wakeAll => exact wakeAll_induction h fun _ h => h.waitqWakeHead
  | setPriority => exact h.setPriority
  | abortWaiting => exact h.abortWaiting
  | exit hc =>
    have hnone := hfree hc rfl
    exact h.setThread hnone hnone (h.not_waiting_of_none hnone)

/-- What a step at `p` does to the mutexes and their owners' lists. -/
inductive OwnerChange (m : Mem T M Q) (p : Pc T M Q) (m' : Mem T M Q) : Prop
  | same (h : SameOwners m m')
  | setMutex {mu : M} {v : OsMutex T} (ht : m'.thread = m.thread)
    (hm : m'.mutex = Function.update m.mutex mu v) (hv : v.owner = (m.mutex mu).owner)
  | zero {mu : M} (hp : p = .deinitZero mu) (hm : m' = osMutexDeinitZero m mu)
  | acquire {m₁ : Mem T M Q} {t : T} {mu : M} (h : SameOwners m m₁)
    (ho : (m₁.mutex mu).owner = none) (hm : m' = osMutexAcquire m₁ t mu)
  | disown {mu : M} (h : SameOwners (osMutexDisown m mu) m')

/-- A step acquires a free mutex, changes the count or the initialized flag of one, releases or
clears one, or leaves the owners alone. -/
theorem Effect.ownerChange (he : Effect port c m p m' p') : OwnerChange m p m' := by
  cases he with
  | same hs => exact .same (Leaves.same hs.sync).toSameOwners
  | delete => exact .same (Leaves.same .vTaskDelete).toSameOwners
  | refuse => exact .same (Leaves.same .forget).toSameOwners
  | acquire hc ho => exact .acquire (Leaves.same .forget).toSameOwners ho rfl
  | recurse | unlockNested | deinit => exact .setMutex rfl rfl rfl
  | @enqueue t mu =>
    have hlink : SameOwners m (osMutexLink (m.forget t) t mu) := .setThread rfl rfl rfl rfl
    exact .same (hlink.trans Leaves.updatePiChain.toSameOwners)
  | abandon => exact .same (Leaves.mutexUnlink.trans .updatePiChain).toSameOwners
  | awake | block | exit => exact .same (.setThread rfl rfl rfl rfl)
  | release =>
    exact .disown
      ((Leaves.mutexWakeHead.trans .updatePiChain).trans (.same .recordUnlock)).toSameOwners
  | zero => exact .zero rfl rfl
  | unblock => exact .same Leaves.blockUnlink.toSameOwners
  | wakeOne => exact .same Leaves.waitqWakeHead.toSameOwners
  | wakeAll => exact .same Leaves.waitqWakeAll.toSameOwners
  | setPriority => exact .same Leaves.setPriority.toSameOwners
  | abortWaiting => exact .same (Leaves.abortDequeue.trans .abortMark).toSameOwners

theorem Effect.owners (he : Effect port c m p m' p') (h : OwnerInv m)
    (hzero : ∀ mu, p = .deinitZero mu → (m.mutex mu).owner = none) : OwnerInv m' := by
  cases he.ownerChange with
  | same hs => exact h.same hs
  | setMutex ht hm hv => exact h.setMutex ht hm hv
  | zero hp hm =>
    subst hm
    exact h.setMutex rfl rfl (hzero _ hp).symm
  | acquire hs ho hm =>
    subst hm
    exact (h.same hs).acquire ho
  | disown hs => exact h.disown.same hs

/-- A step takes threads off the wait queues, where the caller stays on one only if its call goes
on waiting there, or it puts the caller on the wait queue that its call comes to wait on. -/
theorem Effect.waits (he : Effect port c m p m' p') :
    (∀ u q, (m'.thread u).waitQ = some q → (m.thread u).waitQ = some q) ∧
      (p.waitsOn = none ∨ p'.waitsOn = p.waitsOn ∨
        ∀ t, c = .thread t → (m'.thread t).waitQ = none) ∨
    ∃ t q, c = .thread t ∧ p'.waitsOn = some q ∧ m'.mutex = m.mutex ∧
      (∀ mu, q = .mutex mu → p.locking = some mu ∧ (m.mutex mu).owner ≠ none ∧
        osMutexWouldDeadlockLocked m t mu = false) ∧
      ∀ u, (m'.thread u).waitQ = if u = t then some q else (m.thread u).waitQ := by
  -- the branches that take the caller off its wait queue
  have hleave {t} (hc : c = .thread t) (hl : Leaves m m') (ht : (m'.thread t).waitQ = none) :
      (∀ u q, (m'.thread u).waitQ = some q → (m.thread u).waitQ = some q) ∧
        (p.waitsOn = none ∨ p'.waitsOn = p.waitsOn ∨
          ∀ t, c = .thread t → (m'.thread t).waitQ = none) :=
    ⟨hl.waitQ, .inr (.inr fun u hu => by cases hc.symm.trans hu; exact ht)⟩
  cases he with
  | same hs =>
    refine .inl ⟨(Leaves.same hs.sync).waitQ, .inr (hs.waitsOn.imp_right fun hp t ht => ?_)⟩
    rw [hs.sync.waitQ, hp.2 t (by rw [ht]; rfl)]
  | delete ht =>
    refine .inl ⟨fun _ _ => id, .inl ?_⟩
    obtain rfl | ⟨rfl, -⟩ := ht <;> rfl
  | refuse => exact .inl ⟨fun _ _ => id, .inl rfl⟩
  | @acquire t mu =>
    refine .inl ⟨fun u q hu => ?_, .inl rfl⟩
    simp only [osMutexAcquire, Mem.recordLock_thread, Mem.setThread_thread, Mem.setMutex_thread,
      Mem.forget_thread, Function.update_apply] at hu
    split at hu
    case isTrue he => rw [he, ← hu]
    case isFalse => exact hu
  | recurse | unlockNested | deinit | zero => exact .inl ⟨fun _ _ => id, .inl rfl⟩
  | enqueue hc ho hd =>
    refine .inr ⟨_, _, hc, rfl, updatePiChain_mutex,
      (fun mu he => by cases he; exact ⟨rfl, ho, hd⟩), fun u => ?_⟩
    simp only [osMutexEnqueue, updatePiChain_thread, osMutexLink, osWaitqInsertPriorityLocked,
      Mem.setQueue_thread, Mem.setThread_thread, Mem.forget_thread, Function.update_apply]
    split <;> rfl
  | abandon hc =>
    refine .inl (hleave hc (Leaves.mutexUnlink.trans .updatePiChain) ?_)
    simp [osMutexAbandon, osMutexUnlink]
  | awake hc hw =>
    exact .inl (hleave hc (.setThread rfl rfl rfl rfl (.inr rfl)) (by simp [hw]))
  | @release t mu =>
    refine .inl ⟨fun u q hu => ?_, .inl rfl⟩
    simp only [osMutexRelease, Mem.recordUnlock_thread, updatePiChain_thread] at hu
    exact (Leaves.mutexWakeHead (m := osMutexDisown m mu)).waitQ u q hu
  | block hc =>
    refine .inr ⟨_, _, hc, rfl, rfl, (fun mu he => by cases he), fun u => ?_⟩
    simp only [osWaitqBlockEnqueue, osWaitqInsertPriorityLocked,
      Mem.setQueue_thread, Mem.setThread_thread, Mem.forget_thread, Function.update_apply]
    split <;> rfl
  | unblock hc => exact .inl (hleave hc .blockUnlink (by simp [osWaitqBlockUnlink]))
  | wakeOne => exact .inl ⟨Leaves.waitqWakeHead.waitQ, .inl rfl⟩
  | wakeAll => exact .inl ⟨Leaves.waitqWakeAll.waitQ, .inl rfl⟩
  | setPriority => exact .inl ⟨Leaves.setPriority.waitQ, .inl rfl⟩
  | abortWaiting => exact .inl ⟨(Leaves.abortDequeue.trans .abortMark).waitQ, .inl rfl⟩
  | @exit t =>
    have hl : Leaves m (m.setThread t
        { m.thread t with toOsThread := (m.thread t).entryComplete, state := .terminated }) :=
      .setThread rfl rfl rfl rfl (.inr rfl)
    exact .inl ⟨hl.waitQ, .inl rfl⟩

end

/-! ## The mutexes -/

/-- The mutexes and the record of their locks and unlocks stay. -/
structure SameCounts (m m' : Mem T M Q) : Prop where
  mutex : m'.mutex = m.mutex
  locks : m'.hist.locks = m.hist.locks
  unlocks : m'.hist.unlocks = m.hist.unlocks

/-- What a step of a context that goes from `p` to `p'` does to the mutexes and to the record of
their locks and unlocks. -/
inductive MutexChange (c : Caller T N) (m m' : Mem T M Q) (p p' : Pc T M Q) : Prop
  | same (h : SameCounts m m')
  | acquire {t : T} {mu : M} (hc : c = .thread t) (hp : p.locking = some mu)
    (hw : p.waitsOn = none) (ho : (m.mutex mu).owner = none)
    (h : SameCounts
      ((m.setMutex mu { m.mutex mu with owner := some t, lockCount := 1 }).recordLock t mu) m')
  | recurse {t : T} {mu : M} {timeout : UInt32} {start : Nat} (hc : c = .thread t)
    (hp : p = .lockTry mu timeout start) (ho : (m.mutex mu).owner = some t)
    (h : SameCounts
      ((m.setMutex mu { m.mutex mu with lockCount := (m.mutex mu).lockCount + 1 }).recordLock
        t mu) m')
  | unlockNested {t : T} {mu : M} (hc : c = .thread t) (ho : (m.mutex mu).owner = some t)
    (hgt : (m.mutex mu).lockCount - 1 > 0)
    (h : SameCounts
      ((m.setMutex mu { m.mutex mu with lockCount := (m.mutex mu).lockCount - 1 }).recordUnlock
        t mu) m')
  | release {t : T} {mu : M} (hc : c = .thread t) (ho : (m.mutex mu).owner = some t)
    (hn : (m.mutex mu).lockCount ≠ 0) (hgt : ¬ (m.mutex mu).lockCount - 1 > 0)
    (hm : ∃ port, m' = (osMutexRelease port m t mu).recordUnlock t mu)
    (h : SameCounts
      ((m.setMutex mu { m.mutex mu with owner := none, lockCount := 0 }).recordUnlock t mu) m')
  | deinit {mu : M} (hp : p = .deinitLock mu) (hp' : p' = .deinitZero mu)
    (ho : (m.mutex mu).owner = none) (hq : m.queue (.mutex mu) = [])
    (h : SameCounts (m.setMutex mu { m.mutex mu with initialized := false }) m')
  | zero {mu : M} (hp : p = .deinitZero mu)
    (h : SameCounts (m.setMutex mu (osMutexZero false)) m')

variable [DecidableEq N]

section
variable {port : Port} {c : Caller T N} {m m' m'' : Mem T M Q} {p p' : Pc T M Q} {t : T} {mu : M}

namespace SameCounts

omit [DecidableEq T] [DecidableEq M] [DecidableEq Q] in
theorem refl (m : Mem T M Q) : SameCounts m m := ⟨rfl, rfl, rfl⟩

omit [DecidableEq T] [DecidableEq M] [DecidableEq Q] in
theorem trans (h : SameCounts m m') (h' : SameCounts m' m'') : SameCounts m m'' :=
  ⟨h'.mutex.trans h.mutex, h'.locks.trans h.locks, h'.unlocks.trans h.unlocks⟩

theorem updatePiChain (port : Port) (start : Option T) :
    SameCounts m (osMutexUpdatePiChainLocked port m start) :=
  ⟨updatePiChain_mutex, by rw [updatePiChain_hist], by rw [updatePiChain_hist]⟩

omit [DecidableEq M] [DecidableEq Q] in
/-- The thread that has left a wait queue is notified. -/
theorem notify {value : UInt32} {r : Removal M Q} (h : SameCounts m m') :
    SameCounts m ((osWaitqNotifyThreadLocked m' t value).remove t r) := by
  rw [osWaitqNotifyThreadLocked]
  split <;> exact ⟨h.mutex, h.locks, h.unlocks⟩

theorem mutexWakeHead : SameCounts m (osMutexWakeHead m mu) := by
  rw [osMutexWakeHead]
  split
  case h_1 => exact refl m
  case h_2 => exact notify ⟨rfl, rfl, rfl⟩

theorem waitqWakeHead {q : Q} {reason : UInt32} : SameCounts m (osWaitqWakeHead m q reason) := by
  rw [osWaitqWakeHead]
  split
  case h_1 => exact refl m
  case h_2 => exact notify ⟨rfl, rfl, rfl⟩

omit [DecidableEq Q] in
theorem recordUnlock (h : SameCounts m m') :
    SameCounts (m.recordUnlock t mu) (m'.recordUnlock t mu) :=
  ⟨h.mutex, h.locks, by simp only [Mem.recordUnlock, h.unlocks]⟩

theorem setPriority {priority : Int} :
    SameCounts m (osThreadSetPriorityCritical port m t priority) := by
  have hwalk := updatePiChain port (some t)
    (m := m.setThread t { m.thread t with basePriority := priority })
  rw [osThreadSetPriorityCritical]
  dsimp only
  split
  all_goals exact ⟨hwalk.mutex, hwalk.locks, hwalk.unlocks⟩

end SameCounts

/-- The next step is a critical section of `mutex.c` that may change a mutex. -/
def Pc.changesMutex : Pc T M Q → Bool
  | .lockTry .. | .unlockLock _ | .deinitLock _ | .deinitZero _ => true
  | _ => false

omit [DecidableEq N] in
theorem Effect.sameCounts (he : Effect port c m p m' p') (hp : p.changesMutex = false) :
    SameCounts m m' := by
  cases he with
  | same hs => exact ⟨hs.sync.mutex, by rw [hs.hist], by rw [hs.hist]⟩
  | refuse | acquire | recurse | enqueue | unlockNested | release | deinit | zero => cases hp
  | delete | awake | block | unblock | exit => exact ⟨rfl, rfl, rfl⟩
  | @abandon t =>
    have hunlink : SameCounts m (osMutexUnlink m t) := ⟨rfl, rfl, rfl⟩
    exact hunlink.trans (.updatePiChain port _)
  | wakeOne => exact .waitqWakeHead
  | wakeAll => exact wakeAll_induction (.refl m) fun _ h => h.trans .waitqWakeHead
  | setPriority => exact .setPriority
  | @abortWaiting t =>
    have hunlink : SameCounts m (osThreadAbortUnlink m t) := ⟨rfl, rfl, rfl⟩
    have hdequeue := hunlink.trans (.updatePiChain port
      ((m.thread t).waitingMutex.bind fun mu => (m.mutex mu).owner))
    exact ⟨hdequeue.mutex, hdequeue.locks, hdequeue.unlocks⟩

theorem SameCounts.enqueue : SameCounts m (osMutexEnqueue port (m.forget t) t mu) := by
  have hlink : SameCounts m (osMutexLink (m.forget t) t mu) := ⟨rfl, rfl, rfl⟩
  exact hlink.trans (.updatePiChain port _)

theorem SameCounts.release :
    SameCounts (m.setMutex mu { m.mutex mu with owner := none, lockCount := 0 })
      (osMutexRelease port m t mu) := by
  have hdisown : SameCounts (m.setMutex mu { m.mutex mu with owner := none, lockCount := 0 })
    (osMutexDisown m mu) := ⟨rfl, rfl, rfl⟩
  exact (hdisown.trans .mutexWakeHead).trans (.updatePiChain port _)

omit [DecidableEq N] in
theorem Effect.mutexes (he : Effect port c m p m' p') : MutexChange c m m' p p' := by
  cases hp : p.changesMutex with
  | false => exact .same (he.sameCounts hp)
  | true =>
    cases he with
    | same hs => exact .same ⟨hs.sync.mutex, by rw [hs.hist], by rw [hs.hist]⟩
    | delete | refuse => exact .same ⟨rfl, rfl, rfl⟩
    | acquire hc ho => exact .acquire hc rfl rfl ho ⟨rfl, rfl, rfl⟩
    | recurse hc ho => exact .recurse hc rfl ho ⟨rfl, rfl, rfl⟩
    | enqueue => exact .same .enqueue
    | unlockNested hc ho _ hgt => exact .unlockNested hc ho hgt ⟨rfl, rfl, rfl⟩
    | release hc ho hn hgt =>
      exact .release hc ho hn hgt ⟨port, rfl⟩ SameCounts.release.recordUnlock
    | deinit ho hq => exact .deinit rfl rfl ho hq ⟨rfl, rfl, rfl⟩
    | zero => exact .zero rfl ⟨rfl, rfl, rfl⟩
    | abandon | awake | block | unblock | wakeOne | wakeAll | setPriority | abortWaiting | exit =>
      cases hp

omit [DecidableEq T] [DecidableEq Q] in
/-- An update of a mutex that gives it no owner gives none to any. -/
private theorem setMutex_owner {v : OsMutex T} {mu' : M}
    (hv : v.owner = none ∨ v.owner = (m.mutex mu').owner)
    (ho : ((m.setMutex mu' v).mutex mu).owner = some t) : (m.mutex mu).owner = some t := by
  rw [Mem.setMutex_mutex, Function.update_apply] at ho
  split at ho
  case isTrue he =>
    rcases hv with hv | hv
    · rw [hv] at ho; cases ho
    · rw [he, ← hv, ho]
  case isFalse => exact ho

omit [DecidableEq N] in
/-- A mutex gets an owner only if a call of `os_mutex_lock` finds it free. -/
theorem MutexChange.owner (h : MutexChange c m m' p p') (ho : (m'.mutex mu).owner = some t) :
    (m.mutex mu).owner = some t ∨
      c = .thread t ∧ p.locking = some mu ∧ p.waitsOn = none ∧ (m.mutex mu).owner = none := by
  cases h with
  | same h => exact .inl (by rwa [h.mutex] at ho)
  | acquire hc hp hw hf h =>
    rw [h.mutex, Mem.recordLock_mutex, Mem.setMutex_mutex, Function.update_apply] at ho
    split at ho
    case isTrue he => cases ho; exact .inr ⟨hc, he ▸ hp, hw, he ▸ hf⟩
    case isFalse => exact .inl ho
  | recurse _ _ _ h | unlockNested _ _ _ h | deinit _ _ _ _ h =>
    rw [h.mutex] at ho
    refine .inl (setMutex_owner ?_ ho)
    exact .inr rfl
  | release _ _ _ _ _ h | zero _ h =>
    rw [h.mutex] at ho
    refine .inl (setMutex_owner ?_ ho)
    exact .inl rfl

omit [DecidableEq T] [DecidableEq Q] in
/-- An update of a mutex that keeps its flag keeps those of all. -/
private theorem setMutex_initialized {v : OsMutex T} {mu' : M}
    (hv : v.initialized = (m.mutex mu').initialized) :
    ((m.setMutex mu' v).mutex mu).initialized = (m.mutex mu).initialized := by
  rw [Mem.setMutex_mutex, Function.update_apply]
  split
  case isTrue he => rw [he, hv]
  case isFalse => rfl

section
omit [DecidableEq N]

/-- The critical section of `os_mutex_deinit`, or its `memset`. -/
theorem MutexChange.initialized (h : MutexChange c m m' p p') (mu : M) :
    (m'.mutex mu).initialized = (m.mutex mu).initialized ∨
      (m'.mutex mu).initialized = false ∧ (p = .deinitZero mu ∨
        p = .deinitLock mu ∧ p' = .deinitZero mu ∧ (m.mutex mu).owner = none ∧
          m.queue (.mutex mu) = []) := by
  cases h with
  | same h => exact .inl (by rw [h.mutex])
  | acquire _ _ _ _ h | recurse _ _ _ h | unlockNested _ _ _ h | release _ _ _ _ _ h =>
    rw [h.mutex]
    exact .inl (setMutex_initialized rfl)
  | @deinit mu' hp hp' ho hq h =>
    rw [h.mutex, Mem.setMutex_mutex, Function.update_apply]
    split
    case isTrue he => subst he; exact .inr ⟨rfl, .inr ⟨hp, hp', ho, hq⟩⟩
    case isFalse => exact .inl rfl
  | @zero mu' hp h =>
    rw [h.mutex, Mem.setMutex_mutex, Function.update_apply]
    split
    case isTrue he => subst he; exact .inr ⟨rfl, .inl hp⟩
    case isFalse => exact .inl rfl

/-- A call goes on only with a mutex that it has found initialized. -/
theorem Effect.locking (he : Effect port c m p m' p') (hp : p'.locking = some mu) :
    p.locking = some mu ∨ (m.mutex mu).initialized = true := by
  cases he with
  | same hs =>
    rcases hs.locking with hl | hl | ⟨mu', hl, hi⟩
    · rw [hl] at hp; cases hp
    · exact .inl (hl ▸ hp)
    · cases hl.symm.trans hp; exact .inr hi
  | enqueue | awake => exact .inl hp
  | delete _ _ hl | abortWaiting _ _ _ hl => rw [hl] at hp; cases hp
  | _ => cases hp

/-- `os_mutex_deinit` comes to its `memset` from its critical section only. -/
theorem Effect.zeroing (he : Effect port c m p m' p') (hp : p' = .deinitZero mu) :
    (m'.mutex mu).initialized = false := by
  subst hp
  cases he with
  | same hs => cases hs.zeroing
  | delete _ _ _ hz | abortWaiting _ _ _ _ hz => cases hz
  | deinit => simp

theorem Effect.handle (he : Effect port c m p m' p') (u : T) :
    (m'.thread u).handle = (m.thread u).handle := by
  cases he with
  | same hs => exact hs.sync.handle u
  | delete | refuse => rfl
  | @acquire t mu =>
    simp only [osMutexAcquire, Mem.recordLock_thread, Mem.setThread_thread, Mem.setMutex_thread,
      Mem.forget_thread, Function.update_apply]
    split
    case isTrue he => rw [he]
    case isFalse => rfl
  | recurse | unlockNested | deinit | zero => rfl
  | @enqueue t mu =>
    have hlink : SameOwners m (osMutexLink (m.forget t) t mu) := .setThread rfl rfl rfl rfl
    exact (hlink.trans Leaves.updatePiChain.toSameOwners).handle u
  | abandon => exact (Leaves.mutexUnlink.trans .updatePiChain).handle u
  | @awake t =>
    have hthread : SameOwners m
        (m.setThread t { m.thread t with state := .ready, waitingMutex := none }) :=
      .setThread rfl rfl rfl rfl
    exact hthread.handle u
  | @release t mu =>
    have hwake : Leaves (osMutexDisown m mu) (osMutexRelease port m t mu) :=
      Leaves.mutexWakeHead.trans .updatePiChain
    exact hwake.handle u
  | @block t q =>
    have hthread : SameOwners m (osWaitqBlockEnqueue m t q) := .setThread rfl rfl rfl rfl
    exact hthread.handle u
  | unblock => exact Leaves.blockUnlink.handle u
  | wakeOne => exact Leaves.waitqWakeHead.handle u
  | wakeAll => exact Leaves.waitqWakeAll.handle u
  | setPriority => exact Leaves.setPriority.handle u
  | abortWaiting => exact (Leaves.abortDequeue.trans .abortMark).handle u
  | @exit t =>
    have hthread : SameOwners m (m.setThread t
        { m.thread t with toOsThread := (m.thread t).entryComplete, state := .terminated }) :=
      .setThread rfl rfl rfl rfl
    exact hthread.handle u

end

/-- The native tasks and the clock stay. -/
structure SameTasks (m m' : Mem T M Q) : Prop where
  deleted : m'.deleted = m.deleted
  tick : m'.tick = m.tick

namespace SameTasks

omit [DecidableEq T] [DecidableEq M] [DecidableEq Q] in
theorem refl (m : Mem T M Q) : SameTasks m m := ⟨rfl, rfl⟩

omit [DecidableEq T] [DecidableEq M] [DecidableEq Q] in
theorem trans {m'' : Mem T M Q} (h : SameTasks m m') (h' : SameTasks m' m'') : SameTasks m m'' :=
  ⟨h'.deleted.trans h.deleted, h'.tick.trans h.tick⟩

omit [DecidableEq M] [DecidableEq Q] in
/-- The thread that has left a wait queue is notified. -/
theorem notify {value : UInt32} {r : Removal M Q} (h : SameTasks m m') :
    SameTasks m ((osWaitqNotifyThreadLocked m' t value).remove t r) := by
  rw [osWaitqNotifyThreadLocked]
  split <;> exact ⟨h.deleted, h.tick⟩

theorem mutexWakeHead : SameTasks m (osMutexWakeHead m mu) := by
  rw [osMutexWakeHead]
  split
  case h_1 => exact refl m
  case h_2 => exact notify ⟨rfl, rfl⟩

theorem waitqWakeHead {q : Q} {reason : UInt32} : SameTasks m (osWaitqWakeHead m q reason) := by
  rw [osWaitqWakeHead]
  split
  case h_1 => exact refl m
  case h_2 => exact notify ⟨rfl, rfl⟩

theorem updatePiChain {start : Option T} :
    SameTasks m (osMutexUpdatePiChainLocked port m start) :=
  ⟨updatePiChain_deleted, updatePiChain_tick⟩

theorem release : SameTasks m (osMutexRelease port m t mu) := by
  have hdisown : SameTasks m (osMutexDisown m mu) := ⟨rfl, rfl⟩
  exact (hdisown.trans .mutexWakeHead).trans .updatePiChain

theorem setPriority {priority : Int} :
    SameTasks m (osThreadSetPriorityCritical port m t priority) := by
  rw [osThreadSetPriorityCritical]
  dsimp only
  split
  all_goals exact ⟨updatePiChain_deleted, updatePiChain_tick⟩

end SameTasks

omit [DecidableEq N] in
/-- The tasks that a step deletes are that of `os_thread_abort`, or the caller's own. -/
theorem Effect.tasks (he : Effect port c m p m' p') : SameTasks m m' ∨
    ∃ t, (p = .abortDelete t ∨ p = .exitDelete ∧ c = .thread t) ∧ m' = m.vTaskDelete t := by
  cases he with
  | same hs => exact .inl ⟨hs.deleted, hs.tick⟩
  | delete ht => exact .inr ⟨_, ht, rfl⟩
  | refuse | acquire | recurse | awake | unlockNested | deinit | zero | block | unblock | exit =>
    exact .inl ⟨rfl, rfl⟩
  | enqueue | abandon | abortWaiting => exact .inl ⟨updatePiChain_deleted, updatePiChain_tick⟩
  | @release t mu =>
    have hrelease : SameTasks m (osMutexRelease port m t mu) := .release
    exact .inl ⟨hrelease.deleted, hrelease.tick⟩
  | wakeOne => exact .inl .waitqWakeHead
  | wakeAll => exact .inl (wakeAll_induction (.refl m) fun _ h => h.trans .waitqWakeHead)
  | setPriority => exact .inl .setPriority

omit [DecidableEq N] in
/-- The steps of a call take no time. -/
theorem Effect.tick (he : Effect port c m p m' p') : m'.tick = m.tick := by
  rcases he.tasks with hsame | ⟨t, -, hdel⟩
  · exact hsame.tick
  · rw [hdel, Mem.vTaskDelete_tick]

omit [DecidableEq N] in
/-- A deleted task stays deleted. -/
theorem Effect.alive (he : Effect port c m p m' p') {u : T} (hd : m'.deleted u = false) :
    m.deleted u = false := by
  rcases he.tasks with hsame | ⟨t, -, hdel⟩
  · rwa [hsame.deleted] at hd
  · rw [hdel, Mem.vTaskDelete_deleted, Function.update_apply] at hd
    split at hd
    · cases hd
    · exact hd

end

/-! ## The whole system -/

section
variable {port : Port} {prio : T → Int} {s s' : State T M Q N} {a : Act T M Q N}

/-- `os_mutex_deinit` does not take effect while a thread is in `os_mutex_lock` of the mutex and
not on its wait queue: one that `os_mutex_unlock` or `os_thread_abort` has removed and that has yet
to try again, or one that has yet to try for the first time. -/
def SafeDeinit (s : State T M Q N) (a : Act T M Q N) : Prop :=
  ∀ c mu, a = .step c → s.call c = .deinitLock mu → (s.mem.mutex mu).owner = none →
    s.mem.queue (.mutex mu) = [] → ∀ t, s.mem.deleted t = false →
      (s.call (.thread t)).locking = some mu → (s.mem.thread t).waitQ ≠ none

/-- The action is not the critical section of `os_mutex_deinit`. -/
def noDeinit (s : State T M Q N) : Act T M Q N → Bool
  | .step c =>
    match s.call c with
    | .deinitLock _ => false
    | _ => true
  | _ => true

section
omit [DecidableEq T] [DecidableEq M] [DecidableEq Q] [DecidableEq N]

theorem SafeDeinit.of_noDeinit (h : noDeinit s a = true) : SafeDeinit s a := by
  rintro c mu rfl hc
  rw [noDeinit, hc] at h
  cases h

/-- The wait queues, the mutexes and the calls agree. -/
structure SyncInv (s : State T M Q N) : Prop where
  queues : QueueInv s.mem
  owners : OwnerInv s.mem
  handle : ∀ t, (s.mem.thread t).handle = true
  calls : ∀ t q, (s.mem.thread t).waitQ = some q → (s.call (.thread t)).waitsOn = some q
  idle : ∀ mu, (s.mem.mutex mu).initialized = false →
    (s.mem.mutex mu).owner = none ∧ ∀ t, (s.mem.thread t).waitQ ≠ some (.mutex mu)
  unused : ∀ mu, (s.mem.mutex mu).initialized = false → ∀ t, s.mem.deleted t = false →
    (s.call (.thread t)).locking ≠ some mu
  zeroing : ∀ c mu, s.call c = .deinitZero mu → (s.mem.mutex mu).initialized = false

/-- A thread whose call is not at a wait is on no wait queue. -/
theorem SyncInv.waitQ_eq_none (h : SyncInv s) {t : T} (hp : (s.call (.thread t)).waitsOn = none) :
    (s.mem.thread t).waitQ = none :=
  Option.eq_none_iff_forall_ne_some.mpr fun q hq => by cases (h.calls t q hq).symm.trans hp

theorem SyncInv.queue_nil (h : SyncInv s) {mu : M} (hi : (s.mem.mutex mu).initialized = false) :
    s.mem.queue (.mutex mu) = [] :=
  List.eq_nil_iff_forall_not_mem.mpr fun t ht => (h.idle mu hi).2 t ((h.queues.mem t _).mp ht)

theorem Init.syncInv (h : Init port prio s) : SyncInv s := by
  have hwait (t) : (s.mem.thread t).waitQ = none := by rw [h.thread]; rfl
  have hmutex (t) : (s.mem.thread t).waitingMutex = none := by rw [h.thread]; rfl
  have howned (t) : (s.mem.thread t).ownedMutexes = [] := by rw [h.thread]; rfl
  have howner (mu) : (s.mem.mutex mu).owner = none := by
    obtain ⟨_, hmu⟩ := h.mutex mu
    rw [hmu]; rfl
  constructor
  case queues =>
    refine ⟨⟨fun q => ?_, fun t q => ?_⟩, fun t mu => ?_, fun t ht => absurd (hwait t) ht⟩
    · rw [h.queue]; exact .nil
    · simp [h.queue, hwait]
    · simp [hwait, hmutex]
  case owners =>
    refine ⟨fun t mu => ?_, fun t => ?_⟩
    · simp [howned, howner]
    · rw [howned]; exact .nil
  case handle => intro t; rw [h.thread]; rfl
  case calls => intro t q hq; rw [hwait] at hq; cases hq
  case idle => exact fun mu _ => ⟨howner mu, fun t ht => by rw [hwait] at ht; cases ht⟩
  case unused => intro mu _ t _ ht; rw [h.call] at ht; cases ht
  case zeroing => intro c mu hc; rw [h.call] at hc; cases hc

theorem Pc.waitsOn_of_locking {p : Pc T M Q} {mu : M} {q : WaitQ M Q} (hl : p.locking = some mu)
    (hw : p.waitsOn = some q) : q = .mutex mu := by
  cases p <;> cases hl <;> cases hw
  all_goals rfl

theorem SafeDeinit.excludes {c : Caller T N} {mu : M} (hok : SafeDeinit s (.step c)) (h : SyncInv s)
    (hc : s.call c = .deinitLock mu) (ho : (s.mem.mutex mu).owner = none)
    (hq : s.mem.queue (.mutex mu) = []) {t : T} (hd : s.mem.deleted t = false) :
    (s.call (.thread t)).locking ≠ some mu := by
  intro hl
  obtain ⟨q, hw⟩ := Option.ne_none_iff_exists'.mp (hok c mu rfl hc ho hq t hd hl)
  have ht := (h.queues.mem t q).mpr hw
  rw [Pc.waitsOn_of_locking hl (h.calls t q hw), hq] at ht
  cases ht

end

section
variable {c : Caller T N} {m' : Mem T M Q} {p' : Pc T M Q} {mu : M}

omit [DecidableEq N] in
/-- Nobody uses a mutex that the step leaves uninitialized. -/
private theorem SyncInv.unused_of_step (h : SyncInv s) (hok : SafeDeinit s (.step c))
    (hmu : MutexChange c s.mem m' (s.call c) p') (hi : (m'.mutex mu).initialized = false) :
    (s.mem.mutex mu).owner = none ∧ (∀ t, (s.mem.thread t).waitQ ≠ some (.mutex mu)) ∧
      ∀ t, s.mem.deleted t = false → (s.call (.thread t)).locking ≠ some mu := by
  rcases hmu.initialized mu with he | ⟨-, hp | ⟨hp, -, ho, hq⟩⟩
  · rw [he] at hi
    exact ⟨(h.idle mu hi).1, (h.idle mu hi).2, h.unused mu hi⟩
  · have hi := h.zeroing c mu hp
    exact ⟨(h.idle mu hi).1, (h.idle mu hi).2, h.unused mu hi⟩
  · refine ⟨ho, fun t ht => ?_, fun t => hok.excludes h hp ho hq⟩
    have hmem := (h.queues.mem t _).mpr ht
    rw [hq] at hmem
    cases hmem

/-- A step of a call keeps the invariant. -/
theorem SyncInv.callStep (h : SyncInv s) (hok : SafeDeinit s (.step c)) (ha : s.alive c)
    (he : Effect port c s.mem (s.call c) m' p') : SyncInv (s.setCall c m' p') := by
  have hmu := he.mutexes
  have hlive {t} (hc : c = .thread t) : s.mem.deleted t = false := by
    subst hc
    simpa [State.alive, Caller.current] using ha
  constructor
  case queues =>
    refine he.queues h.queues (fun t q hc ht => hc ▸ h.calls t q ht) fun mu hp => ?_
    exact h.queue_nil (h.zeroing c mu hp)
  case owners =>
    exact he.owners h.owners fun mu hp => (h.idle mu (h.zeroing c mu hp)).1
  case handle => exact fun t => (he.handle t).trans (h.handle t)
  case calls =>
    intro t q ht
    rw [State.setCall_mem] at ht
    rw [State.setCall_call]
    rcases he.waits with ⟨hw, hp⟩ | ⟨u, q', hc, hp, -, -, hw⟩
    · have hcall := h.calls t q (hw t q ht)
      split
      case isTrue hc =>
        rw [hc] at hcall
        rcases hp with hp | hp | hp
        · rw [hp] at hcall; cases hcall
        · rw [hp, hcall]
        · rw [hp t hc.symm] at ht; cases ht
      case isFalse => exact hcall
    · rw [hw] at ht
      split at ht
      case isTrue hu => rw [if_pos (by rw [hu, hc]), hp, ht]
      case isFalse hu =>
        rw [if_neg fun hct => hu (Caller.thread.inj (hct.trans hc))]
        exact h.calls t q ht
  case idle =>
    intro mu hi
    obtain ⟨ho, hq, hl⟩ := h.unused_of_step hok hmu hi
    refine ⟨Option.eq_none_iff_forall_ne_some.mpr fun t ht => ?_, fun t ht => ?_⟩
    · rcases hmu.owner ht with ht | ⟨hc, hp, -⟩
      · rw [ho] at ht; cases ht
      · exact hl t (hlive hc) (hc ▸ hp)
    · rw [State.setCall_mem] at ht
      rcases he.waits with ⟨hw, -⟩ | ⟨u, q, hc, -, -, hp, hw⟩
      · exact hq t (hw t _ ht)
      · rw [hw] at ht
        split at ht
        case isTrue => cases ht; exact hl u (hlive hc) (hc ▸ (hp mu rfl).1)
        case isFalse => exact hq t ht
  case unused =>
    intro mu hi t hd hp
    obtain ⟨-, -, hl⟩ := h.unused_of_step hok hmu hi
    rw [State.setCall_call] at hp
    split at hp
    case isTrue hc =>
      rcases he.locking hp with hp' | hi'
      · exact hl t (hlive hc.symm) (hc ▸ hp')
      · rcases hmu.initialized mu with he | ⟨-, hz | ⟨-, hz, -⟩⟩
        · rw [State.setCall_mem, he, hi'] at hi; cases hi
        · rw [h.zeroing c mu hz] at hi'; cases hi'
        · rw [hz] at hp; cases hp
    case isFalse => exact hl t (he.alive hd) hp
  case zeroing =>
    intro d mu hd
    rw [State.setCall_call] at hd
    split at hd
    case isTrue => exact he.zeroing hd
    case isFalse =>
      have hi := h.zeroing d mu hd
      rcases hmu.initialized mu with he | ⟨he, -⟩
      · exact he.trans hi
      · exact he

omit [DecidableEq M] [DecidableEq Q] in
/-- A context moves on, and nothing else changes. -/
theorem SyncInv.move (h : SyncInv s) (hw : p'.waitsOn = (s.call c).waitsOn)
    (hl : p'.locking = none ∨ p'.locking = (s.call c).locking) (hz : p'.zeroing = none) :
    SyncInv (s.setCall c s.mem p') where
  queues := h.queues
  owners := h.owners
  handle := h.handle
  calls t q ht := by
    rw [State.setCall_call]
    split
    case isTrue hc => rw [hw, ← hc, h.calls t q ht]
    case isFalse => exact h.calls t q ht
  idle := h.idle
  unused mu hi t hd hp := by
    rw [State.setCall_call] at hp
    split at hp
    case isTrue hc =>
      rcases hl with hl | hl
      · rw [hl] at hp; cases hp
      · exact h.unused mu hi t hd (by rw [hc, ← hl, hp])
    case isFalse => exact h.unused mu hi t hd hp
  zeroing d mu hd := by
    rw [State.setCall_call] at hd
    split at hd
    case isTrue => rw [hd] at hz; cases hz
    case isFalse => exact h.zeroing d mu hd

end

omit [DecidableEq T] [DecidableEq M] [DecidableEq Q] in
/-- A call begins where the context is on no wait queue and past no check. -/
theorem Op.entry_pc (op : Op T M Q) :
    op.entry.waitsOn = none ∧ op.entry.locking = none ∧ op.entry.zeroing = none := by
  cases op <;> exact ⟨rfl, rfl, rfl⟩

omit [DecidableEq T] [DecidableEq M] [DecidableEq Q] in
theorem Pc.waitsOn_of_free {p : Pc T M Q} (h : p.free) : p.waitsOn = none := by
  cases p <;> first | rfl | cases h

omit [DecidableEq T] [DecidableEq M] [DecidableEq Q] [DecidableEq N] in
/-- A native wait that times out goes on to the second critical section. -/
theorem callExpire_cases {c : Caller T N} {m : Mem T M Q} {p p' : Pc T M Q}
    (h : callExpire c m p = some p') :
    ∃ t expiry, c = .thread t ∧ m.notification t = none ∧ expiry ≤ m.tick ∧
      ((∃ mu timeout start, p = .lockWaiting mu timeout start (some expiry) ∧
        p' = .lockFinish mu timeout start false) ∨
      ∃ q timeout began, p = .blockWaiting q timeout began (some expiry) ∧
        p' = .blockFinish q timeout began false 0) := by
  cases p with
  | lockWaiting mu timeout start expiry | blockWaiting q timeout start expiry =>
    cases expiry with
    | none => cases h
    | some expiry =>
      obtain ⟨t, hc, h⟩ := Option.bind_eq_some_iff.mp h
      split at h
      case isTrue hn =>
        cases h
        refine ⟨t, expiry, Caller.current_eq_some hc, hn.1, hn.2, ?_⟩
        first
          | exact .inl ⟨_, _, _, rfl, rfl⟩
          | exact .inr ⟨_, _, _, rfl, rfl⟩
      case isFalse => cases h
  | _ => cases h

omit [DecidableEq T] [DecidableEq M] [DecidableEq Q] [DecidableEq N] in
theorem callExpire_pc {c : Caller T N} {m : Mem T M Q} {p p' : Pc T M Q}
    (h : callExpire c m p = some p') :
    p'.waitsOn = p.waitsOn ∧ p'.locking = p.locking ∧ p'.zeroing = none := by
  obtain ⟨_, _, -, -, -, ⟨_, _, _, rfl, rfl⟩ | ⟨_, _, _, rfl, rfl⟩⟩ := callExpire_cases h
  all_goals exact ⟨rfl, rfl, rfl⟩

theorem SyncInv.step (h : SyncInv s) (hok : SafeDeinit s a) (hs : step port s a = some s') :
    SyncInv s' := by
  cases step_cases hs with
  | @call c op ha hf =>
    obtain ⟨hw, hl, hz⟩ := op.entry_pc
    exact h.move (hw.trans (Pc.waitsOn_of_free hf).symm) (.inl hl) hz
  | step ha hstep => exact h.callStep hok ha (callStep_effect hstep)
  | expire ha hexpire =>
    obtain ⟨hw, hl, hz⟩ := callExpire_pc hexpire
    exact h.move hw (.inr hl) hz
  | tick =>
    exact ⟨h.queues.same (.of_eq rfl rfl rfl rfl), h.owners.congr (fun _ => rfl) fun _ => rfl,
      h.handle, h.calls, h.idle, h.unused, h.zeroing⟩

/-- **The wait queues, the mutexes and the calls agree in every reachable state.** -/
theorem syncInv_of_reachable {ok : State T M Q N → Act T M Q N → Prop}
    (hok : ∀ s a, ok s a → SafeDeinit s a)
    (h : ReachableVia (system port prio : System (State T M Q N) _) ok s) : SyncInv s :=
  h.invariant (fun _ => Init.syncInv) fun _ _ _ _ hi ha hs => hi.step (hok _ _ ha) hs

end

end HazelOsal.FreeRtos
