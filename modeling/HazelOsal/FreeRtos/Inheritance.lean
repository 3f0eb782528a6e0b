import HazelOsal.FreeRtos.Deadlock
import HazelOsal.Library.Inheritance

/-! # Priority inheritance

Every thread inherits the priorities of those that wait for the mutexes it owns. An operation that
changes who waits for a thread starts `os_mutex_update_pi_chain_locked` at that thread, which
repairs one priority after another along the wait-for graph. The exception is the acquisition of a
free mutex that still has waiters (`NoBarging`). -/

namespace HazelOsal.FreeRtos

open Relation TransitionSystem

variable {T M Q N : Type} [DecidableEq T] [DecidableEq M] [DecidableEq Q] [DecidableEq N]

def Mem.base (m : Mem T M Q) (t : T) : Int := (m.thread t).basePriority

/-- The native priority, which `uxTaskPriorityGet` returns. -/
def Mem.native (m : Mem T M Q) (t : T) : Int := m.uxPriority t

/-- The priorities are inherited, except perhaps by one thread. -/
def PiExcept (m : Mem T M Q) (o : Option T) : Prop :=
  InheritsExcept (waitsFor m) m.base m.native o

/-- All priorities are ones that `vTaskPrioritySet` sets exactly. -/
structure Ranged (port : Port) (m : Mem T M Q) : Prop where
  base : ∀ t, 0 ≤ m.base t ∧ m.base t < port.maxPriorities
  native : ∀ t, m.native t < port.maxPriorities

/-- Who waits for whom is as the walk relies on. -/
structure GraphInv (m : Mem T M Q) : Prop where
  owners : OwnerInv m
  handle : ∀ t, (m.thread t).handle = true
  acyclic : Acyclic (waitsFor m)
  chains : ChainsAtMost (waitsFor m) OS_PI_MAX_CHAIN_DEPTH

/-- What the walk relies on. -/
structure WalkInv (port : Port) (m : Mem T M Q) : Prop extends GraphInv m where
  queues : QueueInv m
  ranged : Ranged port m

/-- Nobody waits for another one, and the base priorities stay. -/
structure SameGraph (m m' : Mem T M Q) : Prop where
  owner : ∀ mu, (m'.mutex mu).owner = (m.mutex mu).owner
  handle : ∀ t, (m'.thread t).handle = (m.thread t).handle
  waitingMutex : ∀ t, (m'.thread t).waitingMutex = (m.thread t).waitingMutex
  ownedMutexes : ∀ t, (m'.thread t).ownedMutexes = (m.thread t).ownedMutexes
  base : ∀ t, (m'.thread t).basePriority = (m.thread t).basePriority

section
variable {port : Port} {m m' : Mem T M Q} {t u : T} {mu : M} {o : Option T}

section
omit [DecidableEq T] [DecidableEq M] [DecidableEq Q]

theorem SameGraph.waitsFor (h : SameGraph m m') : waitsFor m' = waitsFor m := by
  funext t
  simp only [FreeRtos.waitsFor, h.waitingMutex, h.owner]

theorem SameGraph.of_eq (ht : m'.thread = m.thread)
    (ho : ∀ mu, (m'.mutex mu).owner = (m.mutex mu).owner) : SameGraph m m' where
  owner := ho
  handle _ := by rw [ht]
  waitingMutex _ := by rw [ht]
  ownedMutexes _ := by rw [ht]
  base _ := by rw [ht]

theorem GraphInv.congr (h : GraphInv m') (hs : SameGraph m m') : GraphInv m where
  owners := h.owners.congr (fun mu => (hs.owner mu).symm) fun t => (hs.ownedMutexes t).symm
  handle t := (hs.handle t).symm.trans (h.handle t)
  acyclic := hs.waitsFor ▸ h.acyclic
  chains := hs.waitsFor ▸ h.chains

theorem native_congr (hp : m'.uxPriority = m.uxPriority) : m'.native = m.native := by
  funext t
  rw [Mem.native, Mem.native, hp]

theorem PiExcept.of_eq (h : PiExcept m o) (hw : waitsFor m' = waitsFor m)
    (hb : m'.base = m.base) (hp : m'.uxPriority = m.uxPriority) : PiExcept m' o := by
  rw [PiExcept, hw, hb, native_congr hp]
  exact h

theorem PiExcept.congr (h : PiExcept m o) (hs : SameGraph m m')
    (hp : m'.uxPriority = m.uxPriority) : PiExcept m' o :=
  h.of_eq hs.waitsFor (funext hs.base) hp

theorem Ranged.congr (h : Ranged port m) (hb : m'.base = m.base)
    (hp : m'.uxPriority = m.uxPriority) : Ranged port m' where
  base := hb ▸ h.base
  native t := by rw [Mem.native, hp]; exact h.native t

theorem getPriority_eq (hh : ∀ t, (m.thread t).handle = true) :
    osThreadGetPriority m = m.native := by
  funext t
  rw [osThreadGetPriority, if_pos (hh t)]
  rfl

theorem native_nonneg : 0 ≤ m.native t := Int.natCast_nonneg _

end

/-! ## One round of the walk -/

section
omit [DecidableEq M] [DecidableEq Q]

omit [DecidableEq T] in
/-- **The effective priority is the greatest one that the thread has a claim to.** -/
theorem computePriority_isGreatest (h : WalkInv port m) (t : T) :
    IsGreatest (claims (waitsFor m) m.base m.native t) (osMutexComputePriorityLocked m t) := by
  have hmax := foldl_isGreatest m.native
    ((m.thread t).ownedMutexes.flatMap fun mu => m.queue (.mutex mu)) (m.base t)
  have hclaims : claims (waitsFor m) m.base m.native t = insert (m.base t) (m.native ''
      {w | w ∈ (m.thread t).ownedMutexes.flatMap fun mu => m.queue (.mutex mu)}) := by
    rw [claims]
    congr 2
    ext w
    show waitsFor m w = some t ↔ _
    rw [waitsFor_iff h.queues, Set.mem_ofPred_eq, List.mem_flatMap]
    refine exists_congr fun mu => ?_
    rw [h.owners.owned, h.queues.mem, and_comm]
  rw [hclaims, osMutexComputePriorityLocked, h.handle, getPriority_eq h.handle]
  rw [List.foldl_flatMap] at hmax
  exact hmax

omit [DecidableEq T] in
theorem computePriority_mem (h : WalkInv port m) (t : T) :
    0 ≤ osMutexComputePriorityLocked m t ∧
      osMutexComputePriorityLocked m t < port.maxPriorities := by
  rcases (computePriority_isGreatest h t).1 with hbase | ⟨w, -, hw⟩
  · rw [hbase]; exact h.ranged.base t
  · rw [← hw]; exact ⟨native_nonneg, h.ranged.native w⟩

/-- The native priority is the one asked for if that is a valid one. -/
theorem Port.nativePriority_eq {priority : Int} (h₀ : 0 ≤ priority)
    (h : priority < port.maxPriorities) : (port.nativePriority priority : Int) = priority := by
  rw [nativePriority, if_neg (by omega)]
  omega

theorem updatePriority_native (h : WalkInv port m) (t : T) :
    (osMutexUpdatePriority port m t).native =
      Function.update m.native t (osMutexComputePriorityLocked m t) := by
  obtain ⟨hnonneg, hlt⟩ := computePriority_mem h t
  rw [osMutexUpdatePriority, getPriority_eq h.handle]
  split
  case isTrue =>
    funext u
    rw [Function.update_apply, Mem.native, vTaskPrioritySet]
    dsimp only
    rw [Function.update_apply]
    split
    case isTrue => exact port.nativePriority_eq hnonneg hlt
    case isFalse => rfl
  case isFalse hsame =>
    have he : m.native t = osMutexComputePriorityLocked m t := by
      by_contra hne
      exact hsame ⟨hnonneg, hne⟩
    rw [← he, Function.update_eq_self]

theorem SameGraph.updatePriority (port : Port) (m : Mem T M Q) (t : T) :
    SameGraph m (osMutexUpdatePriority port m t) := by
  obtain ⟨uxPriority, he⟩ := updatePriority_eq port m t
  rw [he]
  exact .of_eq rfl fun _ => rfl

theorem WalkInv.updatePriority (h : WalkInv port m) (t : T) :
    WalkInv port (osMutexUpdatePriority port m t) := by
  have hnative := updatePriority_native h t
  obtain ⟨uxPriority, he⟩ := updatePriority_eq port m t
  refine ⟨?_, ?_, ⟨?_, fun u => ?_⟩⟩
  case refine_4 =>
    rw [hnative, Function.update_apply]
    split
    · exact (computePriority_mem h t).2
    · exact h.ranged.native u
  all_goals rw [he]
  · exact h.toGraphInv.congr (.of_eq rfl fun _ => rfl)
  · exact h.queues.perm (fun _ => .refl _) rfl
  · exact h.ranged.base

theorem PiExcept.updatePriority (h : PiExcept m (some t)) (hi : WalkInv port m) :
    PiExcept (osMutexUpdatePriority port m t) (waitsFor m t) := by
  have hupdate := InheritsExcept.update h (fun ht => hi.acyclic t (.single ht))
    (computePriority_isGreatest hi t)
  rw [← updatePriority_native hi t] at hupdate
  obtain ⟨uxPriority, he⟩ := updatePriority_eq port m t
  rw [he] at hupdate ⊢
  exact hupdate

end

theorem WalkInv.requeue (h : WalkInv port m) (hw : (m.thread t).waitingMutex = some mu) :
    WalkInv port (osMutexRequeue m t mu) where
  toGraphInv := h.toGraphInv.congr (.of_eq rfl fun _ => rfl)
  queues := h.queues.perm (requeue_perm h.queues (h.queues.waiting_mem.mp hw)) rfl
  ranged := h.ranged.congr rfl rfl

/-! ## The whole walk -/

theorem PiExcept.updatePiChainFrom {rounds : Nat} {visited l : List T} (h : PiExcept m o)
    (hi : WalkInv port m) (hl : Trail (waitsFor m) o l) (hlen : l.length ≤ rounds)
    (hv : ∀ a ∈ l, a ∉ visited) :
    PiExcept (osMutexUpdatePiChainFrom port rounds visited m o) none := by
  induction rounds generalizing visited m o l with
  | zero =>
    cases hl with
    | nil => exact h
    | cons => cases hlen
  | succ rounds ih =>
    cases hl with
    | nil => exact h
    | @cons t l hl =>
      have h₁ := h.updatePriority hi
      have hi₁ := hi.updatePriority t
      have hs := SameGraph.updatePriority port m t
      rw [osMutexUpdatePiChainFrom, if_neg (hv t List.mem_cons_self)]
      dsimp only
      split
      case h_1 hnone =>
        rw [hs.waitingMutex] at hnone
        have hend : waitsFor m t = none := by rw [waitsFor, hnone]; rfl
        rwa [hend] at h₁
      case h_2 upstream hup =>
        have hnext : waitsFor m t = ((osMutexUpdatePriority port m t).mutex upstream).owner := by
          rw [hs.owner, waitsFor, ← hs.waitingMutex, hup]
          rfl
        have hnot : t ∉ l := hi.acyclic.not_mem_trail hl
        rw [hnext] at h₁ hl
        rw [← hs.waitsFor] at hl
        refine ih (l := l) (h₁.congr (.of_eq rfl fun _ => rfl) rfl) (hi₁.requeue hup) hl
          (Nat.le_of_succ_le_succ hlen) fun a ha => ?_
        rw [List.mem_cons, not_or]
        exact ⟨fun he => hnot (he ▸ ha), hv a (List.mem_cons_of_mem t ha)⟩

/-- **The walk repairs the priorities** from the one thread on that may have the wrong one. -/
theorem PiExcept.updatePiChain (h : PiExcept m o) (hi : WalkInv port m) :
    PiExcept (osMutexUpdatePiChainLocked port m o) none := by
  obtain ⟨l, hl, hlen⟩ := hi.chains.exists_trail o
  exact h.updatePiChainFrom hi hl hlen fun _ _ => List.not_mem_nil

theorem WalkInv.updatePiChain (h : WalkInv port m) :
    WalkInv port (osMutexUpdatePiChainLocked port m o) :=
  updatePiChain_induction port o (P := WalkInv port) h (fun _ t h => h.updatePriority t)
    fun _ _ _ h hw => h.requeue hw

/-- An operation that ends with the walk, from the one thread on that may have the wrong
priority. -/
theorem PiExcept.walked {m₁ : Mem T M Q} (h : PiExcept m₁ o) (hq : QueueInv m₁)
    (hr : Ranged port m₁) (hg : GraphInv m') (hs : SameGraph m₁ m')
    (hp : m'.uxPriority = (osMutexUpdatePiChainLocked port m₁ o).uxPriority) :
    PiExcept m' none ∧ Ranged port m' := by
  have hi : WalkInv port m₁ := ⟨hg.congr hs, hq, hr⟩
  have hs' : SameGraph (osMutexUpdatePiChainLocked port m₁ o) m' := by
    refine ⟨fun mu => ?_, fun t => ?_, fun t => ?_, fun t => ?_, fun t => ?_⟩
    · rw [updatePiChain_mutex, hs.owner]
    all_goals rw [updatePiChain_thread]
    exacts [hs.handle t, hs.waitingMutex t, hs.ownedMutexes t, hs.base t]
  exact ⟨(h.updatePiChain hi).congr hs' hp,
    hi.updatePiChain.ranged.congr (funext hs'.base) hp⟩

omit [DecidableEq T] [DecidableEq M] [DecidableEq Q] in
/-- An operation that concerns neither the wait-for graph nor the priorities. -/
theorem PiExcept.same (h : PiExcept m o) (hr : Ranged port m) (hs : SameGraph m m')
    (hp : m'.uxPriority = m.uxPriority) : PiExcept m' o ∧ Ranged port m' :=
  ⟨h.congr hs hp, hr.congr (funext hs.base) hp⟩

/-! ## The operations -/

namespace SameGraph

omit [DecidableEq T] [DecidableEq M] [DecidableEq Q] in
theorem same (h : SameSync m m') : SameGraph m m' where
  owner mu := by rw [h.mutex]
  handle := h.handle
  waitingMutex := h.waitingMutex
  ownedMutexes := h.ownedMutexes
  base := h.basePriority

omit [DecidableEq T] [DecidableEq M] [DecidableEq Q] in
theorem trans {m'' : Mem T M Q} (h : SameGraph m m') (h' : SameGraph m' m'') :
    SameGraph m m'' where
  owner mu := (h'.owner mu).trans (h.owner mu)
  handle t := (h'.handle t).trans (h.handle t)
  waitingMutex t := (h'.waitingMutex t).trans (h.waitingMutex t)
  ownedMutexes t := (h'.ownedMutexes t).trans (h.ownedMutexes t)
  base t := (h'.base t).trans (h.base t)

omit [DecidableEq M] [DecidableEq Q] in
theorem setThread {v : OsThread M Q} (ht : m'.thread = Function.update m.thread t v)
    (hm : m'.mutex = m.mutex) (hh : v.handle = (m.thread t).handle)
    (hw : v.waitingMutex = (m.thread t).waitingMutex)
    (ho : v.ownedMutexes = (m.thread t).ownedMutexes)
    (hb : v.basePriority = (m.thread t).basePriority) : SameGraph m m' := by
  constructor
  case owner => intro mu; rw [hm]
  all_goals
    intro u
    rw [ht, Function.update_apply]
    split
    case isTrue he => rw [he]; assumption
    case isFalse => rfl

omit [DecidableEq T] [DecidableEq Q] in
/-- An update of a mutex that leaves its owner. -/
theorem setMutex {v : OsMutex T} (ht : m'.thread = m.thread)
    (hm : m'.mutex = Function.update m.mutex mu v) (hv : v.owner = (m.mutex mu).owner) :
    SameGraph m m' := by
  refine .of_eq ht fun mu' => ?_
  rw [hm, Function.update_apply]
  split
  case isTrue he => rw [he, hv]
  case isFalse => rfl

theorem waitqWakeHead {q : Q} {reason : UInt32} : SameGraph m (osWaitqWakeHead m q reason) := by
  rcases waitqWakeHead_cases m q reason with he | ⟨t, rest, -, hwake⟩
  · rw [he]
    exact of_eq rfl fun _ => rfl
  · refine trans ?_ (same hwake)
    exact setThread rfl rfl rfl rfl rfl rfl

end SameGraph

omit [DecidableEq M] [DecidableEq Q] in
theorem waitsFor_setThread (m : Mem T M Q) (t : T) (v : OsThread M Q) :
    waitsFor (m.setThread t v) =
      Function.update (waitsFor m) t (v.waitingMutex.bind fun mu => (m.mutex mu).owner) := by
  funext u
  rw [waitsFor, Mem.setThread_thread, Function.update_apply, Function.update_apply]
  split <;> rfl

omit [DecidableEq M] [DecidableEq Q] in
/-- A thread comes to wait, or stops waiting: this concerns whoever it waits for. -/
theorem PiExcept.setWaiting {v : OsThread M Q} (h : PiExcept m none)
    (hm : m'.thread = (m.setThread t v).thread) (hmu : m'.mutex = m.mutex)
    (hp : m'.uxPriority = m.uxPriority) (hb : v.basePriority = (m.thread t).basePriority)
    (ho : ∀ u, o ≠ some u → ((v.waitingMutex.bind fun mu => (m.mutex mu).owner) = some u ↔
      waitsFor m t = some u)) : PiExcept m' o := by
  have hw : waitsFor m' = waitsFor (m.setThread t v) := by
    funext u
    rw [waitsFor, waitsFor, hm, hmu]
    rfl
  rw [PiExcept, hw, native_congr hp, waitsFor_setThread]
  refine InheritsExcept.of_changes (fun a => h a (Option.some_ne_none a).symm)
    (fun a _ => ?_) fun a b hb => ?_
  · rw [Mem.base, Mem.base, hm, Mem.setThread_thread, Function.update_apply]
    split
    case isTrue he => rw [hb, he]
    case isFalse => rfl
  · rw [Leads, Leads, Function.update_apply]
    split
    case isTrue he => rw [ho b hb, he]
    case isFalse => rfl

omit [DecidableEq M] [DecidableEq Q] in
theorem base_setThread {v : OsThread M Q} (hm : m'.thread = (m.setThread t v).thread)
    (hv : v.basePriority = (m.thread t).basePriority) : m'.base = m.base := by
  funext u
  rw [Mem.base, Mem.base, hm, Mem.setThread_thread, Function.update_apply]
  split
  case isTrue he => rw [hv, he]
  case isFalse => rfl

omit [DecidableEq T] [DecidableEq Q] in
/-- An unlock that releases a mutex concerns its owner only. -/
theorem PiExcept.disown (h : PiExcept m none) (ho : (m.mutex mu).owner = some t) :
    PiExcept (osMutexDisown m mu) (some t) := by
  refine InheritsExcept.of_changes (fun a => h a (Option.some_ne_none a).symm) (fun _ _ => rfl)
    fun a b hb => ?_
  have howner : ∀ mu', ((osMutexDisown m mu).mutex mu').owner = some b ↔
      (m.mutex mu').owner = some b := by
    intro mu'
    rw [osMutexDisown, Mem.setMutex_mutex, Function.update_apply]
    split
    case isTrue he =>
      rw [he, ho]
      exact iff_of_false (fun h => by cases h) hb
    case isFalse => rfl
  rw [Leads, Leads, waitsFor_eq_some, waitsFor_eq_some]
  exact exists_congr fun mu' => and_congr_right fun _ => howner mu'

/-- The removal of a waiter of a free mutex concerns nobody. -/
theorem PiExcept.mutexWakeHead (h : PiExcept m o) (hq : QueueInv m)
    (ho : (m.mutex mu).owner = none) : PiExcept (osMutexWakeHead m mu) o := by
  rcases mutexWakeHead_cases m mu with he | ⟨w, rest, hl, hwake⟩
  · rwa [he]
  · have hw : waitsFor m w = none := by
      rw [waitsFor, hq.waiting_mem.mpr (hl ▸ List.mem_cons_self)]
      exact ho
    have hthread : PiExcept ((m.setQueue (.mutex mu) rest).setThread w
        { m.thread w with waitQ := none, waitingMutex := none, waitResult := 0, state := .ready })
        o := by
      refine h.of_eq ?_ (base_setThread rfl rfl) rfl
      rw [waitsFor_setThread]
      show Function.update (waitsFor m) w none = _
      rw [← hw, Function.update_eq_self]
    exact hthread.congr (.same hwake) hwake.uxPriority

theorem mutexWakeHead_base : (osMutexWakeHead m mu).base = m.base := by
  rcases mutexWakeHead_cases m mu with he | ⟨w, rest, -, hwake⟩
  · rw [he]
  · exact (funext hwake.basePriority).trans (base_setThread rfl rfl)

theorem mutexWakeHead_uxPriority : (osMutexWakeHead m mu).uxPriority = m.uxPriority := by
  rcases mutexWakeHead_cases m mu with he | ⟨w, rest, -, hwake⟩
  · rw [he]
  · exact hwake.uxPriority

theorem waitqWakeHead_uxPriority {q : Q} {reason : UInt32} :
    (osWaitqWakeHead m q reason).uxPriority = m.uxPriority := by
  rcases waitqWakeHead_cases m q reason with he | ⟨w, rest, -, hwake⟩
  · rw [he]
  · exact hwake.uxPriority

omit [DecidableEq Q] in
/-- The acquisition of a free mutex whose waiters have no higher priority. -/
theorem PiExcept.acquire (h : PiExcept m none) (hq : QueueInv m)
    (ho : (m.mutex mu).owner = none)
    (hle : ∀ u ∈ m.queue (.mutex mu), m.native u ≤ m.native t) :
    PiExcept (osMutexAcquire (m.forget t) t mu) none := by
  have hbase : (osMutexAcquire (m.forget t) t mu).base = m.base := base_setThread rfl rfl
  have hwaiting (a) : ((osMutexAcquire (m.forget t) t mu).thread a).waitingMutex =
      (m.thread a).waitingMutex := by
    simp only [osMutexAcquire, Mem.recordLock_thread, Mem.setThread_thread, Mem.setMutex_thread,
      Mem.forget_thread, Function.update_apply]
    split
    case isTrue he => rw [he]
    case isFalse => rfl
  have howner (mu') : ((osMutexAcquire (m.forget t) t mu).mutex mu').owner =
      if mu' = mu then some t else (m.mutex mu').owner := by
    simp only [osMutexAcquire, Mem.recordLock_mutex, Mem.setThread_mutex, Mem.setMutex_mutex,
      Mem.forget_mutex, Function.update_apply]
    split <;> rfl
  rw [PiExcept, hbase]
  intro b hb
  refine (h b hb).join (fun a hab => ?_) fun a hab => ?_
  · obtain ⟨mu', hw, hmu⟩ := waitsFor_eq_some.mp hab
    refine waitsFor_eq_some.mpr ⟨mu', (hwaiting a).trans hw, ?_⟩
    rw [howner, if_neg fun he => ?_, hmu]
    rw [he, ho] at hmu
    cases hmu
  · obtain ⟨mu', hw, hmu⟩ := waitsFor_eq_some.mp hab
    rw [hwaiting] at hw
    rw [howner] at hmu
    split at hmu
    case isTrue he =>
      cases hmu
      exact .inr (hle a (hq.waiting_mem.mp (he ▸ hw)))
    case isFalse => exact .inl (waitsFor_eq_some.mpr ⟨mu', hw, hmu⟩)

omit [DecidableEq M] [DecidableEq Q] in
/-- A new base priority concerns the thread only. -/
theorem PiExcept.setBase (h : PiExcept m none) (t : T) (priority : Int) :
    PiExcept (m.setThread t { m.thread t with basePriority := priority }) (some t) := by
  have hw : waitsFor (m.setThread t { m.thread t with basePriority := priority }) =
      waitsFor m := by
    rw [waitsFor_setThread]
    exact Function.update_eq_self t (waitsFor m)
  rw [PiExcept, hw]
  refine InheritsExcept.of_changes (fun a => h a (Option.some_ne_none a).symm) (fun a ha => ?_)
    fun _ _ _ => Iff.rfl
  have hne : a ≠ t := fun he => ha (he ▸ rfl)
  rw [Mem.base, Mem.base, Mem.setThread_thread, Function.update_of_ne hne]

omit [DecidableEq M] [DecidableEq Q] in
theorem Ranged.setBase {priority : Int} (h : Ranged port m) (h₀ : 0 ≤ priority)
    (hp : priority < port.maxPriorities) :
    Ranged port (m.setThread t { m.thread t with basePriority := priority }) where
  base u := by
    rw [Mem.base, Mem.setThread_thread, Function.update_apply]
    split
    · exact ⟨h₀, hp⟩
    · exact h.base u
  native := h.native

end

/-! ## Runs -/

/-- A free mutex is acquired only by a thread below whose priority are those of its waiters. -/
def NoBarging (s : State T M Q N) (a : Act T M Q N) : Prop :=
  ∀ t mu timeout start, a = .step (.thread t) → s.call (.thread t) = .lockTry mu timeout start →
    (s.mem.mutex mu).owner = none →
      ∀ u ∈ s.mem.queue (.mutex mu), s.mem.uxPriority u ≤ s.mem.uxPriority t

/-- `os_thread_set_priority` is called with priorities below `configMAX_PRIORITIES`. -/
def ValidPriority (port : Port) (s : State T M Q N) (a : Act T M Q N) : Prop :=
  ∀ c t priority, a = .step c → s.call c = .setPriorityLock t priority →
    0 ≤ priority ∧ priority < port.maxPriorities

/-- The step leads to wait-for chains that the walk follows to their end. -/
def BoundedChains (port : Port) (s : State T M Q N) (a : Act T M Q N) : Prop :=
  ∀ s', step port s a = some s' → ChainsAtMost (waitsFor s'.mem) OS_PI_MAX_CHAIN_DEPTH

/-- The guard of the runs in which the priorities are inherited. -/
structure InheritGuard (port : Port) (s : State T M Q N) (a : Act T M Q N) : Prop where
  deinit : SafeDeinit s a
  valid : ValidPriority port s a
  chains : BoundedChains port s a
  barging : NoBarging s a

section
variable {port : Port} {prio : T → Int} {s s' : State T M Q N} {a : Act T M Q N} {c : Caller T N}
  {m' : Mem T M Q} {p' : Pc T M Q}

/-- **A step of a call keeps the priorities inherited.** -/
theorem Effect.inherits (he : Effect port c s.mem (s.call c) m' p') (hi : SyncInv s)
    (hok : InheritGuard port s (.step c)) (hg : GraphInv m') (hr : Ranged port s.mem)
    (h : PiExcept s.mem none) : PiExcept m' none ∧ Ranged port m' := by
  generalize hp : s.call c = p at he
  have hcall {t q} (hc : c = .thread t) (hq : (s.mem.thread t).waitQ = some q) :
      p.waitsOn = some q := by
    rw [← hp, hc]
    exact hi.calls t q hq
  have hfree {t} (hc : c = .thread t) (hw : p.waitsOn = none) : (s.mem.thread t).waitQ = none :=
    hi.waitQ_eq_none (by rwa [← hc, hp])
  have hgraph (hs : SameGraph s.mem m') (hp : m'.uxPriority = s.mem.uxPriority) :=
    h.same hr hs hp
  cases he with
  | same hs => exact hgraph (.same hs.sync) hs.sync.uxPriority
  | delete | refuse => exact hgraph (.of_eq rfl fun _ => rfl) rfl
  | recurse | unlockNested | deinit => exact hgraph (.setMutex rfl rfl rfl) rfl
  | @zero mu =>
    have hidle := (hi.idle mu (hi.zeroing c mu hp)).1
    exact hgraph (.setMutex rfl rfl hidle.symm) rfl
  | @acquire t mu timeout start hc ho =>
    have hle : ∀ u ∈ s.mem.queue (.mutex mu), s.mem.native u ≤ s.mem.native t := fun u hu =>
      Int.ofNat_le.mpr (hok.barging t mu timeout start (by rw [hc]) (hc ▸ hp) ho u hu)
    exact ⟨h.acquire hi.queues ho hle, hr.congr (base_setThread rfl rfl) rfl⟩
  | @enqueue t mu _ _ _ hc ho =>
    have hnone := hfree hc rfl
    have hw : waitsFor s.mem t = none := waitsFor_none hi.queues fun mu hmu => by
      rw [hnone] at hmu; cases hmu
    have hlink : PiExcept (osMutexLink (s.mem.forget t) t mu) (s.mem.mutex mu).owner := by
      refine h.setWaiting rfl rfl rfl rfl fun u hu => ?_
      rw [hw]
      exact iff_of_false hu fun h => by cases h
    exact hlink.walked (hi.queues.mutexLink hnone mu) (hr.congr (base_setThread rfl rfl) rfl) hg
      (.of_eq updatePiChain_thread fun _ => by rw [osMutexEnqueue, updatePiChain_mutex]) rfl
  | @abandon t mu _ _ _ _ hc hw =>
    obtain ⟨q, hq⟩ := Option.ne_none_iff_exists'.mp hw
    cases hcall hc hq
    have hunlink : PiExcept (osMutexUnlink s.mem t) (s.mem.mutex mu).owner := by
      refine h.setWaiting rfl rfl rfl rfl fun u hu => ?_
      rw [waitsFor_eq hi.queues hq]
      exact iff_of_false (fun h => by cases h) hu
    exact hunlink.walked (hi.queues.mutexUnlink t) (hr.congr (base_setThread rfl rfl) rfl) hg
      (.of_eq updatePiChain_thread fun _ => by rw [osMutexAbandon, updatePiChain_mutex]) rfl
  | @awake t mu _ _ _ hc hw =>
    refine hgraph (.setThread rfl rfl rfl ?_ rfl rfl) rfl
    rw [eq_comm, Option.eq_none_iff_forall_ne_some]
    intro mu hmu
    rw [hi.queues.waiting, hw] at hmu
    cases hmu
  | @release t mu hc ho =>
    have hwake : PiExcept (osMutexWakeHead (osMutexDisown s.mem mu) mu) (some t) :=
      (h.disown ho).mutexWakeHead (hi.queues.disown mu) (by simp [osMutexDisown])
    refine hwake.walked (hi.queues.disown mu).mutexWakeHead ?_ hg
      (.of_eq updatePiChain_thread fun _ => ?_) rfl
    · exact hr.congr mutexWakeHead_base mutexWakeHead_uxPriority
    · rw [Mem.recordUnlock_mutex, osMutexRelease, updatePiChain_mutex]
  | @block t =>
    exact hgraph (.setThread rfl rfl rfl rfl rfl rfl) rfl
  | unblock | exit => exact hgraph (.setThread rfl rfl rfl rfl rfl rfl) rfl
  | wakeOne => exact hgraph .waitqWakeHead waitqWakeHead_uxPriority
  | @wakeAll q reason =>
    have hall : SameGraph s.mem (osWaitqWakeAll s.mem q reason) ∧
        (osWaitqWakeAll s.mem q reason).uxPriority = s.mem.uxPriority :=
      wakeAll_induction (P := fun m' => SameGraph s.mem m' ∧ m'.uxPriority = s.mem.uxPriority)
        ⟨.of_eq rfl fun _ => rfl, rfl⟩ fun _ h =>
          ⟨h.1.trans .waitqWakeHead, waitqWakeHead_uxPriority.trans h.2⟩
    exact hgraph hall.1 hall.2
  | @setPriority t priority =>
    obtain ⟨h₀, hlt⟩ := hok.valid c t priority rfl hp
    have hm : (osThreadSetPriorityCritical port s.mem t priority).mutex = s.mem.mutex :=
      SameCounts.setPriority.mutex
    refine (h.setBase t priority).walked (hi.queues.setBase t priority) (hr.setBase h₀ hlt) hg
      (.of_eq ?_ fun mu => by rw [hm]; rfl) ?_
    all_goals
      rw [osThreadSetPriorityCritical]
      dsimp only
      split
    any_goals rfl
    all_goals exact updatePiChain_thread
  | @abortWaiting t =>
    have hunlink : PiExcept (osThreadAbortUnlink s.mem t) (waitsFor s.mem t) := by
      refine h.setWaiting rfl rfl rfl rfl fun u hu => ?_
      exact iff_of_false (fun h => by cases h) hu
    refine hunlink.walked (hi.queues.abortUnlink t) (hr.congr (base_setThread rfl rfl) rfl) hg
      ?_ rfl
    have hwalk : SameGraph (osThreadAbortUnlink s.mem t) (osThreadAbortDequeue port s.mem t) :=
      .of_eq updatePiChain_thread fun mu => congrArg OsMutex.owner (congrFun updatePiChain_mutex mu)
    exact hwalk.trans (.setThread rfl rfl rfl rfl rfl rfl)

omit [DecidableEq T] [DecidableEq M] [DecidableEq Q] [DecidableEq N] in
theorem Init.inherits (h : Init port prio s)
    (hprio : ∀ t, 0 ≤ prio t ∧ prio t < port.maxPriorities) :
    PiExcept s.mem none ∧ Ranged port s.mem := by
  have hbase (t) : s.mem.base t = prio t := by rw [Mem.base, h.thread]; rfl
  have hnative (t) : s.mem.native t = prio t := by
    rw [Mem.native, h.uxPriority]
    exact port.nativePriority_eq (hprio t).1 (hprio t).2
  have hwait (t u) : ¬ Leads (waitsFor s.mem) t u := by
    rw [Leads, waitsFor, h.thread]
    exact fun h => by cases h
  refine ⟨fun t _ => ⟨.inl ?_, ?_⟩, fun t => hbase t ▸ hprio t, fun t => hnative t ▸ (hprio t).2⟩
  · rw [hbase, hnative]
  · rintro p (rfl | ⟨u, hu, -⟩)
    · rw [hbase, hnative]
    · exact absurd hu (hwait u t)

theorem inherits_of_reachable (hprio : ∀ t, 0 ≤ prio t ∧ prio t < port.maxPriorities)
    (h : ReachableVia (system port prio : System (State T M Q N) _) (InheritGuard port) s) :
    PiExcept s.mem none ∧ Ranged port s.mem := by
  refine h.induction (I := fun s => PiExcept s.mem none ∧ Ranged port s.mem)
    (fun s (h : Init port prio s) => h.inherits hprio) fun s a s' hr ⟨hpi, hranged⟩ hok hs => ?_
  have hi := syncInv_of_reachable (fun _ _ => InheritGuard.deinit) hr
  have hr' := hr.step hok hs
  have hi' := syncInv_of_reachable (fun _ _ => InheritGuard.deinit) hr'
  have hg : GraphInv s'.mem :=
    ⟨hi'.owners, hi'.handle, acyclic_of_reachable (fun _ _ => InheritGuard.deinit) hr',
      hok.chains s' hs⟩
  cases step_cases hs with
  | call | expire => exact ⟨hpi, hranged⟩
  | tick => exact hpi.same hranged (.of_eq rfl fun _ => rfl) rfl
  | step _ hstep => exact (callStep_effect hstep).inherits hi hok hg hranged hpi

/-- **Priorities are inherited**, where no free mutex is acquired by a thread below the priority of
one that waits for it. The native priority of a thread is the greatest of its base priority and the
native priorities of those on the wait queues of the mutexes it owns, so that it is never below
that of a thread which waits for it, directly or not. -/
theorem priority_inherited (hprio : ∀ t, 0 ≤ prio t ∧ prio t < port.maxPriorities)
    (h : ReachableVia (system port prio : System (State T M Q N) _) (InheritGuard port) s) :
    (∀ t, s.mem.deleted t = false →
      IsGreatest ({(s.mem.thread t).basePriority} ∪ {p : Int | ∃ mu u,
        mu ∈ (s.mem.thread t).ownedMutexes ∧ u ∈ s.mem.queue (.mutex mu) ∧ p = s.mem.uxPriority u})
        (s.mem.uxPriority t)) ∧
    ∀ t u, TransGen (Leads (waitsFor s.mem)) t u → s.mem.uxPriority t ≤ s.mem.uxPriority u := by
  obtain ⟨hpi, -⟩ := inherits_of_reachable hprio h
  have hi := syncInv_of_reachable (fun _ _ => InheritGuard.deinit) h
  have hpi : ∀ t, Inherits (waitsFor s.mem) s.mem.base s.mem.native t :=
    fun t => hpi t (Option.some_ne_none t).symm
  refine ⟨fun t _ => ?_, fun t u htu => ?_⟩
  case refine_2 =>
    have hle : s.mem.native t ≤ s.mem.native u := le_of_transGen hpi htu
    exact Int.ofNat_le.mp hle
  have hclaims : {(s.mem.thread t).basePriority} ∪ {p : Int | ∃ mu u,
      mu ∈ (s.mem.thread t).ownedMutexes ∧ u ∈ s.mem.queue (.mutex mu) ∧
        p = s.mem.uxPriority u} = claims (waitsFor s.mem) s.mem.base s.mem.native t := by
    rw [claims, Set.singleton_union]
    congr 1
    ext p
    constructor
    · rintro ⟨mu, u, hmu, hu, rfl⟩
      exact ⟨u, (waitsFor_iff hi.queues).mpr
        ⟨mu, (hi.queues.mem u _).mp hu, (hi.owners.owned t mu).mp hmu⟩, rfl⟩
    · rintro ⟨u, hu, rfl⟩
      obtain ⟨mu, hw, ho⟩ := (waitsFor_iff hi.queues).mp hu
      exact ⟨mu, u, (hi.owners.owned t mu).mpr ho, (hi.queues.mem u _).mpr hw, rfl⟩
  rw [hclaims]
  exact hpi t

end

/-! ## Concrete runs -/

/-- The check of `InheritGuard` for three threads, and a run without `os_mutex_deinit`. -/
def inheritGuard (port : Port) (s : State (Fin 3) M Q N) (a : Act (Fin 3) M Q N) : Bool :=
  noDeinit s a && (step port s a).all (fun s' => ∀ t, follow (waitsFor s'.mem) 16 t = none) &&
    match a with
    | .step c =>
      match s.call c, c.current with
      | .setPriorityLock _ priority, _ => 0 ≤ priority && priority < port.maxPriorities
      | .lockTry mu _ _, some t => (s.mem.mutex mu).owner.isSome ||
        (s.mem.queue (.mutex mu)).all fun u => s.mem.uxPriority u ≤ s.mem.uxPriority t
      | _, _ => true
    | _ => true

theorem InheritGuard.of_inheritGuard {port : Port} {s : State (Fin 3) M Q N}
    {a : Act (Fin 3) M Q N} (h : inheritGuard port s a = true) : InheritGuard port s a := by
  simp only [inheritGuard, Bool.and_eq_true] at h
  obtain ⟨⟨hdeinit, hchains⟩, h⟩ := h
  refine ⟨.of_noDeinit hdeinit, ?_, fun s' hs => ?_, ?_⟩
  · rintro c t priority rfl hc
    simpa [hc] using h
  · rw [hs] at hchains
    exact .of_follow (of_decide_eq_true hchains)
  · rintro t mu timeout start rfl hc ho u hu
    simp only [hc, Caller.current, ho, Option.isSome_none, Bool.false_or, List.all_eq_true,
      decide_eq_true_eq] at h
    exact h u hu

/-- Three threads of priorities 1, 3 and 5. -/
def threePriorities (t : Fin 3) : Int := 2 * t.val + 1

/-- Thread 0 owns mutex `false`, for which thread 1 waits, and thread 2 waits for mutex `true`,
which thread 1 owns. -/
def chainRun : List (Act (Fin 3) Bool Unit Unit) :=
  callSteps (.thread 0) (.lock false OS_WAIT_FOREVER) 3 ++
    callSteps (.thread 1) (.lock true OS_WAIT_FOREVER) 3 ++
    callSteps (.thread 1) (.lock false OS_WAIT_FOREVER) 3 ++
    callSteps (.thread 2) (.lock true OS_WAIT_FOREVER) 3

theorem priority_inherited_chain : ∃ s : State (Fin 3) Bool Unit Unit,
    exec (system ⟨8, 32⟩ threePriorities) (.initial ⟨8, 32⟩ threePriorities) chainRun = some s ∧
    s.mem.uxPriority 2 = 5 ∧ s.mem.uxPriority 2 ≤ s.mem.uxPriority 0 ∧
    ∃ p, IsGreatest ({(s.mem.thread 0).basePriority} ∪ {p : Int | ∃ mu u,
      mu ∈ (s.mem.thread 0).ownedMutexes ∧ u ∈ s.mem.queue (.mutex mu) ∧ p = s.mem.uxPriority u})
      p := by
  obtain ⟨s, hs, hp, hd, hw, hw'⟩ := exists_of_exec chainRun
    (M := system ⟨8, 32⟩ threePriorities) (s := .initial ⟨8, 32⟩ threePriorities)
    (P := fun s => s.mem.uxPriority 2 = 5 ∧ s.mem.deleted 0 = false ∧
      waitsFor s.mem 2 = some 1 ∧ waitsFor s.mem 1 = some 0) (by decide +kernel)
  have hprio : ∀ t, 0 ≤ threePriorities t ∧ threePriorities t < Port.maxPriorities ⟨8, 32⟩ := by
    decide
  obtain ⟨hgreatest, hle⟩ := priority_inherited hprio
    (reachableVia_of_execOk chainRun (fun _ _ => InheritGuard.of_inheritGuard)
      (State.init_initial ⟨8, 32⟩ threePriorities) (by decide +kernel) hs)
  exact ⟨s, hs, hp, hle 2 0 (.tail (.single hw) hw'), _, hgreatest 0 hd⟩

/-- Two threads wait for a mutex. Its owner, of lower priority, unlocks it and locks it again
before the thread that the unlock has removed does: it does not inherit the priority of the other
one. -/
theorem priority_not_inherited_by_barging : ∃ s : State (Fin 3) Unit Unit Unit,
    exec (system ⟨8, 32⟩ threePriorities) (.initial ⟨8, 32⟩ threePriorities)
      (callSteps (.thread 0) (.lock () OS_WAIT_FOREVER) 3 ++
        callSteps (.thread 1) (.lock () OS_WAIT_FOREVER) 3 ++
        callSteps (.thread 2) (.lock () OS_WAIT_FOREVER) 3 ++
        callSteps (.thread 0) (.unlock ()) 2 ++ callSteps (.thread 0) (.lock () 0) 3) = some s ∧
    s.call (.thread 0) = .done 0 ∧ s.mem.deleted 0 = false ∧
    () ∈ (s.mem.thread 0).ownedMutexes ∧ 1 ∈ s.mem.queue (.mutex ()) ∧
    s.mem.uxPriority 0 = 1 ∧ s.mem.uxPriority 1 = 3 :=
  exists_of_exec _ (by decide +kernel)

end HazelOsal.FreeRtos
