import HazelOsal.Dlist.Clients
import HazelOsal.FreeRtos.Arrival

/-! # The nodes of the wait queues and of the owned mutexes

A thread is on a wait queue through `thread->wait_node`, and a mutex on its owner's list through
`mutex->owner_node`. The calls that the critical sections make on these lists run on a heap of
nodes. They follow no null pointer and the heap holds the lists, as long as no `os_mutex_deinit`
clears a mutex that somebody uses. -/

namespace HazelOsal.FreeRtos

open TransitionSystem Dlist

variable {T M Q N : Type} [DecidableEq T] [DecidableEq M] [DecidableEq Q] [DecidableEq N]

/-- `&q->waitq`, `&thread->wait_node`, `&thread->owned_mutexes` and `&mutex->owner_node`. -/
inductive Addr (T M Q : Type) where
  | waitq (q : WaitQ M Q)
  | waitNode (thread : T)
  | ownedMutexes (thread : T)
  | ownerNode (mutex : M)
  deriving DecidableEq

/-- The head of the wait queue is not cleared. -/
def WaitQ.headed (heads : M → Bool) : WaitQ M Q → Bool
  | .mutex mu => heads mu
  | .plain _ => true

/-- The lists, by their heads; `heads` says which mutexes are not cleared. -/
def Mem.lists (m : Mem T M Q) (heads : M → Bool) : Addr T M Q → Option (List (Addr T M Q))
  | .waitq q => if q.headed heads then some ((m.queue q).map .waitNode) else none
  | .ownedMutexes t => some ((m.thread t).ownedMutexes.map .ownerNode)
  | _ => none

/-! ## The calls -/

abbrev DlistCalls (T M Q : Type) := List (Dlist.Call (Addr T M Q) × Dlist.Value (Addr T M Q))

/-- The queued thread has a lower priority than `t`. -/
def overtaken (m : Mem T M Q) (t : T) : Addr T M Q → Bool
  | .waitNode queued => osThreadGetPriority m t > osThreadGetPriority m queued
  | _ => false

/-- In `os_waitq_insert_priority_locked`. -/
def insertCalls (m : Mem T M Q) (q : WaitQ M Q) (t : T) : DlistCalls T M Q :=
  placeCalls (.waitq q) (.waitNode t) (overtaken m t) ((m.queue q).map .waitNode)

/-- A loop over a whole list. -/
def loopCall (head : Addr T M Q) (nodes : List (Addr T M Q)) :
    Dlist.Call (Addr T M Q) × Dlist.Value (Addr T M Q) :=
  (.forEach head fun _ => false, .visited nodes none)

/-- In `os_mutex_compute_priority_locked`. The loops only read, so that the outer one is one
call. -/
def computePriorityCalls (m : Mem T M Q) (t : T) : DlistCalls T M Q :=
  if (m.thread t).handle then
    loopCall (.ownedMutexes t) ((m.thread t).ownedMutexes.map .ownerNode) ::
      (m.thread t).ownedMutexes.map fun owned =>
        loopCall (.waitq (.mutex owned)) ((m.queue (.mutex owned)).map .waitNode)
  else []

/-- In the loop of `os_mutex_update_pi_chain_locked` with `rounds` rounds left. -/
def updatePiChainCallsFrom (port : Port) :
    Nat → List T → Mem T M Q → Option T → DlistCalls T M Q
  | 0, _, _, _ => []
  | _ + 1, _, _, none => []
  | rounds + 1, visited, m, some t =>
    if t ∈ visited then []
    else
      computePriorityCalls m t ++
        let m := osMutexUpdatePriority port m t
        match (m.thread t).waitingMutex with
        | none => []
        | some upstream =>
          ((.remove (.waitNode t), .void) :: insertCalls (m.unlinkWait t) (.mutex upstream) t) ++
            updatePiChainCallsFrom port rounds (t :: visited) (osMutexRequeue m t upstream)
              (m.mutex upstream).owner

def updatePiChainCalls (port : Port) (m : Mem T M Q) (t : Option T) : DlistCalls T M Q :=
  updatePiChainCallsFrom port OS_PI_MAX_CHAIN_DEPTH [] m t

/-- In the first critical section of a round of `os_mutex_lock`. -/
def lockTryCalls (port : Port) (m : Mem T M Q) (t : T) (mu : M) (timeout : UInt32) (start : Nat) :
    DlistCalls T M Q :=
  match (osMutexLockTry port m t mu timeout start).2 with
  | .ret _ =>
    if (m.mutex mu).owner = none then [(.append (.ownedMutexes t) (.ownerNode mu), .void)] else []
  | .wait _ =>
    insertCalls m (.mutex mu) t ++
      updatePiChainCalls port (osMutexLink (m.forget t) t mu) (m.mutex mu).owner

/-- In the second one. -/
def lockFinishCalls (port : Port) (m : Mem T M Q) (t : T) (mu : M) : DlistCalls T M Q :=
  if (m.thread t).waitQ ≠ none then
    (.remove (.waitNode t), .void) ::
      updatePiChainCalls port (osMutexUnlink m t) (m.mutex mu).owner
  else []

/-- The test for a waiter, and the removal of the first one. -/
def wakeCalls (m : Mem T M Q) (q : WaitQ M Q) : DlistCalls T M Q :=
  popCalls (.waitq q) ((m.queue q).map .waitNode)

/-- In the loop of `os_waitq_wake_all` with `rounds` waiters left. -/
def wakeAllCalls (q : Q) (reason : UInt32) : Nat → Mem T M Q → DlistCalls T M Q
  | 0, m => wakeCalls m (.plain q)
  | rounds + 1, m =>
    wakeCalls m (.plain q) ++ wakeAllCalls q reason rounds (osWaitqWakeHead m q reason)

/-- In the critical section of `os_mutex_unlock`. -/
def unlockCalls (port : Port) (m : Mem T M Q) (t : T) (mu : M) : DlistCalls T M Q :=
  if (m.mutex mu).owner ≠ some t ∨ (m.mutex mu).lockCount = 0 ∨ (m.mutex mu).lockCount - 1 > 0 then
    []
  else
    let m := osMutexDisown m mu
    (.remove (.ownerNode mu), .void) :: wakeCalls m (.mutex mu) ++
      updatePiChainCalls port (osMutexWakeHead m mu) (some t)

/-- In the critical section of `os_thread_set_priority`. -/
def setPriorityCalls (port : Port) (m : Mem T M Q) (t : T) (priority : Int) : DlistCalls T M Q :=
  let m := m.setThread t { m.thread t with basePriority := priority }
  updatePiChainCalls port m (some t) ++
    let m := osMutexUpdatePiChainLocked port m (some t)
    match (m.thread t).waitQ, (m.thread t).waitingMutex with
    | some q, none => (.remove (.waitNode t), .void) :: insertCalls (m.unlinkWait t) q t
    | _, _ => []

/-- In the critical section of `os_thread_abort`. -/
def abortCalls (port : Port) (m : Mem T M Q) (t : T) : DlistCalls T M Q :=
  if (m.thread t).completed then []
  else
    (.isEmpty (.ownedMutexes t), .bool (m.thread t).ownedMutexes.isEmpty) ::
      if (m.thread t).ownedMutexes ≠ [] ∨ (m.thread t).waitQ = none then []
      else
        (.remove (.waitNode t), .void) ::
          updatePiChainCalls port (osThreadAbortUnlink m t)
            ((m.thread t).waitingMutex.bind fun mu => (m.mutex mu).owner)

/-- The calls of a step, with the values that the code goes on with. The `memset` of
`os_mutex_deinit` clears the head of the wait queue and the owner's node. -/
def callCalls (port : Port) (c : Caller T N) (m : Mem T M Q) : Pc T M Q → DlistCalls T M Q
  | .lockTry mu timeout start => c.current.elim [] fun t => lockTryCalls port m t mu timeout start
  | .lockFinish mu _ _ _ => c.current.elim [] fun t => lockFinishCalls port m t mu
  | .unlockLock mu => c.current.elim [] fun t => unlockCalls port m t mu
  | .deinitLock mu =>
    if (m.mutex mu).owner ≠ none then []
    else [(.isEmpty (.waitq (.mutex mu)), .bool (m.queue (.mutex mu)).isEmpty)]
  | .deinitZero mu => [(.nodeInit (.waitq (.mutex mu)), .void), (.nodeInit (.ownerNode mu), .void)]
  | .blockLock q _ => c.current.elim [] fun t => insertCalls m (.plain q) t
  | .blockFinish .. => c.current.elim [] fun t =>
    if (m.thread t).waitQ ≠ none then [(.remove (.waitNode t), .void)] else []
  | .wakeOneLock q _ => wakeCalls m (.plain q)
  | .wakeAllLock q reason => wakeAllCalls q reason (m.queue (.plain q)).length m
  | .setPriorityLock t priority => setPriorityCalls port m t priority
  | .abortLock t => abortCalls port m t
  | _ => []

def actCalls (port : Port) (s : State T M Q N) : Act T M Q N → DlistCalls T M Q
  | .step c => callCalls port c s.mem (s.call c)
  | _ => []

/-! ## What the operations do to the lists -/

section
variable {port : Port} {m m' : Mem T M Q} {heads : M → Bool} {q : WaitQ M Q} {t : T} {mu : M}

omit [DecidableEq T] [DecidableEq M] [DecidableEq Q] in
theorem lists_congr (hq : m'.queue = m.queue)
    (ho : ∀ t, (m'.thread t).ownedMutexes = (m.thread t).ownedMutexes) :
    m'.lists heads = m.lists heads := by
  funext a
  cases a with
  | waitq => simp only [Mem.lists, hq]
  | ownedMutexes => simp only [Mem.lists, ho]
  | waitNode | ownerNode => rfl

omit [DecidableEq M] [DecidableEq Q] in
theorem lists_setThread {v : OsThread M Q} (ho : v.ownedMutexes = (m.thread t).ownedMutexes) :
    (m.setThread t v).lists heads = m.lists heads := by
  refine lists_congr rfl fun u => ?_
  rw [Mem.setThread_thread, Function.update_apply]
  split
  case isTrue he => rw [he, ho]
  case isFalse => rfl

/-- One wait queue has another list. -/
theorem lists_queue {l : List T} (hh : q.headed heads = true)
    (hq : m'.queue = Function.update m.queue q l)
    (ho : ∀ t, (m'.thread t).ownedMutexes = (m.thread t).ownedMutexes) :
    m'.lists heads = Function.update (m.lists heads) (.waitq q) (some (l.map .waitNode)) := by
  funext a
  rw [Function.update_apply]
  cases a with
  | waitq q' =>
    simp only [Mem.lists, hq, Function.update_apply, Addr.waitq.injEq]
    by_cases he : q' = q
    · subst he
      simp only [hh, if_true]
    · simp only [he, if_false]
  | ownedMutexes => simp only [Mem.lists, ho, reduceCtorEq, if_false]
  | waitNode | ownerNode => rfl

/-- One thread owns other mutexes. -/
theorem lists_owned {l : List M} (hq : m'.queue = m.queue)
    (ho : ∀ u, (m'.thread u).ownedMutexes = if u = t then l else (m.thread u).ownedMutexes) :
    m'.lists heads =
      Function.update (m.lists heads) (.ownedMutexes t) (some (l.map .ownerNode)) := by
  funext a
  rw [Function.update_apply]
  cases a with
  | waitq => simp only [Mem.lists, hq, reduceCtorEq, if_false]
  | ownedMutexes u =>
    simp only [Mem.lists, ho, Addr.ownedMutexes.injEq]
    by_cases he : u = t
    · simp only [he, if_true]
    · simp only [he, if_false]
  | waitNode | ownerNode => rfl

section
omit [DecidableEq T] [DecidableEq M] [DecidableEq Q]

theorem lists_waitq (hh : q.headed heads = true) :
    m.lists heads (.waitq q) = some ((m.queue q).map .waitNode) := if_pos hh

theorem onNone_waitNode (ht : ∀ q, t ∉ m.queue q) :
    Family.OnNone (m.lists heads) (.waitNode t) := by
  refine ⟨rfl, fun {r l} hr hmem => ?_⟩
  cases r with
  | waitq q =>
    obtain ⟨-, hr⟩ := Option.ite_none_right_eq_some.mp hr
    cases hr
    obtain ⟨u, hu, he⟩ := List.mem_map.mp hmem
    cases he
    exact ht q hu
  | ownedMutexes u =>
    cases hr
    obtain ⟨_, -, he⟩ := List.mem_map.mp hmem
    cases he
  | waitNode | ownerNode => cases hr

theorem onNone_ownerNode (hmu : ∀ t, mu ∉ (m.thread t).ownedMutexes) :
    Family.OnNone (m.lists heads) (.ownerNode mu) := by
  refine ⟨rfl, fun {r l} hr hmem => ?_⟩
  cases r with
  | waitq q =>
    obtain ⟨-, hr⟩ := Option.ite_none_right_eq_some.mp hr
    cases hr
    obtain ⟨_, -, he⟩ := List.mem_map.mp hmem
    cases he
  | ownedMutexes u =>
    cases hr
    obtain ⟨mu', hmu', he⟩ := List.mem_map.mp hmem
    cases he
    exact hmu u hmu'
  | waitNode | ownerNode => cases hr

theorem onNone_waitq (hh : q.headed heads = false) :
    Family.OnNone (m.lists heads) (.waitq q) := by
  refine ⟨if_neg (by simp [hh]), fun {r l} hr hmem => ?_⟩
  cases r with
  | waitq q =>
    obtain ⟨-, hr⟩ := Option.ite_none_right_eq_some.mp hr
    cases hr
    obtain ⟨_, -, he⟩ := List.mem_map.mp hmem
    cases he
  | ownedMutexes u =>
    cases hr
    obtain ⟨_, -, he⟩ := List.mem_map.mp hmem
    cases he
  | waitNode | ownerNode => cases hr

end

/-- **The insertion where the loop breaks is the ordered one.** -/
theorem relists_insert (hh : q.headed heads = true) (ht : ∀ q, t ∉ m.queue q) :
    Relists (m.lists heads) (insertCalls m q t)
      ((osWaitqInsertPriorityLocked m q t).lists heads) := by
  have hqueue : (osWaitqInsertPriorityLocked m q t).queue =
      Function.update m.queue q ((m.queue q).orderedInsert
        (fun a b => osThreadGetPriority m b < osThreadGetPriority m a) t) := rfl
  have hstop : (fun a => !overtaken m t a) ∘ .waitNode =
      fun u => decide ¬ osThreadGetPriority m u < osThreadGetPriority m t :=
    funext fun u => decide_not.symm
  have hplace : Relists (m.lists heads) (insertCalls m q t) _ :=
    .place (lists_waitq hh) (onNone_waitNode ht)
  rw [List.takeWhile_map, List.dropWhile_map, hstop] at hplace
  rw [lists_queue hh hqueue fun _ => rfl, List.orderedInsert_eq_take_drop, List.map_append]
  exact hplace

/-- A thread is unlinked from the wait queue that it is on. -/
theorem relists_unlinkWait (h : QueueInv m) (hmem : t ∈ m.queue q) (hh : q.headed heads = true) :
    Relists (m.lists heads) [(.remove (.waitNode t), .void)] ((m.unlinkWait t).lists heads) := by
  obtain ⟨l₁, l₂, hl, hcut⟩ := h.cut hmem
  have hqueue : (m.unlinkWait t).queue = Function.update m.queue q (l₁ ++ l₂) := hcut
  rw [lists_queue hh hqueue fun _ => rfl, List.map_append]
  refine .remove_node ?_ rfl
  rw [lists_waitq hh, hl, List.map_append]
  rfl

/-- A mutex is unlinked from the list of its owner. -/
theorem relists_unlinkOwner (h : OwnerInv m) (hmem : mu ∈ (m.thread t).ownedMutexes) :
    Relists (m.lists heads) [(.remove (.ownerNode mu), .void)]
      ((m.unlinkOwner mu).lists heads) := by
  have hlocated : Located (fun t => (m.thread t).ownedMutexes) fun mu => (m.mutex mu).owner :=
    ⟨h.nodup, fun mu t => h.owned t mu⟩
  obtain ⟨l₁, l₂, hl, hcut⟩ := hlocated.cut hmem
  have howned (u) : ((m.unlinkOwner mu).thread u).ownedMutexes =
      if u = t then l₁ ++ l₂ else (m.thread u).ownedMutexes :=
    (congrFun hcut u).trans (Function.update_apply ..)
  have hqueue : (m.unlinkOwner mu).queue = m.queue := rfl
  rw [lists_owned hqueue howned, List.map_append]
  refine .remove_node ?_ rfl
  rw [Mem.lists, hl, List.map_append]
  rfl

/-- The head of a wait queue is removed, if there is one. -/
theorem relists_wake (hh : q.headed heads = true)
    (hqueue : m'.queue = Function.update m.queue q (m.queue q).tail)
    (howned : ∀ t, (m'.thread t).ownedMutexes = (m.thread t).ownedMutexes) :
    Relists (m.lists heads) (wakeCalls m q) (m'.lists heads) := by
  rw [lists_queue hh hqueue howned, List.map_tail]
  refine .pop (lists_waitq hh) fun a ha => ?_
  obtain ⟨_, -, rfl⟩ := List.mem_map.mp ha
  rfl

/-- A loop over a whole list. -/
theorem relists_loop {head : Addr T M Q} {nodes : List (Addr T M Q)}
    (hr : m.lists heads head = some nodes) :
    Relists (m.lists heads) [loopCall head nodes] (m.lists heads) := by
  have hscan (nodes seen : List (Addr T M Q)) :
      scan (visit fun _ => false) nodes seen = (seen ++ nodes, none) := by
    induction nodes generalizing seen with
    | nil => rw [List.append_nil]; rfl
    | cons a nodes ih =>
      simp only [scan, visit, ih, List.append_assoc]
      rfl
  have hloop : Relists (m.lists heads) [(.forEach head fun _ => false, _)] (m.lists heads) :=
    .forEach hr
  rw [hscan] at hloop
  exact hloop

theorem relists_computePriority
    (ho : ∀ t mu, mu ∈ (m.thread t).ownedMutexes → heads mu = true) :
    Relists (m.lists heads) (computePriorityCalls m t) (m.lists heads) := by
  rw [computePriorityCalls]
  split
  case isFalse => exact .nil
  case isTrue =>
    have howned : m.lists heads (.ownedMutexes t) =
        some ((m.thread t).ownedMutexes.map .ownerNode) := rfl
    refine (relists_loop howned).append ?_
    have hall := ho t
    generalize (m.thread t).ownedMutexes = owned at hall ⊢
    induction owned with
    | nil => exact .nil
    | cons mu owned ih =>
      have hmu : m.lists heads (.waitq (.mutex mu)) = _ :=
        lists_waitq (hall mu List.mem_cons_self)
      exact (relists_loop hmu).append (ih fun mu' hmu' => hall mu' (List.mem_cons_of_mem _ hmu'))

/-- A thread changes its place on the wait queue that it is on. -/
theorem relists_requeue (h : QueueInv m) (hmem : t ∈ m.queue q) (hh : q.headed heads = true) :
    Relists (m.lists heads)
      ((.remove (.waitNode t), .void) :: insertCalls (m.unlinkWait t) q t)
      ((osWaitqInsertPriorityLocked (m.unlinkWait t) q t).lists heads) := by
  refine (relists_unlinkWait h hmem hh).append (relists_insert hh fun q' hmem' => ?_)
  rw [Mem.unlinkWait_queue, (h.nodup q').mem_erase_iff] at hmem'
  exact hmem'.1 rfl

/-- The mutexes that the calls reach through the threads have a head. -/
structure Headed (heads : M → Bool) (m : Mem T M Q) : Prop where
  owned : ∀ t mu, mu ∈ (m.thread t).ownedMutexes → heads mu = true
  waiting : ∀ t mu, (m.thread t).waitingMutex = some mu → heads mu = true

omit [DecidableEq T] [DecidableEq M] [DecidableEq Q] in
theorem Headed.congr (h : Headed heads m) (ht : m'.thread = m.thread) : Headed heads m' :=
  ⟨ht ▸ h.owned, ht ▸ h.waiting⟩

omit [DecidableEq M] [DecidableEq Q] in
theorem updatePriority_lists :
    (osMutexUpdatePriority port m t).lists heads = m.lists heads := by
  obtain ⟨_, he⟩ := updatePriority_eq port m t
  rw [he]
  rfl

/-- **The calls of the chain walk.** -/
theorem relists_updatePiChain (h : QueueInv m) (hh : Headed heads m) (start : Option T) :
    Relists (m.lists heads) (updatePiChainCalls port m start)
      ((osMutexUpdatePiChainLocked port m start).lists heads) := by
  rw [updatePiChainCalls, osMutexUpdatePiChainLocked]
  generalize OS_PI_MAX_CHAIN_DEPTH = rounds
  generalize ([] : List T) = visited
  induction rounds generalizing visited m start with
  | zero => exact .nil
  | succ rounds ih =>
    cases start with
    | none => exact .nil
    | some t =>
      rw [updatePiChainCallsFrom, osMutexUpdatePiChainFrom]
      split
      case isTrue => exact .nil
      case isFalse =>
        refine (relists_computePriority hh.owned).append ?_
        have hlists : m.lists heads = (osMutexUpdatePriority port m t).lists heads :=
          updatePriority_lists.symm
        rw [hlists]
        obtain ⟨uxPriority, he⟩ := updatePriority_eq port m t
        generalize osMutexUpdatePriority port m t = m₁ at he
        have h₁ : QueueInv m₁ := h.perm (fun _ => by rw [he]) (by rw [he])
        have hh₁ : Headed heads m₁ := hh.congr (by rw [he])
        dsimp only
        cases hup : (m₁.thread t).waitingMutex with
        | none => exact .nil
        | some upstream =>
          have hmem := h₁.waiting_mem.mp hup
          refine (relists_requeue h₁ hmem (hh₁.waiting t upstream hup)).append ?_
          exact ih (h₁.perm (requeue_perm h₁ hmem) rfl) (hh₁.congr rfl) _ _

omit [DecidableEq T] [DecidableEq M] [DecidableEq Q] in
theorem Headed.of_le (h : Headed heads m)
    (ho : ∀ u mu, mu ∈ (m'.thread u).ownedMutexes → mu ∈ (m.thread u).ownedMutexes)
    (hw : ∀ u mu, (m'.thread u).waitingMutex = some mu → (m.thread u).waitingMutex = some mu) :
    Headed heads m' :=
  ⟨fun u mu hmu => h.owned u mu (ho u mu hmu), fun u mu hmu => h.waiting u mu (hw u mu hmu)⟩

omit [DecidableEq M] [DecidableEq Q] in
/-- The mutexes and the wait queue of one thread change, and a mutex that it waits for then has a
head. -/
theorem Headed.setThread {v : OsThread M Q} (h : Headed heads m)
    (ht : m'.thread = Function.update m.thread t v)
    (ho : ∀ mu, mu ∈ v.ownedMutexes → heads mu = true)
    (hw : ∀ mu, v.waitingMutex = some mu → heads mu = true) : Headed heads m' := by
  refine ⟨fun u mu hmu => ?_, fun u mu hmu => ?_⟩
  all_goals
    rw [ht, Function.update_apply] at hmu
    split at hmu
  · exact ho mu hmu
  · exact h.owned u mu hmu
  · exact hw mu hmu
  · exact h.waiting u mu hmu

theorem Headed.mutexWakeHead (h : Headed heads m) : Headed heads (osMutexWakeHead m mu) := by
  rcases mutexWakeHead_cases m mu with he | ⟨t, rest, -, hs⟩
  · rwa [he]
  · have hpop : Headed heads ((m.setQueue (.mutex mu) rest).setThread t { m.thread t with
        waitQ := none, waitingMutex := none, waitResult := 0, state := .ready }) :=
      h.setThread rfl (h.owned t) fun _ hw => by cases hw
    refine hpop.of_le (fun u mu' hmu' => ?_) fun u mu' hmu' => ?_
    · rwa [hs.ownedMutexes] at hmu'
    · rwa [hs.waitingMutex] at hmu'

/-- A thread that is on no wait queue joins one. -/
theorem relists_join {v : OsThread M Q} (hh : q.headed heads = true) (ht : ∀ q, t ∉ m.queue q)
    (hv : v.handle = (m.thread t).handle) (ho : v.ownedMutexes = (m.thread t).ownedMutexes) :
    Relists (m.lists heads) (insertCalls m q t)
      ((osWaitqInsertPriorityLocked ((m.forget t).setThread t v) q t).lists heads) := by
  have hpriority : osThreadGetPriority ((m.forget t).setThread t v) = osThreadGetPriority m :=
    (getPriority_setThread hv).trans (getPriority_congr rfl fun _ => rfl)
  have hlists : (osWaitqInsertPriorityLocked ((m.forget t).setThread t v) q t).lists heads =
      (osWaitqInsertPriorityLocked m q t).lists heads := by
    refine lists_congr ?_ fun u => ?_
    · rw [osWaitqInsertPriorityLocked, osWaitqInsertPriorityLocked, hpriority]
      rfl
    · rw [osWaitqInsertPriorityLocked, Mem.setQueue_thread, Mem.setThread_thread,
        Function.update_apply]
      split
      case isTrue he => rw [he, ho]; rfl
      case isFalse => rfl
  rw [hlists]
  exact relists_insert hh ht

/-- A thread leaves its wait queue. -/
theorem relists_leave {v : OsThread M Q} (h : QueueInv m) (hmem : t ∈ m.queue q)
    (hh : q.headed heads = true) (ho : v.ownedMutexes = (m.thread t).ownedMutexes) :
    Relists (m.lists heads) [(.remove (.waitNode t), .void)]
      (((m.unlinkWait t).setThread t v).lists heads) := by
  have hlists : ((m.unlinkWait t).setThread t v).lists heads = (m.unlinkWait t).lists heads :=
    lists_setThread ho
  rw [hlists]
  exact relists_unlinkWait h hmem hh

/-- The lists once the head of a wait queue is removed. -/
theorem pop_lists {v : OsThread M Q} {rest : List T} (hl : m.queue q = t :: rest)
    (ho : v.ownedMutexes = (m.thread t).ownedMutexes)
    (hs : SameSync ((m.setQueue q rest).setThread t v) m') :
    m'.queue = Function.update m.queue q (m.queue q).tail ∧
      ∀ u, (m'.thread u).ownedMutexes = (m.thread u).ownedMutexes := by
  refine ⟨?_, fun u => ?_⟩
  · rw [hs.queue, hl]
    rfl
  · rw [hs.ownedMutexes, Mem.setThread_thread, Function.update_apply]
    split
    case isTrue he => rw [he, ho]
    case isFalse => rfl

theorem relists_mutexWakeHead (hh : heads mu = true) :
    Relists (m.lists heads) (wakeCalls m (.mutex mu)) ((osMutexWakeHead m mu).lists heads) := by
  have hlists : (osMutexWakeHead m mu).queue =
        Function.update m.queue (.mutex mu) (m.queue (.mutex mu)).tail ∧
      ∀ u, ((osMutexWakeHead m mu).thread u).ownedMutexes = (m.thread u).ownedMutexes := by
    rw [osMutexWakeHead]
    split
    case h_1 hl => exact ⟨by rw [hl, List.tail_nil, ← hl, Function.update_eq_self], fun _ => rfl⟩
    case h_2 t rest hl =>
      exact pop_lists hl (by rfl) (SameSync.trans .osWaitqNotifyThreadLocked .remove)
  exact relists_wake hh hlists.1 hlists.2

theorem relists_waitqWakeHead {q : Q} {reason : UInt32} :
    Relists (m.lists heads) (wakeCalls m (.plain q))
      ((osWaitqWakeHead m q reason).lists heads) := by
  have hlists : (osWaitqWakeHead m q reason).queue =
        Function.update m.queue (.plain q) (m.queue (.plain q)).tail ∧
      ∀ u, ((osWaitqWakeHead m q reason).thread u).ownedMutexes = (m.thread u).ownedMutexes := by
    rw [osWaitqWakeHead]
    split
    case h_1 hl => exact ⟨by rw [hl, List.tail_nil, ← hl, Function.update_eq_self], fun _ => rfl⟩
    case h_2 t rest hl =>
      exact pop_lists hl (by rfl) (SameSync.trans .osWaitqNotifyThreadLocked .remove)
  exact relists_wake rfl hlists.1 hlists.2

/-- The loop of `os_waitq_wake_all` ends with a test that finds no waiter. -/
theorem relists_wakeAll {q : Q} {reason : UInt32} :
    Relists (m.lists heads) (wakeAllCalls q reason (m.queue (.plain q)).length m)
      ((osWaitqWakeAll m q reason).lists heads) := by
  rw [osWaitqWakeAll]
  generalize hn : (m.queue (.plain q)).length = n
  induction n generalizing m with
  | zero =>
    have hl := List.eq_nil_of_length_eq_zero hn
    have hwake : Relists (m.lists heads) (wakeCalls m (.plain q))
        ((osWaitqWakeHead m q reason).lists heads) := relists_waitqWakeHead
    have hsame : osWaitqWakeHead m q reason = m := by rw [osWaitqWakeHead, hl]
    rw [hsame] at hwake
    exact hwake
  | succ n ih =>
    refine relists_waitqWakeHead.append (ih ?_)
    cases hl : m.queue (.plain q) with
    | nil => rw [hl] at hn; cases hn
    | cons t rest =>
      rw [(waitqWakeHead_of_cons hl).1]
      rw [hl] at hn
      exact Nat.succ.inj hn

/-! ## The critical sections -/

/-- A thread acquires a free mutex. -/
theorem relists_acquire (h : OwnerInv m) (ho : (m.mutex mu).owner = none) :
    Relists (m.lists heads) [(.append (.ownedMutexes t) (.ownerNode mu), .void)]
      ((osMutexAcquire (m.forget t) t mu).lists heads) := by
  have hqueue : (osMutexAcquire (m.forget t) t mu).queue = m.queue := rfl
  have howned (u) : ((osMutexAcquire (m.forget t) t mu).thread u).ownedMutexes =
      if u = t then (m.thread t).ownedMutexes ++ [mu] else (m.thread u).ownedMutexes := by
    simp only [osMutexAcquire, Mem.recordLock_thread, Mem.setThread_thread, Mem.setMutex_thread,
      Mem.forget_thread, Function.update_apply]
    split <;> rfl
  rw [lists_owned hqueue howned, List.map_append]
  refine .append_node rfl (onNone_ownerNode fun u hmu => ?_)
  rw [h.owned, ho] at hmu
  cases hmu

omit [DecidableEq T] [DecidableEq M] [DecidableEq Q] in
theorem QueueInv.notMem (h : QueueInv m) (ht : (m.thread t).waitQ = none) (q : WaitQ M Q) :
    t ∉ m.queue q := by
  rw [h.mem, ht]
  exact (Option.some_ne_none q).symm

/-- A thread queues up for a mutex. -/
theorem relists_enqueue (h : QueueInv m) (hh : Headed heads m) (hmu : heads mu = true)
    (ht : (m.thread t).waitQ = none) :
    Relists (m.lists heads)
      (insertCalls m (.mutex mu) t ++
        updatePiChainCalls port (osMutexLink (m.forget t) t mu) (m.mutex mu).owner)
      ((osMutexEnqueue port (m.forget t) t mu).lists heads) := by
  have hq : (WaitQ.mutex mu : WaitQ M Q).headed heads = true := hmu
  have hlink : Relists (m.lists heads) (insertCalls m (.mutex mu) t)
      ((osMutexLink (m.forget t) t mu).lists heads) :=
    relists_join hq (h.notMem ht) (by rfl) (by rfl)
  have hh' : Headed heads (osMutexLink (m.forget t) t mu) :=
    hh.setThread rfl (hh.owned t) fun mu' he => Option.some.inj he ▸ hmu
  exact hlink.append (relists_updatePiChain (h.mutexLink ht mu) hh' _)

/-- A thread gives up waiting for a mutex. -/
theorem relists_abandon (h : QueueInv m) (hh : Headed heads m) (hmu : heads mu = true)
    (ht : (m.thread t).waitQ = some (.mutex mu)) :
    Relists (m.lists heads)
      ((.remove (.waitNode t), .void) ::
        updatePiChainCalls port (osMutexUnlink m t) (m.mutex mu).owner)
      ((osMutexAbandon port m t mu).lists heads) := by
  have hunlink : Relists (m.lists heads) [(.remove (.waitNode t), .void)]
      ((osMutexUnlink m t).lists heads) :=
    relists_leave h ((h.mem t _).mpr ht) hmu (by rfl)
  have hh' : Headed heads (osMutexUnlink m t) :=
    hh.setThread rfl (hh.owned t) fun _ he => by cases he
  exact hunlink.append (relists_updatePiChain (h.mutexUnlink t) hh' _)

theorem relists_release (h : QueueInv m) (ho : OwnerInv m) (hh : Headed heads m)
    (hmu : (m.mutex mu).owner = some t) :
    Relists (m.lists heads)
      ((.remove (.ownerNode mu), .void) :: wakeCalls (osMutexDisown m mu) (.mutex mu) ++
        updatePiChainCalls port (osMutexWakeHead (osMutexDisown m mu) mu) (some t))
      ((osMutexRelease port m t mu).lists heads) := by
  have hmem := (ho.owned t mu).mpr hmu
  have hdisown : (osMutexDisown m mu).lists heads = (m.unlinkOwner mu).lists heads :=
    lists_congr rfl fun _ => rfl
  have hunlink : Relists (m.lists heads) _ ((m.unlinkOwner mu).lists heads) :=
    relists_unlinkOwner ho hmem
  rw [← hdisown] at hunlink
  have hh' : Headed heads (osMutexDisown m mu) :=
    hh.of_le (fun u mu' hmu' => List.mem_of_mem_erase hmu') fun _ _ => id
  refine (hunlink.append (relists_mutexWakeHead (hh.owned t mu hmem))).append ?_
  exact relists_updatePiChain (h.disown mu).mutexWakeHead hh'.mutexWakeHead _

/-- A thread on a plain wait queue changes its place. -/
theorem relists_replace (h : QueueInv m)
    (hq : ∀ q, (m.thread t).waitQ = some q → q.headed heads = true) :
    Relists (m.lists heads)
      (match (m.thread t).waitQ, (m.thread t).waitingMutex with
        | some q, none => (.remove (.waitNode t), .void) :: insertCalls (m.unlinkWait t) q t
        | _, _ => [])
      ((match (m.thread t).waitQ, (m.thread t).waitingMutex with
        | some q, none => osWaitqInsertPriorityLocked (m.unlinkWait t) q t
        | _, _ => m).lists heads) := by
  cases hw : (m.thread t).waitQ with
  | none => exact .nil
  | some q =>
    cases hmu : (m.thread t).waitingMutex with
    | none => exact relists_requeue h ((h.mem t q).mpr hw) (hq q hw)
    | some mu => exact .nil

/-- The base priority of a thread changes, and its place with it. -/
theorem relists_setPriority {priority : Int} (h : QueueInv m) (hh : Headed heads m)
    (hq : ∀ q, (m.thread t).waitQ = some q → q.headed heads = true) :
    Relists (m.lists heads) (setPriorityCalls port m t priority)
      ((osThreadSetPriorityCritical port m t priority).lists heads) := by
  have hbase : (m.setThread t { m.thread t with basePriority := priority }).lists heads =
      m.lists heads := lists_setThread (by rfl)
  have hh' : Headed heads (m.setThread t { m.thread t with basePriority := priority }) :=
    hh.setThread rfl (hh.owned t) (hh.waiting t)
  have hinv := h.setBase t priority
  have hwalk : Relists _ (updatePiChainCalls port _ (some t)) _ :=
    relists_updatePiChain hinv hh' (some t)
  rw [hbase] at hwalk
  refine hwalk.append (relists_replace (hinv.updatePiChain port _) fun q hwait => hq q ?_)
  rw [updatePiChain_thread, Mem.setThread_thread, Function.update_self] at hwait
  exact hwait

/-- A thread that is aborted on a wait queue. -/
theorem relists_abort (h : QueueInv m) (hh : Headed heads m)
    (hq : ∀ q, (m.thread t).waitQ = some q → q.headed heads = true) :
    Relists (m.lists heads) (abortCalls port m t)
      ((osThreadAbortCritical port m t).1.lists heads) := by
  have hmark {m' : Mem T M Q} : (osThreadAbortMark m' t).lists heads = m'.lists heads :=
    lists_setThread (by rfl)
  have hempty : Relists (m.lists heads)
      [(.isEmpty (.ownedMutexes t), .bool (m.thread t).ownedMutexes.isEmpty)] (m.lists heads) := by
    have hlist : m.lists heads (.ownedMutexes t) =
        some ((m.thread t).ownedMutexes.map .ownerNode) := rfl
    have hempty := Relists.isEmpty hlist
    rwa [List.isEmpty_map] at hempty
  rw [abortCalls, osThreadAbortCritical]
  by_cases hc : (m.thread t).completed
  · rw [if_pos hc, if_pos hc]
    exact .nil
  · by_cases ho : (m.thread t).ownedMutexes = []
    · by_cases hw : (m.thread t).waitQ = none
      · rw [if_neg hc, if_neg hc, if_pos (.inr hw), if_neg (not_not.mpr ho),
          if_neg (not_not.mpr hw), hmark]
        exact hempty
      · obtain ⟨q, hwait⟩ := Option.ne_none_iff_exists'.mp hw
        have hunlink : Relists (m.lists heads) [(.remove (.waitNode t), .void)]
            ((osThreadAbortUnlink m t).lists heads) :=
          relists_leave h ((h.mem t q).mpr hwait) (hq q hwait) (by rfl)
        have hh' : Headed heads (osThreadAbortUnlink m t) :=
          hh.setThread rfl (hh.owned t) fun _ he => by cases he
        rw [if_neg hc, if_neg hc, if_neg (not_or.mpr ⟨not_not.mpr ho, hw⟩), if_neg (not_not.mpr ho),
          if_pos hw, hmark]
        exact hempty.append (hunlink.append (relists_updatePiChain (h.abortUnlink t) hh' _))
    · rw [if_neg hc, if_neg hc, if_pos (.inl ho), if_pos ho]
      exact hempty

/-- A round of `os_mutex_lock` takes the mutex, returns without a change, or queues the thread. -/
theorem lockTry_sections (port : Port) (m : Mem T M Q) (t : T) (mu : M) (timeout : UInt32)
    (start : Nat) :
    ((m.mutex mu).owner = none ∧
      osMutexLockTry port m t mu timeout start = (osMutexAcquire (m.forget t) t mu, .ret 0)) ∨
    ((m.mutex mu).owner ≠ none ∧ ∃ m' result,
      osMutexLockTry port m t mu timeout start = (m', .ret result) ∧
        (m' = m.forget t ∨ m' = osMutexRecurse (m.forget t) t mu)) ∨
    ∃ remaining, osMutexLockTry port m t mu timeout start =
      (osMutexEnqueue port (m.forget t) t mu, .wait remaining) := by
  simp only [osMutexLockTry, Mem.forget_mutex]
  split
  case isTrue ho => exact .inl ⟨ho, rfl⟩
  case isFalse ho =>
    split
    case isTrue => exact .inr (.inl ⟨ho, _, _, rfl, .inr rfl⟩)
    case isFalse =>
      split
      case isTrue => exact .inr (.inl ⟨ho, _, _, rfl, .inl rfl⟩)
      case isFalse =>
        split
        case isTrue => exact .inr (.inl ⟨ho, _, _, rfl, .inl rfl⟩)
        case isFalse =>
          split
          case isTrue => exact .inr (.inr ⟨_, rfl⟩)
          case isFalse =>
            split
            case isTrue => exact .inr (.inl ⟨ho, _, _, rfl, .inl rfl⟩)
            case isFalse => exact .inr (.inr ⟨_, rfl⟩)

theorem relists_lockTry {timeout : UInt32} {start : Nat} (h : QueueInv m) (ho : OwnerInv m)
    (hh : Headed heads m) (hmu : heads mu = true) (ht : (m.thread t).waitQ = none) :
    Relists (m.lists heads) (lockTryCalls port m t mu timeout start)
      ((osMutexLockTry port m t mu timeout start).1.lists heads) := by
  rw [lockTryCalls]
  rcases lockTry_sections port m t mu timeout start with
    ⟨howner, he⟩ | ⟨howner, m', result, he, hm'⟩ | ⟨remaining, he⟩
  · rw [he]
    dsimp only
    rw [if_pos howner]
    exact relists_acquire ho howner
  · rw [he]
    dsimp only
    rw [if_neg howner]
    rcases hm' with rfl | rfl
    · exact .of_eq (lists_congr rfl fun _ => rfl).symm
    · exact .of_eq (lists_congr rfl fun _ => rfl).symm
  · rw [he]
    exact relists_enqueue h hh hmu ht

theorem relists_lockFinish {notified : Bool} (h : QueueInv m) (hh : Headed heads m)
    (ht : ∀ q, (m.thread t).waitQ = some q → some (.mutex mu) = some q) :
    Relists (m.lists heads) (lockFinishCalls port m t mu)
      ((osMutexLockFinish port m t mu notified).1.lists heads) := by
  rw [lockFinishCalls, osMutexLockFinish]
  by_cases hw : (m.thread t).waitQ = none
  · rw [if_neg (not_not.mpr hw), if_neg (not_not.mpr hw)]
    exact .of_eq (lists_setThread (by rfl)).symm
  · obtain ⟨q, hq⟩ := Option.ne_none_iff_exists'.mp hw
    cases ht q hq
    rw [if_pos hw, if_pos hw]
    exact relists_abandon h hh (hh.waiting t mu ((h.waiting t mu).mpr hq)) hq

theorem relists_blockFinish {notified : Bool} {notify : UInt32} (h : QueueInv m)
    (hh : ∀ q, (m.thread t).waitQ = some q → q.headed heads = true) :
    Relists (m.lists heads)
      (if (m.thread t).waitQ ≠ none then [(.remove (.waitNode t), .void)] else [])
      ((osWaitqBlockFinish m t notified notify).1.lists heads) := by
  rw [osWaitqBlockFinish]
  by_cases hw : (m.thread t).waitQ = none
  · rw [if_neg (not_not.mpr hw), if_neg (not_not.mpr hw)]
    exact .of_eq (lists_setThread (by rfl)).symm
  · obtain ⟨q, hq⟩ := Option.ne_none_iff_exists'.mp hw
    rw [if_pos hw, if_pos hw]
    exact relists_leave h ((h.mem t q).mpr hq) (hh q hq) (by rfl)

theorem relists_unlock (h : QueueInv m) (ho : OwnerInv m) (hh : Headed heads m) :
    Relists (m.lists heads) (unlockCalls port m t mu)
      ((osMutexUnlockCritical port m t mu).1.lists heads) := by
  rw [unlockCalls, osMutexUnlockCritical]
  dsimp only
  by_cases howner : (m.mutex mu).owner = some t
  · by_cases hcount : (m.mutex mu).lockCount = 0
    · rw [if_pos (.inr (.inl hcount)), if_neg (not_not.mpr howner), if_pos hcount]
      exact .nil
    · by_cases hnested : (m.mutex mu).lockCount - 1 > 0
      · rw [if_pos (.inr (.inr hnested)), if_neg (not_not.mpr howner), if_neg hcount,
          if_pos hnested]
        exact .of_eq (lists_congr rfl fun _ => rfl).symm
      · rw [if_neg (by simp only [not_or, not_not]; exact ⟨howner, hcount, hnested⟩),
          if_neg (not_not.mpr howner), if_neg hcount, if_neg hnested]
        have hrecord : ((osMutexRelease port m t mu).recordUnlock t mu).lists heads =
            (osMutexRelease port m t mu).lists heads := lists_congr rfl fun _ => rfl
        rw [hrecord]
        exact relists_release h ho hh howner
  · rw [if_pos (.inl howner), if_pos howner]
    exact .nil

theorem relists_deinit (hmu : heads mu = true) :
    Relists (m.lists heads)
      (if (m.mutex mu).owner ≠ none then []
        else [(.isEmpty (.waitq (.mutex mu)), .bool (m.queue (.mutex mu)).isEmpty)])
      ((osMutexDeinitCritical m mu).1.lists heads) := by
  have hlist : m.lists heads (.waitq (.mutex mu)) = _ := lists_waitq hmu
  have hempty := Relists.isEmpty hlist
  rw [List.isEmpty_map] at hempty
  have hlists : (osMutexDeinitCritical m mu).1.lists heads = m.lists heads := by
    rw [osMutexDeinitCritical]
    split
    · rfl
    · exact lists_congr rfl fun _ => rfl
  rw [hlists]
  split
  case isTrue => exact .nil
  case isFalse => exact hempty

/-- The `memset` of `os_mutex_deinit`. -/
theorem relists_zero (h : OwnerInv m) (ho : (m.mutex mu).owner = none)
    (hq : m.queue (.mutex mu) = []) :
    Relists (m.lists heads)
      [(.nodeInit (.waitq (.mutex mu)), .void), (.nodeInit (.ownerNode mu), .void)]
      ((osMutexDeinitZero m mu).lists (Function.update heads mu false)) := by
  have hlists : (osMutexDeinitZero m mu).lists (Function.update heads mu false) =
      Function.update (m.lists heads) (.waitq (.mutex mu)) none := by
    funext a
    rw [Function.update_apply]
    cases a with
    | waitq q =>
      cases q with
      | mutex mu' =>
        simp only [Mem.lists, WaitQ.headed, osMutexDeinitZero, Mem.setQueue_queue,
          Function.update_apply, Addr.waitq.injEq, WaitQ.mutex.injEq]
        by_cases he : mu' = mu
        · simp only [he, if_true, Bool.false_eq_true, if_false]
        · simp only [he, if_false]
          rfl
      | plain q => rfl
    | ownedMutexes | waitNode | ownerNode => rfl
  have hnode : Family.OnNone (Function.update (m.lists heads) (.waitq (.mutex mu)) none)
      (.ownerNode mu) := by
    rw [← hlists]
    refine onNone_ownerNode fun t hmu => ?_
    have howner := (h.owned t mu).mp hmu
    rw [ho] at howner
    cases howner
  have hclear : Relists (m.lists heads) [(.nodeInit (.waitq (.mutex mu)), .void)]
      (Function.update (m.lists heads) (.waitq (.mutex mu)) none) := by
    refine .clear ?_
    cases hh : heads mu with
    | true =>
      have hlist : m.lists heads (.waitq (.mutex mu)) = _ := lists_waitq hh
      exact .inl (by rw [hlist, hq]; rfl)
    | false => exact .inr (onNone_waitq hh)
  rw [hlists]
  refine hclear.append ?_
  have hsame : Function.update (Function.update (m.lists heads) (.waitq (.mutex mu)) none)
      (.ownerNode mu) none = Function.update (m.lists heads) (.waitq (.mutex mu)) none :=
    Function.update_eq_self_iff.mpr hnode.node.symm
  have hsecond := Relists.clear (.inr hnode)
  rwa [hsame] at hsecond

end

/-! ## The whole system -/

section
variable {port : Port} {prio : T → Int} {s s' : State T M Q N} {a : Act T M Q N}
  {heads : M → Bool} {c : Caller T N} {m' : Mem T M Q} {p' : Pc T M Q}

/-- No `os_mutex_deinit` takes effect under a call of `os_mutex_lock`, or goes on with a mutex that
another one has deinitialized. -/
def SoleDeinit (s : State T M Q N) (a : Act T M Q N) : Prop :=
  SafeDeinit s a ∧
    ∀ c mu, a = .step c → s.call c = .deinitLock mu → (s.mem.mutex mu).initialized = true

omit [DecidableEq T] [DecidableEq M] [DecidableEq Q] [DecidableEq N] in
theorem SyncInv.initialized_of_waitQ (h : SyncInv s) {t : T} {mu : M}
    (ht : (s.mem.thread t).waitQ = some (.mutex mu)) : (s.mem.mutex mu).initialized = true := by
  by_contra hi
  exact (h.idle mu (Bool.eq_false_iff.mpr hi)).2 t ht

omit [DecidableEq T] [DecidableEq M] [DecidableEq Q] [DecidableEq N] in
theorem SyncInv.headed (h : SyncInv s)
    (hheads : ∀ mu, (s.mem.mutex mu).initialized = true → heads mu = true) :
    Headed heads s.mem := by
  refine ⟨fun t mu hmu => hheads mu ?_, fun t mu hmu => hheads mu ?_⟩
  · by_contra hi
    have howner := (h.owners.owned t mu).mp hmu
    rw [(h.idle mu (Bool.eq_false_iff.mpr hi)).1] at howner
    cases howner
  · exact h.initialized_of_waitQ ((h.queues.waiting t mu).mp hmu)

omit [DecidableEq T] [DecidableEq M] [DecidableEq Q] [DecidableEq N] in
theorem SyncInv.headed_waitQ (h : SyncInv s)
    (hheads : ∀ mu, (s.mem.mutex mu).initialized = true → heads mu = true) {t : T}
    {q : WaitQ M Q} (ht : (s.mem.thread t).waitQ = some q) : q.headed heads = true := by
  cases q with
  | mutex mu => exact hheads mu (h.initialized_of_waitQ ht)
  | plain => rfl

omit [DecidableEq N] in
/-- **A step of a call keeps the contract.** -/
theorem SyncInv.relists_call (h : SyncInv s)
    (hheads : ∀ mu, (s.mem.mutex mu).initialized = true → heads mu = true) (ha : s.alive c)
    (hok : SoleDeinit s (.step c)) (hz : ∀ mu, s.call c ≠ .deinitZero mu)
    (hs : FreeRtos.callStep port c s.mem (s.call c) = some (m', p')) :
    Relists (s.mem.lists heads) (callCalls port c s.mem (s.call c)) (m'.lists heads) := by
  have hh := h.headed hheads
  have hlive {t} (hc : c.current = some t) : s.mem.deleted t = false := by
    have ha' := ha
    rw [State.alive, hc] at ha'
    simpa using ha'
  have hfree {t} (hc : c.current = some t) (hp : (s.call c).waitsOn = none) :
      (s.mem.thread t).waitQ = none :=
    h.waitQ_eq_none (Caller.current_eq_some hc ▸ hp)
  have hcalls {t q} (hc : c.current = some t) (hq : (s.mem.thread t).waitQ = some q) :
      (s.call c).waitsOn = some q := Caller.current_eq_some hc ▸ h.calls t q hq
  have hlocking {t mu} (hc : c.current = some t) (hp : (s.call c).locking = some mu) :
      heads mu = true := by
    refine hheads mu ?_
    by_contra hi
    exact h.unused mu (Bool.eq_false_iff.mpr hi) t (hlive hc) (Caller.current_eq_some hc ▸ hp)
  have hdeinit (mu) := hok.2 c mu rfl
  generalize s.call c = p at hs hz hfree hcalls hlocking hdeinit ⊢
  cases p with
  | lockTry mu timeout start =>
    obtain ⟨t, hc, hs⟩ := Option.map_eq_some_iff.mp hs
    cases hs
    rw [callCalls, hc]
    exact relists_lockTry h.queues h.owners hh (hlocking hc rfl) (hfree hc rfl)
  | lockFinish mu timeout start notified =>
    obtain ⟨t, hc, hs⟩ := Option.map_eq_some_iff.mp hs
    cases hs
    rw [callCalls, hc]
    exact relists_lockFinish h.queues hh fun q => hcalls hc
  | unlockLock mu =>
    obtain ⟨t, hc, hs⟩ := Option.map_eq_some_iff.mp hs
    cases hs
    rw [callCalls, hc]
    exact relists_unlock h.queues h.owners hh
  | deinitLock mu =>
    cases hs
    exact relists_deinit (hheads mu (hdeinit mu rfl))
  | deinitZero mu => exact absurd rfl (hz mu)
  | blockLock q timeout =>
    obtain ⟨t, hc, hs⟩ := Option.map_eq_some_iff.mp hs
    cases hs
    rw [callCalls, hc]
    exact relists_join (q := .plain q) rfl (h.queues.notMem (hfree hc rfl)) (by rfl) (by rfl)
  | blockFinish q timeout began notified notify =>
    obtain ⟨t, hc, hs⟩ := Option.map_eq_some_iff.mp hs
    cases hs
    rw [callCalls, hc]
    exact relists_blockFinish h.queues fun q => h.headed_waitQ hheads
  | wakeOneLock q reason =>
    cases hs
    exact relists_waitqWakeHead
  | wakeAllLock q reason =>
    cases hs
    exact relists_wakeAll
  | setPriorityLock t priority =>
    cases hs
    exact relists_setPriority h.queues hh fun q => h.headed_waitQ hheads
  | abortLock t =>
    cases hs
    exact relists_abort h.queues hh fun q => h.headed_waitQ hheads
  | exitComplete =>
    obtain ⟨t, -, hs⟩ := Option.map_eq_some_iff.mp hs
    cases hs
    exact .of_eq (lists_setThread (by rfl)).symm
  | _ =>
    cases callStep_effect hs with
    | same hsame => exact .of_eq (lists_congr hsame.sync.queue hsame.sync.ownedMutexes).symm
    | delete => exact .of_eq (lists_congr rfl fun _ => rfl).symm

/-- The lists of a state, whose mutexes still have a list when they are initialized. -/
def Listed (s : State T M Q N) (lists : Addr T M Q → Option (List (Addr T M Q))) : Prop :=
  ∃ heads : M → Bool, lists = s.mem.lists heads ∧
    ∀ mu, (s.mem.mutex mu).initialized = true → heads mu = true

theorem relists_step {lists : Addr T M Q → Option (List (Addr T M Q))} (h : SyncInv s)
    (hok : SoleDeinit s a) (hs : (system port prio).step s a = some s') (hl : Listed s lists) :
    ∃ lists', Listed s' lists' ∧ Relists lists (actCalls port s a) lists' := by
  obtain ⟨heads, rfl, hheads⟩ := hl
  cases step_cases hs with
  | @step c m' p' ha hstep =>
    have hinit (mu) (hi : (m'.mutex mu).initialized = true) :
        (s.mem.mutex mu).initialized = true := by
      rcases (callStep_effect hstep).mutexes.initialized mu with he | ⟨he, -⟩
      · rw [← he, hi]
      · rw [he] at hi
        cases hi
    by_cases hz : ∃ mu, s.call c = .deinitZero mu
    · obtain ⟨mu, hmu⟩ := hz
      have hidle := h.zeroing c mu hmu
      refine ⟨m'.lists (Function.update heads mu false), ⟨_, rfl, fun mu' hi => ?_⟩, ?_⟩
      · rw [Function.update_apply]
        split
        case isTrue he =>
          have hi := hinit mu' hi
          rw [he, hidle] at hi
          cases hi
        case isFalse => exact hheads mu' (hinit mu' hi)
      · rw [actCalls, hmu]
        rw [hmu] at hstep
        cases hstep
        exact relists_zero h.owners (h.idle mu hidle).1 (h.queue_nil hidle)
    · exact ⟨m'.lists heads, ⟨heads, rfl, fun mu hi => hheads mu (hinit mu hi)⟩,
        h.relists_call hheads ha hok (fun mu hmu => hz ⟨mu, hmu⟩) hstep⟩
  | call | expire | tick => exact ⟨_, ⟨heads, rfl, hheads⟩, .nil⟩

/-- **The lists of the wait queues and of the owned mutexes run on the heap.** As long as
`os_mutex_deinit` takes effect on initialized mutexes that nobody is about to lock, no call of
the critical sections follows a null pointer, and every one returns what the queues of the model
hold. A thread's node is linked exactly while it is on a wait queue, a mutex's exactly while it has
an owner. -/
theorem wait_queue_nodes_safe {h : Links (Addr T M Q)} {s₀ : State T M Q N}
    {r : State T M Q N × List _} (h₀ : Init port prio s₀)
    (hheads : ∀ mu, (s₀.mem.mutex mu).initialized = true → heads mu = true)
    (hinit : h.Holds (s₀.mem.lists heads))
    (hr : Run ((system port prio).recording (actCalls port)) (fun r a => SoleDeinit r.1 a)
      (s₀, []) r) :
    ∃ h' heads', Executes h r.2 h' ∧ h'.Holds (r.1.mem.lists heads') ∧
      (∀ mu, (r.1.mem.mutex mu).initialized = true → heads' mu = true) ∧
      (∀ t, sysDnodeIsLinked h' (.waitNode t) = (r.1.mem.thread t).waitQ.isSome) ∧
      ∀ mu, sysDnodeIsLinked h' (.ownerNode mu) = (r.1.mem.mutex mu).owner.isSome := by
  have hsync {s : State T M Q N} (hs : ReachableVia (system port prio) SoleDeinit s) : SyncInv s :=
    syncInv_of_reachable (fun _ _ hok => hok.1) hs
  obtain ⟨h', _, ⟨heads', rfl, hheads'⟩, hexec, hholds⟩ := executes_of_run (R := Listed)
    (fun _ _ _ _ hs hok ht hl => relists_step (hsync hs) hok ht hl) h₀ ⟨heads, rfl, hheads⟩
    hinit hr
  have hi := hsync (ReachableVia.recorded SoleDeinit ⟨(s₀, []), ⟨h₀, rfl⟩, hr⟩)
  refine ⟨h', heads', hexec, hholds, hheads', fun t => ?_, fun mu => ?_⟩
  · rw [sysDnodeIsLinked]
    cases ht : (r.1.mem.thread t).waitQ with
    | none =>
      rw [(hholds.unlinked (onNone_waitNode (hi.queues.notMem ht))).1]
      rfl
    | some q =>
      obtain ⟨b, hb⟩ := hholds.linked (lists_waitq (hi.headed_waitQ hheads' ht))
        (List.mem_map.mpr ⟨t, (hi.queues.mem t q).mpr ht, rfl⟩)
      rw [hb]
      rfl
  · rw [sysDnodeIsLinked]
    cases hmu : (r.1.mem.mutex mu).owner with
    | none =>
      have hnone (t) : mu ∉ (r.1.mem.thread t).ownedMutexes := fun howned => by
        have howner := (hi.owners.owned t mu).mp howned
        rw [hmu] at howner
        cases howner
      rw [(hholds.unlinked (onNone_ownerNode hnone)).1]
      rfl
    | some t =>
      obtain ⟨b, hb⟩ := hholds.linked (r := .ownedMutexes t) rfl
        (List.mem_map.mpr ⟨mu, (hi.owners.owned t mu).mpr hmu, rfl⟩)
      rw [hb]
      rfl

end

/-- A thread waits for a mutex that another one owns, and a task deinitializes a second mutex. -/
def deinitBesideRun : List (Act Bool Bool Unit Unit) :=
  callSteps (.thread false) (.lock false OS_WAIT_FOREVER) 3 ++
    callSteps (.thread true) (.lock false OS_WAIT_FOREVER) 3 ++
    callSteps (.task ()) (.deinit true) 3

/-- `os_mutex_deinit` takes effect on an initialized mutex that neither thread is locking. -/
def nobodyLocks (s : State Bool Bool Unit Unit) : Act Bool Bool Unit Unit → Bool
  | .step c =>
    match s.call c with
    | .deinitLock mu =>
      (s.mem.mutex mu).initialized && (s.call (.thread false)).locking != some mu &&
        (s.call (.thread true)).locking != some mu
    | _ => true
  | _ => true

/-- The waiter's node and the node of the mutex that is owned are linked. -/
theorem wait_queue_nodes_safe_beside : ∃ (h h' : Links (Addr Bool Bool Unit))
    (r : State Bool Bool Unit Unit × DlistCalls Bool Bool Unit),
    exec ((system ⟨8, 32⟩ fun _ => 1).recording (actCalls ⟨8, 32⟩))
      (.initial ⟨8, 32⟩ fun _ => 1, []) deinitBesideRun = some r ∧
    Executes h r.2 h' ∧ r.2.length = 8 ∧ sysDnodeIsLinked h' (.waitNode true) = true ∧
    sysDnodeIsLinked h' (.ownerNode false) = true ∧
    sysDnodeIsLinked h' (.ownerNode true) = false := by
  have hfresh := Links.Holds.fresh
    ((State.initial ⟨8, 32⟩ fun _ => 1 : State Bool Bool Unit Unit).mem.lists fun _ => true)
    fun a l hl => by
      cases a with
      | waitq =>
        obtain ⟨-, hl⟩ := Option.ite_none_right_eq_some.mp hl
        cases hl
        rfl
      | ownedMutexes => cases hl; rfl
      | waitNode | ownerNode => cases hl
  have hok (r : State Bool Bool Unit Unit × DlistCalls Bool Bool Unit) (a : Act Bool Bool Unit Unit)
      (hb : nobodyLocks r.1 a = true) : SoleDeinit r.1 a := by
    refine ⟨fun c mu ha hp _ _ t _ hl => ?_, fun c mu ha hp => ?_⟩
    all_goals
      subst ha
      simp only [nobodyLocks, hp, Bool.and_eq_true, bne_iff_ne, ne_eq] at hb
    · cases t
      · exact absurd hl hb.1.2
      · exact absurd hl hb.2
    · exact hb.1.1
  obtain ⟨r, hr, hlen, hlinked⟩ := exists_of_exec deinitBesideRun
    (M := (system ⟨8, 32⟩ fun _ => 1).recording (actCalls ⟨8, 32⟩))
    (s := (.initial ⟨8, 32⟩ fun _ => 1, []))
    (P := fun r => r.2.length = 8 ∧ (r.1.mem.thread true).waitQ.isSome = true ∧
      (r.1.mem.mutex false).owner.isSome = true ∧ (r.1.mem.mutex true).owner.isSome = false)
    (by decide +kernel)
  obtain ⟨h', -, hexec, -, -, hwait, howner⟩ := wait_queue_nodes_safe
    (State.init_initial ⟨8, 32⟩ fun _ => 1) (fun _ _ => rfl) hfresh
    (run_of_execOk deinitBesideRun hok (by decide +kernel) hr)
  exact ⟨_, h', r, hr, hexec, hlen, (hwait true).trans hlinked.1, (howner false).trans hlinked.2.1,
    (howner true).trans hlinked.2.2⟩

end HazelOsal.FreeRtos
