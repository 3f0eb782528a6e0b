import HazelOsal.Dlist.Clients
import HazelOsal.RtThread.Slot

/-! # The nodes of the wait queues

A thread is on a wait queue of the RT-Thread backend through `thread->wait_node`. The calls that
the critical sections make on these lists run on a heap of nodes. -/

namespace HazelOsal.RtThread

open TransitionSystem Dlist

variable {T Q N : Type} [DecidableEq T] [DecidableEq Q] [DecidableEq N]

/-- `&q->waitq` and `&thread->wait_node`. -/
inductive Addr (T Q : Type) where
  | waitq (q : Q)
  | waitNode (thread : T)
  deriving DecidableEq

/-- The lists, by their heads. -/
def Mem.lists (m : Mem T Q) : Addr T Q → Option (List (Addr T Q))
  | .waitq q => some ((m.queue q).map .waitNode)
  | .waitNode _ => none

/-! ## The calls -/

abbrev DlistCalls (T Q : Type) := List (Dlist.Call (Addr T Q) × Dlist.Value (Addr T Q))

/-- The queued thread has a lower priority than `t`. -/
def overtaken (port : Port) (m : Mem T Q) (t : T) : Addr T Q → Bool
  | .waitNode queued => osThreadGetPriority port m t > osThreadGetPriority port m queued
  | .waitq _ => false

/-- In `os_rt_waitq_insert_locked`. -/
def insertCalls (port : Port) (m : Mem T Q) (q : Q) (t : T) : DlistCalls T Q :=
  placeCalls (.waitq q) (.waitNode t) (overtaken port m t) ((m.queue q).map .waitNode)

/-- In the critical section of `os_waitq_wake_one`. -/
def wakeCalls (m : Mem T Q) (q : Q) : DlistCalls T Q :=
  popCalls (.waitq q) ((m.queue q).map .waitNode)

/-- In the loop of `os_waitq_wake_all` with `rounds` waiters left. -/
def wakeAllCalls (q : Q) (reason : UInt32) : Nat → Mem T Q → DlistCalls T Q
  | 0, m => wakeCalls m q
  | rounds + 1, m =>
    wakeCalls m q ++ wakeAllCalls q reason rounds (osWaitqWakeHead m q reason)

/-- A thread that is on a wait queue is unlinked from it. -/
def unlinkCalls (m : Mem T Q) (t : T) : DlistCalls T Q :=
  if (m.thread t).waitQ ≠ none then [(.remove (.waitNode t), .void)] else []

/-- The calls of a step, with the values that the code goes on with. -/
def callCalls (port : Port) (c : Caller T N) (m : Mem T Q) : Pc T Q → DlistCalls T Q
  | .blockLock q _ => c.current.elim [] fun t => insertCalls port m q t
  | .blockFinish .. => c.current.elim [] fun t => unlinkCalls m t
  | .wakeOneLock q _ => wakeCalls m q
  | .wakeAllLock q reason => wakeAllCalls q reason (m.queue q).length m
  | .setPriorityLock t =>
    match (m.thread t).waitQ with
    | some q => (.remove (.waitNode t), .void) :: insertCalls port (m.unlinkWait t) q t
    | none => []
  | .abortLock t => if (m.thread t).completed then [] else unlinkCalls m t
  | _ => []

def actCalls (port : Port) (s : State T Q N) : Act T Q N → DlistCalls T Q
  | .step c => callCalls port c s.mem (s.call c)
  | _ => []

/-! ## What the operations do to the lists -/

section
variable {port : Port} {m m' : Mem T Q} {q : Q} {t : T} {c : Caller T N} {p p' : Pc T Q}

omit [DecidableEq T] [DecidableEq Q] in
theorem lists_congr (hq : m'.queue = m.queue) : m'.lists = m.lists := by
  funext a
  cases a with
  | waitq => simp only [Mem.lists, hq]
  | waitNode => rfl

theorem lists_queue {l : List T} (hq : m'.queue = Function.update m.queue q l) :
    m'.lists = Function.update m.lists (.waitq q) (some (l.map .waitNode)) := by
  funext a
  rw [Function.update_apply]
  cases a with
  | waitq q' =>
    simp only [Mem.lists, hq, Function.update_apply, Addr.waitq.injEq]
    split
    case isTrue => rfl
    case isFalse => rfl
  | waitNode => rfl

omit [DecidableEq T] [DecidableEq Q] in
theorem onNone_waitNode (ht : ∀ q, t ∉ m.queue q) : Family.OnNone m.lists (.waitNode t) := by
  refine ⟨rfl, fun {r l} hr hmem => ?_⟩
  cases r with
  | waitq q =>
    cases hr
    obtain ⟨u, hu, he⟩ := List.mem_map.mp hmem
    cases he
    exact ht q hu
  | waitNode => cases hr

theorem relists_insert (ht : ∀ q, t ∉ m.queue q) :
    Relists m.lists (insertCalls port m q t) (osRtWaitqInsertLocked port m q t).lists := by
  have hqueue : (osRtWaitqInsertLocked port m q t).queue =
      Function.update m.queue q ((m.queue q).orderedInsert
        (fun a b => osThreadGetPriority port m b < osThreadGetPriority port m a) t) := rfl
  have hstop : (fun a => !overtaken port m t a) ∘ .waitNode =
      fun u => decide ¬ osThreadGetPriority port m u < osThreadGetPriority port m t :=
    funext fun u => decide_not.symm
  have hplace : Relists m.lists (insertCalls port m q t) _ :=
    .place rfl (onNone_waitNode ht)
  rw [List.takeWhile_map, List.dropWhile_map, hstop] at hplace
  rw [lists_queue hqueue, List.orderedInsert_eq_take_drop, List.map_append]
  exact hplace

theorem relists_unlink (h : QueueInv m) (hmem : t ∈ m.queue q) :
    Relists m.lists [(.remove (.waitNode t), .void)] (m.unlinkWait t).lists := by
  obtain ⟨l₁, l₂, hl, hcut⟩ := h.cut hmem
  have hqueue : (m.unlinkWait t).queue = Function.update m.queue q (l₁ ++ l₂) := hcut
  rw [lists_queue hqueue, List.map_append]
  refine .remove_node ?_ rfl
  rw [Mem.lists, hl, List.map_append]
  rfl

/-- A thread that is on a wait queue leaves it. -/
theorem relists_leave (h : QueueInv m)
    (hq : m'.queue = if (m.thread t).waitQ ≠ none then (m.unlinkWait t).queue else m.queue) :
    Relists m.lists (unlinkCalls m t) m'.lists := by
  rw [unlinkCalls]
  by_cases hw : (m.thread t).waitQ = none
  · rw [if_neg (not_not.mpr hw)] at hq ⊢
    exact .of_eq (lists_congr hq).symm
  · rw [if_pos hw] at hq ⊢
    obtain ⟨q, hmem⟩ := Option.ne_none_iff_exists'.mp hw
    rw [lists_congr (m := m.unlinkWait t) hq]
    exact relists_unlink h ((h.mem t q).mpr hmem)

theorem relists_wakeHead {reason : UInt32} :
    Relists m.lists (wakeCalls m q) (osWaitqWakeHead m q reason).lists := by
  have hqueue : (osWaitqWakeHead m q reason).queue =
      Function.update m.queue q (m.queue q).tail := by
    rw [osWaitqWakeHead]
    split
    case h_1 hl => rw [hl, List.tail_nil, ← hl, Function.update_eq_self]
    case h_2 t rest hl => rw [hl]; rfl
  rw [lists_queue hqueue, List.map_tail]
  refine .pop rfl fun a ha => ?_
  obtain ⟨_, -, rfl⟩ := List.mem_map.mp ha
  rfl

/-- The loop of `os_waitq_wake_all` ends with the test that finds the queue empty. -/
theorem relists_wakeAll {reason : UInt32} :
    Relists m.lists (wakeAllCalls q reason (m.queue q).length m)
      (osWaitqWakeAll m q reason).lists := by
  rw [osWaitqWakeAll]
  generalize hn : (m.queue q).length = n
  induction n generalizing m with
  | zero =>
    have hl := List.eq_nil_of_length_eq_zero hn
    have hwake : Relists m.lists (wakeCalls m q) (osWaitqWakeHead m q reason).lists :=
      relists_wakeHead
    have hsame : osWaitqWakeHead m q reason = m := by rw [osWaitqWakeHead, hl]
    rw [hsame] at hwake
    exact hwake
  | succ n ih =>
    refine relists_wakeHead.append (ih ?_)
    rw [osWaitqWakeHead]
    split
    case h_1 hl => rw [hl] at hn; cases hn
    case h_2 t rest hl =>
      rw [hl, List.length_cons, Nat.succ_inj] at hn
      simpa using hn

theorem relists_requeue (h : QueueInv m) :
    Relists m.lists
      (match (m.thread t).waitQ with
      | some q => (.remove (.waitNode t), .void) :: insertCalls port (m.unlinkWait t) q t
      | none => [])
      (osThreadSetPriorityRequeue port m t).lists := by
  rw [osThreadSetPriorityRequeue]
  cases hw : (m.thread t).waitQ with
  | none => exact .nil
  | some q =>
    have hgone (q') : t ∉ (m.unlinkWait t).queue q' := fun hmem =>
      ((h.nodup q').mem_erase_iff.mp hmem).1 rfl
    exact (relists_unlink h ((h.mem t q).mpr hw)).append (relists_insert hgone)

theorem relists_abort (h : QueueInv m) :
    Relists m.lists (if (m.thread t).completed then [] else unlinkCalls m t)
      (osThreadAbortCritical m t).1.lists := by
  rw [osThreadAbortCritical]
  split
  case isTrue => exact .nil
  case isFalse =>
    have hqueue : (osThreadAbortDequeue m t).queue =
        if (m.thread t).waitQ ≠ none then (m.unlinkWait t).queue else m.queue := by
      rw [osThreadAbortDequeue]
      split
      case isTrue => rfl
      case isFalse => rfl
    exact relists_leave h hqueue

theorem relists_blockFinish {result : Int} (h : QueueInv m) :
    Relists m.lists (unlinkCalls m t) (osWaitqBlockFinish m t result).1.lists := by
  refine relists_leave h ?_
  rw [osWaitqBlockFinish]
  split
  case isTrue => rfl
  case isFalse => rfl

omit [DecidableEq N] in
/-- **A step of a call keeps the contract.** -/
theorem relists_callStep (hs : callStep port c m p = some (m', p')) (h : QueueInv m)
    (hc : ∀ t q, c = .thread t → (m.thread t).waitQ = some q → p.waitsOn = some q) :
    Relists m.lists (callCalls port c m p) m'.lists := by
  cases p with
  | idle | done => cases hs
  | blockEnter | abortEnter | setPriorityEnter =>
    simp only [callStep] at hs
    repeat' split at hs
    all_goals cases hs; exact .nil
  | blockLock q =>
    obtain ⟨t, ht, hs⟩ := Option.map_eq_some_iff.mp hs
    cases hs
    rw [callCalls, ht]
    have hnone : (m.thread t).waitQ = none := Option.eq_none_iff_forall_ne_some.mpr fun q hw => by
      cases hc t q (Caller.current_eq_some ht) hw
    have hgone (q') : t ∉ m.queue q' := fun hmem => by
      rw [h.mem, hnone] at hmem
      cases hmem
    have hpriority : osThreadGetPriority port ((m.record t none).setThread t
        { m.thread t with waitQ := some q, waitResult := 0, state := .pending }) =
        osThreadGetPriority port m := by
      funext u
      rw [osThreadGetPriority, osThreadGetPriority, Mem.setThread_thread, Function.update_apply]
      split
      case isTrue he => rw [he]; rfl
      case isFalse => rfl
    have hlists : (osWaitqBlockEnqueue port m t q).lists =
        (osRtWaitqInsertLocked port m q t).lists := by
      refine lists_congr ?_
      rw [osWaitqBlockEnqueue, osRtWaitqInsertLocked, osRtWaitqInsertLocked, hpriority]
      rfl
    rw [hlists]
    exact relists_insert hgone
  | blockTake =>
    obtain ⟨t, -, hs⟩ := Option.map_eq_some_iff.mp hs
    split at hs
    case h_1 => cases hs; exact .of_eq (lists_congr rfl).symm
    case h_2 => split at hs <;> cases hs <;> exact .nil
  | blockWaiting =>
    obtain ⟨t, -, hs⟩ := Option.bind_eq_some_iff.mp hs
    obtain ⟨sem, -, hs⟩ := Option.map_eq_some_iff.mp hs
    cases hs
    exact .of_eq (lists_congr rfl).symm
  | blockFinish =>
    obtain ⟨t, ht, hs⟩ := Option.map_eq_some_iff.mp hs
    cases hs
    rw [callCalls, ht]
    exact relists_blockFinish h
  | wakeOneLock => cases hs; exact relists_wakeHead
  | wakeAllLock => cases hs; exact relists_wakeAll
  | setPriorityLock => cases hs; exact relists_requeue h
  | abortLock => cases hs; exact relists_abort h
  | setPriorityBase | setPriorityControl | abortDetach | abortRestore | abortGive | abortSignal =>
    cases hs
    exact .of_eq (lists_congr rfl).symm
  | exitComplete | exitGive | exitSignal | exitNative =>
    obtain ⟨t, -, hs⟩ := Option.map_eq_some_iff.mp hs
    cases hs
    exact .of_eq (lists_congr rfl).symm

end

/-! ## The whole system -/

section
variable {port : Port} {prio : T → Int} {s s' : State T Q N} {a : Act T Q N}

theorem relists_step (h : WaitInv s) (hs : step port s a = some s') :
    Relists s.mem.lists (actCalls port s a) s'.mem.lists := by
  cases step_cases hs with
  | step hstep =>
    exact relists_callStep hstep h.queues fun t q hc hq => hc ▸ (h.waits t).calls q hq
  | call | expire | fail | inherit | tick => exact .of_eq (lists_congr rfl).symm

/-- **The wait queues of the RT-Thread backend run on the heap.** Whatever the callers do and in
whatever order, no call of the critical sections follows a null pointer, and every one returns what
the queues of the model hold. A thread's node is linked exactly while `thread->wait_q` is set. -/
theorem waiter_nodes_safe {h : Links (Addr T Q)} {r : State T Q N × List _}
    (hinit : h.Holds (State.initial port prio : State T Q N).mem.lists)
    (hr : Reachable ((system port prio).recording (actCalls port)) r) :
    ∃ h', Executes h r.2 h' ∧ h'.Holds r.1.mem.lists ∧
      ∀ t, sysDnodeIsLinked h' (.waitNode t) = (r.1.mem.thread t).waitQ.isSome := by
  have hempty (s : State T Q N) (hs : Init port prio s) :
      s.mem.lists = (State.initial port prio : State T Q N).mem.lists :=
    lists_congr (funext fun q => hs.queue q)
  obtain ⟨h', hexec, hholds⟩ := executes_of_relists
    (fun s _ _ (hs : ReachableVia (system port prio) anyStep s) _ ht =>
      relists_step (waitInv_of_reachable hs) ht)
    (fun s hs => (hempty s hs).symm ▸ hinit) hr
  have hqueues := (waitInv_of_reachable (hr.recorded anyStep)).queues
  refine ⟨h', hexec, hholds, fun t => ?_⟩
  rw [sysDnodeIsLinked]
  cases ht : (r.1.mem.thread t).waitQ with
  | none =>
    have hgone (q) : t ∉ r.1.mem.queue q := fun hmem => by
      rw [hqueues.mem, ht] at hmem
      cases hmem
    rw [(hholds.unlinked (onNone_waitNode hgone)).1]
    rfl
  | some q =>
    obtain ⟨b, hb⟩ := hholds.linked (r := .waitq q) rfl
      (List.mem_map.mpr ⟨t, (hqueues.mem t q).mpr ht, rfl⟩)
    rw [hb]
    rfl

end

/-- Later threads have higher priorities. -/
def ascending (t : Nat) : Int := t + 1

/-- Three threads wait, one of them with the highest priority, which is lowered before a wake. -/
def lowerRun : List (Act Nat Unit Unit) :=
  callSteps (.thread 0) (.block () OS_WAIT_FOREVER) 2 ++
    callSteps (.thread 1) (.block () OS_WAIT_FOREVER) 2 ++
    callSteps (.thread 2) (.block () OS_WAIT_FOREVER) 2 ++
    callSteps (.task ()) (.setPriority 2 0) 4 ++ callSteps (.task ()) (.wakeOne () 5) 1

/-- The heap after that run: the second thread is the first waiter, and the last one still waits. -/
theorem waiter_nodes_safe_lowered : ∃ (h h' : Links (Addr Nat Unit))
    (r : State Nat Unit Unit × DlistCalls Nat Unit),
    exec ((system ⟨8⟩ ascending).recording (actCalls ⟨8⟩))
      (.initial ⟨8⟩ ascending, []) lowerRun = some r ∧
    Executes h r.2 h' ∧ r.2.length = 11 ∧ sysDlistPeekHead h' (.waitq ()) = some (.waitNode 0) ∧
    sysDnodeIsLinked h' (.waitNode 1) = false ∧ sysDnodeIsLinked h' (.waitNode 2) = true := by
  have hfresh := Links.Holds.fresh
    (State.initial ⟨8⟩ ascending : State Nat Unit Unit).mem.lists
    fun a l hl => by cases a <;> cases hl; rfl
  obtain ⟨r, hr, hlen, hqueue, hwait⟩ := exists_of_exec lowerRun
    (M := (system ⟨8⟩ ascending).recording (actCalls ⟨8⟩))
    (s := (.initial ⟨8⟩ ascending, []))
    (P := fun r => r.2.length = 11 ∧ r.1.mem.queue () = [0, 2] ∧
      (r.1.mem.thread 1).waitQ.isSome = false ∧ (r.1.mem.thread 2).waitQ.isSome = true)
    (by decide +kernel)
  obtain ⟨h', hexec, hholds, hlinked⟩ := waiter_nodes_safe hfresh
    (reachable_of_exec lowerRun (s := (State.initial ⟨8⟩ ascending, []))
      ⟨State.init_initial ⟨8⟩ ascending, rfl⟩ hr)
  refine ⟨_, h', r, hr, hexec, hlen, ?_, (hlinked 1).trans hwait.1, (hlinked 2).trans hwait.2⟩
  rw [sysDlistPeekHead_eq (hholds.ring (r := .waitq ()) rfl), hqueue]
  rfl

end HazelOsal.RtThread
