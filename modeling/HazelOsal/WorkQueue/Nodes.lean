import HazelOsal.Dlist.Clients
import HazelOsal.WorkQueue.PromotionRun
import HazelOsal.WorkQueue.Stop

/-! # The nodes of the work queues

`work_queue.c` keeps the nodes of queued items and stop markers on `queue->fifo.list`, and those of
delayed items on `queue->delayed`. The calls that its steps make on these lists are run on a heap of
nodes. They follow no null pointer and the heap holds the lists, as long as no stop queues its
marker on a list that another stop has found empty and is about to clear, or has cleared:
`os_fifo_deinit` clears the head of the list outside its critical section. -/

namespace HazelOsal

open TransitionSystem Dlist

variable {Q W T : Type} [DecidableEq Q] [DecidableEq W]

/-! ## Which FIFOs are initialized, and which stay empty -/

section
variable {m m' : Mem Q W} {q : Q} {w : W} {c : Ctx Q T} {p p' : Pc Q W}

omit [DecidableEq W] in
theorem setQueue_initialized {v : OsWorkQueue W}
    (hv : v.fifo.initialized = (m.queue q).fifo.initialized) (q' : Q) :
    ((m.setQueue q v).queue q').fifo.initialized = (m.queue q').fifo.initialized := by
  rw [Mem.setQueue_queue]
  split
  case isTrue he => rw [he, hv]
  case isFalse => rfl

omit [DecidableEq Q] in
theorem notify_initialized (q' : Q) :
    ((m.osWorkNotify w).queue q').fifo.initialized = (m.queue q').fifo.initialized := by
  rw [Mem.osWorkNotify]
  split <;> rfl

omit [DecidableEq W] in
theorem takeItems_initialized (h : m.takeItems? q = some m') (q' : Q) :
    (m'.queue q').fifo.initialized = (m.queue q').fifo.initialized := by
  obtain ⟨items, -, rfl⟩ := Option.map_eq_some_iff.mp h
  exact setQueue_initialized (by rfl) q'

theorem CallSame.initialized (h : CallSame c m p m' p') (q' : Q) :
    (m'.queue q').fifo.initialized = (m.queue q').fifo.initialized := by
  cases h with
  | move => rfl
  | takeSync _ _ hm =>
    obtain ⟨sync, -, rfl⟩ := Option.map_eq_some_iff.mp hm
    rfl
  | notify => exact notify_initialized q'
  | giveItems | trytakeItems | drainBegin | thread | deinitSem | finish =>
    exact setQueue_initialized (by rfl) q'
  | drainCheck =>
    rw [osWorkQueueDrainCheck]
    split
    · exact setQueue_initialized (by rfl) q'
    · rfl
  | unplug =>
    rw [osWorkQueueUnplugCritical]
    split
    · exact setQueue_initialized (by rfl) q'
    · rfl
  | joinError =>
    rw [Mem.recordJoin]
    split
    all_goals exact setQueue_initialized (by rfl) q'

theorem WorkerSame.initialized {p p' : WorkerPc Q W} (h : WorkerSame m q p m' p') (q' : Q) :
    (m'.queue q').fifo.initialized = (m.queue q').fifo.initialized := by
  cases h with
  | move => rfl
  | takeItems _ hm => exact takeItems_initialized hm q'
  | notify => exact notify_initialized q'
  | giveItems | thread => exact setQueue_initialized (by rfl) q'

/-- A queue that is stopping gets no node but the marker of a stop. -/
theorem CallEffect.list_nil (h : CallEffect c m p m' p') (hp : ∀ timeout, p ≠ .stopLock q timeout)
    (hs : (m.queue q).stopping = true) (hl : (m.queue q).fifo.list = []) :
    (m'.queue q).fifo.list = [] := by
  cases h with
  | same h => rw [h.same.list, hl]
  | @enqueue q' w r k ha hr =>
    rw [enqueue_queue]
    split
    case isTrue he => rw [he, ha.stopping] at hs; cases hs
    case isFalse => exact hl
  | cancel =>
    simp only [osWorkCancelCritical, mark_queue]
    split
    · rw [dequeue_queue, hl]
      rfl
    · exact hl
  | arm =>
    rw [arm_queue]
    split
    case isTrue he => exact he ▸ hl
    case isFalse => exact hl
  | rearm =>
    rw [arm_queue]
    split
    case isTrue he => exact he ▸ hl
    case isFalse => exact hl
  | unschedule | cancelDelayable | flushDelayable | purge => exact hl
  | @markStop q' timeout =>
    rw [osWorkQueueMarkStop, Mem.setQueue_queue]
    split
    case isTrue he => exact absurd (by rw [he]) (hp timeout)
    case isFalse => exact hl
  | @zero q' =>
    rw [Mem.setQueue_queue]
    split
    case isTrue => rfl
    case isFalse => exact hl

theorem CallEffect.initialized (h : CallEffect c m p m' p') :
    (m'.queue q).fifo.initialized = (m.queue q).fifo.initialized ∨
      p = .deinitZero q ∧ (m'.queue q).fifo.list = [] := by
  cases h with
  | same h => exact .inl (h.initialized q)
  | enqueue =>
    rw [enqueue_queue]
    split
    case isTrue he => exact .inl (by rw [he])
    case isFalse => exact .inl rfl
  | cancel =>
    simp only [osWorkCancelCritical, mark_queue]
    split
    · rw [dequeue_queue]
      exact .inl rfl
    · exact .inl rfl
  | arm =>
    rw [arm_queue]
    split
    case isTrue he => exact .inl (by rw [he])
    case isFalse => exact .inl rfl
  | rearm =>
    rw [arm_queue]
    split
    case isTrue he => exact .inl (by rw [he]; rfl)
    case isFalse => exact .inl rfl
  | unschedule | cancelDelayable | flushDelayable | purge => exact .inl rfl
  | markStop => exact .inl (setQueue_initialized (by rfl) q)
  | @zero q' =>
    by_cases he : q = q'
    · subst he
      refine .inr ⟨rfl, ?_⟩
      rw [Mem.setQueue_queue, if_pos rfl]
      rfl
    · rw [Mem.setQueue_queue, if_neg he]
      exact .inl rfl

theorem WorkerEffect.list_nil {p p' : WorkerPc Q W} {q' : Q} (h : WorkerEffect m q' p m' p')
    (hs : (m.queue q).stopping = true) (hl : (m.queue q).fifo.list = []) :
    (m'.queue q).fifo.list = [] := by
  cases h with
  | same h => rw [h.same.list, hl]
  | refuse | promote | block => exact hl
  | @enqueue q₁ w r d j ha hr =>
    rw [Mem.settle, enqueue_queue]
    split
    case isTrue he => rw [he, ha.stopping] at hs; cases hs
    case isFalse => exact hl
  | stop hl' =>
    rw [Mem.setQueue_queue]
    split
    case isTrue he => rw [← he, hl] at hl'; cases hl'
    case isFalse => exact hl
  | start hl' =>
    rw [start_queue]
    split
    case isTrue he => rw [← he, hl] at hl'; cases hl'
    case isFalse => exact hl
  | complete =>
    rw [complete_queue]
    split
    case isTrue he => exact he ▸ hl
    case isFalse => exact hl

theorem WorkerEffect.initialized {p p' : WorkerPc Q W} {q' : Q}
    (h : WorkerEffect m q' p m' p') :
    (m'.queue q).fifo.initialized = (m.queue q).fifo.initialized := by
  cases h with
  | same h => exact h.initialized q
  | refuse | promote | block => rfl
  | enqueue =>
    rw [Mem.settle, enqueue_queue]
    split
    case isTrue he => rw [he]
    case isFalse => rfl
  | stop => exact setQueue_initialized (by rfl) q
  | start =>
    rw [start_queue]
    split
    case isTrue he => rw [he]; rfl
    case isFalse => rfl
  | complete =>
    rw [complete_queue]
    split
    case isTrue he => rw [he]
    case isFalse => rfl

end

variable [DecidableEq T]

namespace WorkQueue

/-- `&queue->fifo.list`, `&queue->delayed`, `&work->node.node`, `&dwork->delay_node` and
`&queue->stop_node.node`. -/
inductive Addr (Q W : Type) where
  | fifo (queue : Q)
  | delayed (queue : Q)
  | node (work : W)
  | delayNode (dwork : W)
  | stopNode (queue : Q)
  deriving DecidableEq

def fifoAddr (q : Q) : FifoNode W → Addr Q W
  | .work w => .node w
  | .stop => .stopNode q

/-- The lists of the queues, by their heads. A cleared FIFO is no list. -/
def lists (m : Mem Q W) : Addr Q W → Option (List (Addr Q W))
  | .fifo q =>
    if (m.queue q).fifo.initialized then some ((m.queue q).fifo.list.map (fifoAddr q)) else none
  | .delayed q => some ((m.queue q).delayed.map .delayNode)
  | _ => none

/-! ## The calls -/

abbrev DlistCalls (Q W : Type) := List (Dlist.Call (Addr Q W) × Dlist.Value (Addr Q W))

/-- In `os_work_submit_to_queue`. -/
def submitCalls (caller : Option Q) (m : Mem Q W) : SubmitPc Q W → DlistCalls Q W
  | .lock q w =>
    if 0 < (osWorkSubmitToQueueCritical caller m q w).2 then
      [(.append (.fifo q) (.node w), .void)]
    else []
  | _ => []

/-- The branch on `OS_WORK_DELAYED`. -/
def delayCalls (m : Mem Q W) (d : W) : DlistCalls Q W :=
  if (m.work d).flags.delayed then [(.remove (.delayNode d), .void)] else []

/-- The calls of a step, with the values that the code goes on with. `os_common_zero` clears the
head of a list as `sys_dnode_init` clears a node. -/
def callCalls (c : Ctx Q T) (m : Mem Q W) : Pc Q W → DlistCalls Q W
  | .submit p _ => submitCalls c.caller m p
  | .cancelLock w _ =>
    match (osWorkCancelCritical m w).2.1 with
    | some _ => [(.remove (.node w), .void)]
    | none => []
  | .scheduleLock q d delay reschedule =>
    match (osWorkScheduleCritical c.caller m q d delay reschedule).2 with
    | .ret _ => []
    | .submit _ => delayCalls m d
    | .arm _ => delayCalls m d ++ [(.append (.delayed q) (.delayNode d), .void)]
  | .cancelDelayableLock d _ | .flushDelayableLock d => delayCalls m d
  | .stopLock q _ =>
    if (osWorkQueueStopCritical m q).2 then [(.append (.fifo q) (.stopNode q), .void)] else []
  | .purgeLock q =>
    match (m.queue q).delayed with
    | [] => [(.peekHead (.delayed q), .node none)]
    | d :: _ =>
      [(.peekHead (.delayed q), .node (some (.delayNode d))), (.remove (.delayNode d), .void)]
  | .deinitLock q =>
    if (m.queue q).fifo.initialized then
      [(.isEmpty (.fifo q), .bool (m.queue q).fifo.list.isEmpty)]
    else []
  | .deinitZero q => [(.nodeInit (.fifo q), .void)]
  | _ => []

/-- The item of the node is due. -/
def isDue (m : Mem Q W) (now : UInt32) : Addr Q W → Bool
  | .delayNode d => osWorkDeadlineRemaining (m.dwork d).deadline now = 0
  | _ => false

/-- The loop of `os_work_promote_delayed` over the delayed items, up to the first that is due. -/
def promoteLoop (m : Mem Q W) (q : Q) (now : UInt32) :
    Dlist.Call (Addr Q W) × Dlist.Value (Addr Q W) :=
  (.forEach (.delayed q) (isDue m now),
    .visited (scan (visit (isDue m now)) ((m.queue q).delayed.map .delayNode) []).1
      ((promoteScan (fun d => (m.dwork d).deadline) now (m.queue q).delayed OS_WAIT_FOREVER).1.map
        .delayNode))

def workerCalls (m : Mem Q W) (q : Q) : WorkerPc Q W → DlistCalls Q W
  | .promoteLock sampled =>
    let now := UInt32.ofNat sampled
    promoteLoop m q now ::
      match (osWorkPromoteDelayedCritical m q now).2 with
      | .ret _ => []
      | .submit due | .notify due => [(.remove (.delayNode due), .void)]
  | .promoteSubmit _ _ p => submitCalls (some q) m p
  | .pop => [(.get (.fifo q), .node ((m.queue q).fifo.list.head?.map (fifoAddr q)))]
  | _ => []

def actCalls (s : State Q W T) : Act Q W T → DlistCalls Q W
  | .step c => callCalls c s.mem (s.call c)
  | .worker q => workerCalls s.mem q (s.worker q)
  | _ => []

/-! ## What a step does to the lists -/

section
variable {m m' : Mem Q W} {q : Q} {w d : W}

omit [DecidableEq Q] [DecidableEq W] in
theorem lists_congr (hfifo : ∀ q, (m'.queue q).fifo.list = (m.queue q).fifo.list)
    (hinit : ∀ q, (m'.queue q).fifo.initialized = (m.queue q).fifo.initialized)
    (hdelayed : ∀ q, (m'.queue q).delayed = (m.queue q).delayed) : lists m' = lists m := by
  funext a
  cases a with
  | fifo q => simp only [lists, hfifo, hinit]
  | delayed q => simp only [lists, hdelayed]
  | node | delayNode | stopNode => rfl

/-- One FIFO has another list. -/
theorem lists_fifo {l : List (FifoNode W)} (hi : (m.queue q).fifo.initialized = true)
    (hfifo : ∀ q', (m'.queue q').fifo.list = if q' = q then l else (m.queue q').fifo.list)
    (hinit : ∀ q, (m'.queue q).fifo.initialized = (m.queue q).fifo.initialized)
    (hdelayed : ∀ q, (m'.queue q).delayed = (m.queue q).delayed) :
    lists m' = Function.update (lists m) (.fifo q) (some (l.map (fifoAddr q))) := by
  funext a
  rw [Function.update_apply]
  cases a with
  | fifo q' =>
    simp only [lists, hfifo, hinit, Addr.fifo.injEq]
    by_cases hq : q' = q
    · subst hq
      simp only [hi, if_true]
    · simp only [hq, if_false]
  | delayed q' => simp only [lists, hdelayed, reduceCtorEq, if_false]
  | node | delayNode | stopNode => rfl

/-- One delayed list is another one. -/
theorem lists_delayed {l : List W} (hfifo : ∀ q, (m'.queue q).fifo = (m.queue q).fifo)
    (hdelayed : ∀ q', (m'.queue q').delayed = if q' = q then l else (m.queue q').delayed) :
    lists m' = Function.update (lists m) (.delayed q) (some (l.map .delayNode)) := by
  funext a
  rw [Function.update_apply]
  cases a with
  | fifo q' => simp only [lists, hfifo, reduceCtorEq, if_false]
  | delayed q' =>
    simp only [lists, hdelayed, Addr.delayed.injEq]
    by_cases hq : q' = q
    · subst hq
      simp only [if_true]
    · simp only [hq, if_false]
  | node | delayNode | stopNode => rfl

theorem onNone_node (h : RunInv m) (hq : (m.work w).flags.queued = false) :
    Family.OnNone (lists m) (.node w) := by
  refine ⟨rfl, fun {r l} hr hmem => ?_⟩
  cases r with
  | fifo q =>
    obtain ⟨-, hr⟩ := Option.ite_none_right_eq_some.mp hr
    cases hr
    obtain ⟨node, hnode, he⟩ := List.mem_map.mp hmem
    cases node with
    | stop => cases he
    | work w' =>
      cases he
      have hc := List.count_pos_iff.mpr hnode
      rw [h.list, if_neg (by simp [hq])] at hc
      exact absurd hc (Nat.lt_irrefl _)
  | delayed q =>
    cases hr
    obtain ⟨d, -, he⟩ := List.mem_map.mp hmem
    cases he
  | node | delayNode | stopNode => cases hr

theorem onNone_delayNode (h : DelayInv m) (hd : (m.work d).flags.delayed = false) :
    Family.OnNone (lists m) (.delayNode d) := by
  refine ⟨rfl, fun {r l} hr hmem => ?_⟩
  cases r with
  | fifo q =>
    obtain ⟨-, hr⟩ := Option.ite_none_right_eq_some.mp hr
    cases hr
    obtain ⟨node, -, he⟩ := List.mem_map.mp hmem
    cases node <;> cases he
  | delayed q =>
    cases hr
    obtain ⟨d', hd', he⟩ := List.mem_map.mp hmem
    cases he
    rw [(h.delayed_of_mem hd').1] at hd
    cases hd
  | node | delayNode | stopNode => cases hr

omit [DecidableEq Q] [DecidableEq W] in
theorem onNone_stopNode (hl : (m.queue q).fifo.list = []) :
    Family.OnNone (lists m) (.stopNode q) := by
  refine ⟨rfl, fun {r l} hr hmem => ?_⟩
  cases r with
  | fifo q' =>
    obtain ⟨-, hr⟩ := Option.ite_none_right_eq_some.mp hr
    cases hr
    obtain ⟨node, hnode, he⟩ := List.mem_map.mp hmem
    cases node with
    | work => cases he
    | stop =>
      cases he
      rw [hl] at hnode
      cases hnode
  | delayed q' =>
    cases hr
    obtain ⟨d, -, he⟩ := List.mem_map.mp hmem
    cases he
  | node | delayNode | stopNode => cases hr

omit [DecidableEq Q] [DecidableEq W] in
theorem onNone_fifo (hi : (m.queue q).fifo.initialized = false) :
    Family.OnNone (lists m) (.fifo q) := by
  refine ⟨if_neg (by simp [hi]), fun {r l} hr hmem => ?_⟩
  cases r with
  | fifo q' =>
    obtain ⟨-, hr⟩ := Option.ite_none_right_eq_some.mp hr
    cases hr
    obtain ⟨node, -, he⟩ := List.mem_map.mp hmem
    cases node <;> cases he
  | delayed q' =>
    cases hr
    obtain ⟨d, -, he⟩ := List.mem_map.mp hmem
    cases he
  | node | delayNode | stopNode => cases hr

theorem relists_clearDelayed (h : DelayInv m) (hd : (m.work d).flags.delayed = true) :
    Relists (lists m) [(.remove (.delayNode d), .void)] (lists (clearDelayed m d)) := by
  obtain ⟨q, hq⟩ := Option.ne_none_iff_exists'.mp (h.queue d hd)
  have hcount (q') := h.list d q'
  have hmem : d ∈ (m.queue q).delayed :=
    List.count_pos_iff.mp (by rw [hcount, if_pos ⟨hd, hq⟩]; exact Nat.one_pos)
  obtain ⟨l₁, l₂, hl⟩ := List.append_of_mem hmem
  have hnot : d ∉ l₁ := by
    have hone := hcount q
    rw [if_pos ⟨hd, hq⟩, hl, List.count_append, List.count_cons_self] at hone
    exact List.count_eq_zero.mp (by omega)
  have hlists : lists (clearDelayed m d) =
      Function.update (lists m) (.delayed q) (some ((l₁ ++ l₂).map .delayNode)) := by
    refine lists_delayed (fun _ => rfl) fun q' => ?_
    rw [clearDelayed_queue]
    split
    case isTrue he =>
      rw [he, hl, List.erase_append_right _ hnot, List.erase_cons_head]
    case isFalse hne =>
      refine List.erase_of_not_mem (List.count_eq_zero.mp ?_)
      rw [hcount, if_neg]
      rintro ⟨-, hq'⟩
      exact hne (Option.some.inj (hq'.symm.trans hq))
  have hr : lists m (.delayed q) =
      some (l₁.map .delayNode ++ .delayNode d :: l₂.map .delayNode) := by
    rw [lists, hl, List.map_append, List.map_cons]
  rw [hlists, List.map_append]
  exact .remove_node hr rfl

theorem relists_undelay {f : Fate} (h : DelayInv m) (hd : (m.work d).flags.delayed = true) :
    Relists (lists m) (delayCalls m d) (lists (undelay m d f)) := by
  rw [delayCalls, if_pos hd]
  exact relists_clearDelayed h hd

theorem relists_arm {delay : UInt32} (h : DelayInv m) (hd : (m.work d).flags.delayed = false) :
    Relists (lists m) [(.append (.delayed q) (.delayNode d), .void)]
      (lists (osWorkArm m q d delay)) := by
  have hlists : lists (osWorkArm m q d delay) = Function.update (lists m) (.delayed q)
      (some (((m.queue q).delayed ++ [d]).map .delayNode)) := by
    refine lists_delayed (fun q' => ?_) fun q' => ?_
    · rw [arm_queue]
      split
      case isTrue he => rw [he]
      case isFalse => rfl
    · rw [arm_queue]
      split <;> rfl
  rw [hlists, List.map_append]
  exact .append_node rfl (onNone_delayNode h hd)

theorem relists_enqueue (h : RunInv m) (hi : (m.queue q).fifo.initialized = true)
    (hq : (m.work w).flags.queued = false) :
    Relists (lists m) [(.append (.fifo q) (.node w), .void)] (lists (osWorkEnqueue m q w)) := by
  have hlists : lists (osWorkEnqueue m q w) = Function.update (lists m) (.fifo q)
      (some (((m.queue q).fifo.list ++ [FifoNode.work w]).map (fifoAddr q))) := by
    refine lists_fifo hi (fun q' => ?_) (fun q' => ?_) fun q' => ?_
    all_goals
      rw [enqueue_queue]
      split
    · rfl
    · rfl
    case _ he => rw [he]
    · rfl
    case _ he => rw [he]
    · rfl
  have hr : lists m (.fifo q) = some ((m.queue q).fifo.list.map (fifoAddr q)) := if_pos hi
  rw [hlists, List.map_append]
  exact .append_node hr (onNone_node h hq)

theorem relists_cancel (h : RunInv m)
    (hi : ∀ q, (m.queue q).fifo.initialized = false → (m.queue q).fifo.list = []) :
    Relists (lists m)
      (match (osWorkCancelCritical m w).2.1 with
        | some _ => [(.remove (.node w), .void)]
        | none => [])
      (lists (osWorkCancelCritical m w).1) := by
  rcases cancel_cases h w with ⟨-, hm, hret⟩ | ⟨q, hqueued, hq, hm, hret⟩
  · rw [hm, hret]
    refine .of_eq (lists_congr (fun q => ?_) (fun q => ?_) fun q => ?_).symm
    all_goals rw [mark_queue]
  · rw [hm, hret]
    have hcount (q') := h.list w q'
    have hmem : .work w ∈ (m.queue q).fifo.list :=
      List.count_pos_iff.mp (by rw [hcount, if_pos ⟨hqueued, hq⟩]; exact Nat.one_pos)
    have hinit : (m.queue q).fifo.initialized = true := by
      by_contra hn
      rw [hi q (Bool.eq_false_iff.mpr hn)] at hmem
      cases hmem
    obtain ⟨l₁, l₂, hl⟩ := List.append_of_mem hmem
    have hnot : .work w ∉ l₁ := by
      have hone := hcount q
      rw [if_pos ⟨hqueued, hq⟩, hl, List.count_append, List.count_cons_self] at hone
      exact List.count_eq_zero.mp (by omega)
    have hlists : lists (osWorkCancelMark (osWorkCancelDequeue m w q) w) =
        Function.update (lists m) (.fifo q) (some ((l₁ ++ l₂).map (fifoAddr q))) := by
      refine lists_fifo hinit (fun q' => ?_) (fun q' => ?_) fun q' => ?_
      all_goals rw [mark_queue, dequeue_queue]
      split
      case isTrue he => rw [he, hl, List.erase_append_right _ hnot, List.erase_cons_head]
      case isFalse hne =>
        refine List.erase_of_not_mem (List.count_eq_zero.mp ?_)
        rw [hcount, if_neg]
        rintro ⟨-, hq'⟩
        exact hne (Option.some.inj (hq'.symm.trans hq))
    have hr : lists m (.fifo q) =
        some (l₁.map (fifoAddr q) ++ .node w :: l₂.map (fifoAddr q)) := by
      rw [lists, if_pos hinit, hl, List.map_append, List.map_cons]
      rfl
    rw [hlists, List.map_append]
    exact .remove_node hr rfl

/-- The worker takes the first node of a list. -/
theorem relists_pop {node : FifoNode W} {rest : List (FifoNode W)}
    (hi : (m.queue q).fifo.initialized = true) (hl : (m.queue q).fifo.list = node :: rest)
    (hfifo : ∀ q', (m'.queue q').fifo.list = if q' = q then rest else (m.queue q').fifo.list)
    (hinit : ∀ q, (m'.queue q).fifo.initialized = (m.queue q).fifo.initialized)
    (hdelayed : ∀ q, (m'.queue q).delayed = (m.queue q).delayed) :
    Relists (lists m) [(.get (.fifo q), .node (some (fifoAddr q node)))] (lists m') := by
  rw [lists_fifo hi hfifo hinit hdelayed]
  refine .get_node (l := rest.map (fifoAddr q)) ?_ ?_
  · rw [lists, if_pos hi, hl]
    rfl
  · cases node <;> rfl

/-- The stop marker goes on an empty list. -/
theorem relists_markStop (hi : (m.queue q).fifo.initialized = true)
    (hl : (m.queue q).fifo.list = []) :
    Relists (lists m) [(.append (.fifo q) (.stopNode q), .void)]
      (lists (osWorkQueueMarkStop m q)) := by
  have hlists : lists (osWorkQueueMarkStop m q) = Function.update (lists m) (.fifo q)
      (some (((m.queue q).fifo.list ++ [FifoNode.stop]).map (fifoAddr q))) := by
    refine lists_fifo hi (fun q' => ?_) (fun q' => ?_) fun q' => ?_
    all_goals
      rw [osWorkQueueMarkStop, Mem.setQueue_queue]
      split
    · rfl
    · rfl
    case _ he => rw [he]
    · rfl
    case _ he => rw [he]
    · rfl
  have hr : lists m (.fifo q) = some ((m.queue q).fifo.list.map (fifoAddr q)) := if_pos hi
  rw [hlists, List.map_append]
  exact .append_node hr (onNone_stopNode hl)

/-- The head of an empty list is cleared. -/
theorem relists_zero (hl : (m.queue q).fifo.list = []) :
    Relists (lists m) [(.nodeInit (.fifo q), .void)]
      (lists (m.setQueue q { m.queue q with fifo := osFifoZero (m.queue q).fifo })) := by
  have hlists : lists (m.setQueue q { m.queue q with fifo := osFifoZero (m.queue q).fifo }) =
      Function.update (lists m) (.fifo q) none := by
    funext a
    rw [Function.update_apply]
    cases a with
    | fifo q' =>
      simp only [lists, Mem.setQueue_queue, Addr.fifo.injEq]
      by_cases hq : q' = q
      · simp only [hq, if_true, osFifoZero, Bool.false_eq_true, if_false]
      · simp only [hq, if_false]
    | delayed q' =>
      simp only [lists, Mem.setQueue_queue, reduceCtorEq, if_false]
      split
      case isTrue he => rw [he]
      case isFalse => rfl
    | node | delayNode | stopNode => rfl
  rw [hlists]
  refine .clear ?_
  cases hi : (m.queue q).fifo.initialized with
  | true =>
    refine .inl ?_
    rw [lists, if_pos hi, hl]
    rfl
  | false => exact .inr (onNone_fifo hi)

end

/-! ## Which lists are cleared -/

/-- The queue whose list the call has found empty and is about to clear. -/
def clearing : Pc Q W → Option Q
  | .deinitSem q | .deinitZero q => some q
  | _ => none

/-- No stop queues its marker on a list that another one is about to clear, or has cleared. -/
def NoOverlap (s : State Q W T) : Act Q W T → Prop
  | .step c => ∀ q timeout, s.call c = .stopLock q timeout →
    (osWorkQueueStopCritical s.mem q).2 = true →
    (s.mem.queue q).fifo.initialized = true ∧ ∀ c', clearing (s.call c') ≠ some q
  | _ => True

/-- A list that is cleared, or is about to be, is empty, and the worker has left it. -/
structure NodeInv (s : State Q W T) : Prop where
  cleared : ∀ q, (s.mem.queue q).fifo.initialized = false →
    (s.mem.queue q).fifo.list = [] ∧ (s.mem.queue q).stopping = true ∧
      (s.worker q).exited = true
  clearing : ∀ c q, clearing (s.call c) = some q → (s.mem.queue q).fifo.list = []

section
variable {m m' : Mem Q W} {q : Q} {c : Ctx Q T} {p p' : Pc Q W} {s t : State Q W T}

omit [DecidableEq Q] [DecidableEq W] in
theorem clearing_stopping (h : clearing p = some q) : p.stopping = some q := by
  cases p with
  | deinitSem | deinitZero => exact h
  | _ => cases h

omit [DecidableEq T] in
/-- A call that is about to clear a list has found it empty. -/
theorem callStep_clearing (h : callStep c m p = some (m', p')) (hp : clearing p' = some q) :
    m' = m ∧ (m.queue q).fifo.list = [] ∨ clearing p = some q := by
  rcases callStep_stopping h (clearing_stopping hp) with hs | ⟨timeout, rfl, -⟩
  · cases p with
    | deinitSem | deinitZero => exact .inr hs
    | deinitLock q' =>
      cases hs
      simp only [callStep] at h
      split at h
      case isTrue => cases h; cases hp
      case isFalse =>
        split at h
        case h_1 => cases h; cases hp
        case h_2 hcheck =>
          cases h
          refine .inl ⟨rfl, ?_⟩
          rw [osFifoDeinitCheck] at hcheck
          split at hcheck
          case isTrue hempty => exact List.isEmpty_iff.mp hempty
          case isFalse => cases hcheck
    | _ =>
      simp only [callStep] at h
      grind [WorkQueue.clearing, Pc.stopping, Option.map_eq_some_iff]
  · simp only [callStep] at h
    split at h
    all_goals grind [WorkQueue.clearing]

theorem exited_of_workerStep {p p' : WorkerPc Q W} (h : workerStep m q p = some (m', p'))
    (hp : p.exited = true) : p'.exited = true := by
  cases p with
  | exitComplete | exitGive | exitSignal => cases h; rfl
  | terminated => cases h
  | _ => cases hp

omit [DecidableEq Q] [DecidableEq W] [DecidableEq T] in
theorem NodeInv.init (h : Init s) : NodeInv s where
  cleared q hq := by
    obtain ⟨noYield, hqueue⟩ := h.queue q
    rw [hqueue] at hq
    cases hq
  clearing c q hc := by
    rw [h.call] at hc
    cases hc

/-- Whoever is about to clear a list has joined the worker. -/
theorem exited_of_clearing (h : Reachable (workQueueSystem Q W T) s)
    (hc : clearing (s.call c) = some q) : (s.worker q).exited = true := by
  have hinv := stopInv_of_reachable h q
  have hphase : ((s.call c).stopPhase q).any StopPhase.joined = true := by
    rw [Pc.stopPhase_eq (clearing_stopping hc)]
    cases hp : s.call c with
    | deinitSem | deinitZero => rfl
    | _ => rw [hp] at hc; cases hc
  exact WorkerPc.given_exited (hinv.given (.inr (.inl (hinv.joined c hphase))))

omit [DecidableEq W] in
theorem stopCritical_cases (m : Mem Q W) (q : Q) : osWorkQueueStopCritical m q = (m, false) ∨
    (m.queue q).fifo.count = 0 ∧ osWorkQueueStopCritical m q = (osWorkQueueMarkStop m q, true) := by
  rw [osWorkQueueStopCritical]
  split
  case isTrue => exact .inl rfl
  case isFalse hfree =>
    refine .inr ⟨?_, rfl⟩
    simp only [Bool.or_eq_true, not_or, Bool.not_eq_true, bne_eq_false_iff_eq] at hfree
    exact hfree.1.2

theorem NodeInv.step {a : Act Q W T} (hr : Reachable (workQueueSystem Q W T) s)
    (h : NodeInv s) (hok : NoOverlap s a) (hs : step s a = some t) : NodeInv t := by
  have hstate := stateInv_of_reachable hr
  have hstop {c q} (hc : WorkQueue.clearing (s.call c) = some q) :
      (s.mem.queue q).stopping = true :=
    hstate.stopping c q (clearing_stopping hc)
  cases step_effect hs with
  | @call c op hmay =>
    refine ⟨h.cleared, fun c' q hc => ?_⟩
    rw [State.setCall_call] at hc
    split at hc
    case isTrue => cases op <;> cases hc
    case isFalse => exact h.clearing c' q hc
  | @expire c q' timeout expiry hp =>
    refine ⟨h.cleared, fun c' q hc => ?_⟩
    rw [State.setCall_call] at hc
    split at hc
    case isTrue => cases hc
    case isFalse => exact h.clearing c' q hc
  | @workerExpire q' expiry hp =>
    refine ⟨fun q hq => ?_, h.clearing⟩
    obtain ⟨hl, hst, hx⟩ := h.cleared q hq
    refine ⟨hl, hst, ?_⟩
    rw [State.setWorker_worker]
    split
    case isTrue he => rw [he, hp] at hx; cases hx
    case isFalse => exact hx
  | tick => exact ⟨h.cleared, h.clearing⟩
  | @worker q' m p hhandling hstep he =>
    refine ⟨fun q hq => ?_, fun c q hc => he.list_nil (hstop hc) (h.clearing c q hc)⟩
    rw [State.setWorker_mem, he.initialized] at hq
    obtain ⟨hl, hst, hx⟩ := h.cleared q hq
    refine ⟨he.list_nil hst hl, (he.stopping ..).trans hst, ?_⟩
    rw [State.setWorker_worker]
    split
    case isTrue he => subst he; exact exited_of_workerStep hstep hx
    case isFalse => exact hx
  | @step c m p hstep he =>
    -- the marker goes on no list that is empty for good
    have hlist {q} (hst : (s.mem.queue q).stopping = true) (hl : (s.mem.queue q).fifo.list = [])
        (hq : (s.mem.queue q).fifo.initialized = false ∨
          ∃ c', WorkQueue.clearing (s.call c') = some q) : (m.queue q).fifo.list = [] := by
      by_cases hp : ∃ timeout, s.call c = .stopLock q timeout
      · obtain ⟨timeout, hp⟩ := hp
        rcases stopCritical_cases s.mem q with hcrit | ⟨-, hcrit⟩
        · rw [hp, callStep, hcrit] at hstep
          cases hstep
          exact hl
        · obtain ⟨hi, hno⟩ := hok q timeout hp (by rw [hcrit])
          rcases hq with hq | ⟨c', hc'⟩
          · rw [hi] at hq
            cases hq
          · exact absurd hc' (hno c')
      · exact he.list_nil (fun timeout hpt => hp ⟨timeout, hpt⟩) hst hl
    refine ⟨fun q hq => ?_, fun c' q hc => ?_⟩
    · rcases he.initialized (q := q) with hi | ⟨hp, hl⟩
      · obtain ⟨hl, hst, hx⟩ := h.cleared q (hi.symm.trans hq)
        exact ⟨hlist hst hl (.inl (hi.symm.trans hq)), he.stopping hst, hx⟩
      · have hc : WorkQueue.clearing (s.call c) = some q := by rw [hp]; rfl
        have hx := exited_of_clearing hr hc
        exact ⟨hl, he.stopping (hstop hc), hx⟩
    · rw [State.setCall_call] at hc
      split at hc
      case isTrue =>
        rcases callStep_clearing hstep hc with ⟨rfl, hl⟩ | hc
        · exact hl
        · exact hlist (hstop hc) (h.clearing c q hc) (.inr ⟨c, hc⟩)
      case isFalse => exact hlist (hstop hc) (h.clearing c' q hc) (.inr ⟨c', hc⟩)

theorem nodeInv_of_reachable (h : ReachableVia (workQueueSystem Q W T) NoOverlap s) :
    NodeInv s :=
  h.invariant (I := NodeInv) (fun _ => NodeInv.init) fun _ _ _ hr hi hok hs => hi.step hr hok hs

/-! ## The calls of each step -/

theorem relists_same (h : Same m m')
    (hinit : ∀ q, (m'.queue q).fifo.initialized = (m.queue q).fifo.initialized) :
    Relists (lists m) [] (lists m') :=
  .of_eq (lists_congr h.list hinit h.delayed).symm

/-- A submission queues the item on a list that is not cleared. -/
theorem relists_submit {caller : Option Q} {p : SubmitPc Q W} (h : RunInv m)
    (hinit : ∀ q, (m.queue q).stopping = false → (m.queue q).fifo.initialized = true) :
    Relists (lists m) (submitCalls caller m p) (lists (p.step caller m).1) := by
  cases p with
  | enter queue w =>
    rcases submit_enter_cases caller m queue w with ⟨r, -, hp⟩ | ⟨q, hp⟩
    all_goals
      rw [hp]
      exact .nil
  | give q w r => exact relists_same .giveItems fun q' => setQueue_initialized (by rfl) q'
  | lock q w =>
    simp only [submitCalls, SubmitPc.step]
    rcases submit_cases caller m q w with ⟨ha, hc⟩ | ⟨-, r, hr, hc⟩
    · have hpos : (0 : Int) < if (m.work w).flags.running then 2 else 1 := by split <;> decide
      simp only [hc, hpos, if_true]
      exact relists_enqueue h (hinit q ha.stopping) ha.queued
    · simp only [hc, Int.not_lt.mpr hr, if_false]
      exact .nil

theorem relists_schedule {caller : Option Q} {d : W} {delay : UInt32} {reschedule : Bool}
    (h : DelayInv m) :
    Relists (lists m)
      (match (osWorkScheduleCritical caller m q d delay reschedule).2 with
        | .ret _ => []
        | .submit _ => delayCalls m d
        | .arm _ => delayCalls m d ++ [(.append (.delayed q) (.delayNode d), .void)])
      (lists (osWorkScheduleCritical caller m q d delay reschedule).1) := by
  rcases schedule_cases caller m q d delay reschedule with ⟨r, hc⟩ | ⟨-, hd, hc⟩ | ⟨-, hd, hc⟩
  · rw [hc]
    exact .nil
  · have hno : delayCalls m d = [] := if_neg (by simp [hd])
    rw [hc]
    by_cases h0 : delay = 0
    · simp only [if_pos h0, hno]
      exact .nil
    · simp only [if_neg h0, hno, List.nil_append]
      exact relists_arm h hd
  · rw [hc]
    by_cases h0 : delay = 0
    · simp only [if_pos h0]
      exact relists_undelay h hd
    · simp only [if_neg h0]
      have hd' : ((undelay m d .replaced).work d).flags.delayed = false := by
        rw [undelay_work, clearDelayed_work, if_pos rfl]
      have hinv : DelayInv (undelay m d .replaced) := h.clearDelayed.same .settle
      exact (relists_undelay h hd).append (relists_arm hinv hd')

theorem relists_cancelDelayable {d : W} {f : Fate} (h : DelayInv m) :
    Relists (lists m) (delayCalls m d) (lists (osWorkCancelDelayableCritical m d f).1) := by
  rw [osWorkCancelDelayableCritical]
  by_cases hd : (m.work d).flags.delayed = true
  · rw [if_pos hd]
    exact relists_undelay h hd
  · rw [if_neg hd, delayCalls, if_neg hd]
    exact .nil

omit [DecidableEq T] in
/-- The purge takes the first node. -/
theorem relists_purge (h : DelayInv m) :
    Relists (lists m) (callCalls c m (.purgeLock q)) (lists (osWorkQueueStopPurge m q).1) := by
  have hpeek : Relists (lists m)
      [(.peekHead (.delayed q), .node ((m.queue q).delayed.map .delayNode).head?)] (lists m) :=
    .peekHead rfl
  simp only [callCalls, osWorkQueueStopPurge]
  cases hl : (m.queue q).delayed with
  | nil =>
    rw [hl] at hpeek
    exact hpeek
  | cons d ds =>
    rw [hl] at hpeek
    have hd := (h.delayed_of_mem (hl ▸ List.mem_cons_self)).1
    exact hpeek.append (relists_clearDelayed h hd)

omit [DecidableEq Q] in
theorem lists_settleSubmit {due : W} {j : Nat} {p : SubmitPc Q W} {next : SubmitPc Q W ⊕ Int} :
    lists (settleSubmit m due j p next) = lists m := by
  cases next with
  | inl p' => cases p' <;> rfl
  | inr result => cases p <;> rfl

/-- The loop over the delayed items breaks at the first that is due. -/
theorem relists_promoteLoop {now : UInt32} :
    Relists (lists m) [promoteLoop m q now] (lists m) := by
  have hlast : (promoteScan (fun d => (m.dwork d).deadline) now (m.queue q).delayed
      OS_WAIT_FOREVER).1.map .delayNode =
        (scan (visit (isDue m now)) ((m.queue q).delayed.map .delayNode) []).2 := by
    rw [scan_visit_snd, promoteScan_fst, List.find?_map]
    rfl
  rw [promoteLoop, hlast]
  exact .forEach rfl

theorem relists_promote {now : UInt32} (h : DelayInv m) :
    Relists (lists m)
      (match (osWorkPromoteDelayedCritical m q now).2 with
        | .ret _ => []
        | .submit due | .notify due => [(.remove (.delayNode due), .void)])
      (lists (osWorkPromoteDelayedCritical m q now).1) := by
  rw [osWorkPromoteDelayedCritical]
  cases hs : promoteScan (fun d => (m.dwork d).deadline) now (m.queue q).delayed
      OS_WAIT_FOREVER with
  | mk due timeout =>
    cases due with
    | none => exact .nil
    | some due =>
      have hd := (h.delayed_of_mem (promoteScan_some hs).1).1
      cases ((m.queue q).plugged || (m.queue q).stopping) with
      | true => exact relists_clearDelayed h hd
      | false => exact relists_clearDelayed h hd

omit [DecidableEq T] in
/-- **A step of a call keeps the contract.** -/
theorem NodeInv.relists_call (h : NodeInv s) (hi : StateInv s) (hok : NoOverlap s (.step c))
    (hs : callStep c s.mem (s.call c) = some (m', p')) :
    Relists (lists s.mem) (callCalls c s.mem (s.call c)) (lists m') := by
  have hrun := hi.mem.toRunInv
  have hinit (q) (hst : (s.mem.queue q).stopping = false) :
      (s.mem.queue q).fifo.initialized = true := by
    by_contra hn
    rw [(h.cleared q (Bool.eq_false_iff.mpr hn)).2.1] at hst
    cases hst
  have hclear := h.clearing c
  generalize hp : s.call c = p at hs hclear ⊢
  cases p with
  | submit p k =>
    obtain ⟨rfl, -⟩ := callStep_submit hs
    exact relists_submit hrun hinit
  | cancelLock w k =>
    obtain ⟨rfl, -⟩ := callStep_cancelLock hs
    exact relists_cancel hrun fun q hq => (h.cleared q hq).1
  | scheduleLock q d delay reschedule =>
    cases hs
    exact relists_schedule hi.mem.delay
  | cancelDelayableLock d k =>
    cases hs
    exact relists_cancelDelayable hi.mem.delay
  | flushDelayableLock d =>
    cases hs
    exact relists_cancelDelayable hi.mem.delay
  | stopLock q timeout =>
    rcases stopCritical_cases s.mem q with hcrit | ⟨hcount, hcrit⟩
    · rw [callStep, hcrit] at hs
      cases hs
      simp only [callCalls, hcrit]
      exact .nil
    · have hq := (hok q timeout hp (by rw [hcrit])).1
      rw [callStep, hcrit] at hs
      cases hs
      simp only [callCalls, hcrit, if_true]
      exact relists_markStop hq (hrun.list_eq_nil hcount)
  | purgeLock q =>
    cases hs
    exact relists_purge hi.mem.delay
  | deinitLock q =>
    have hm : m' = s.mem := by
      cases callStep_effect hs with
      | same hsame =>
        cases hsame with
        | move => rfl
        | giveItems hf | takeSync _ hf | notify hf | thread hf | joinError hf => cases hf
    rw [hm, callCalls]
    split
    case isTrue hq =>
      have hl : lists s.mem (.fifo q) = some ((s.mem.queue q).fifo.list.map (fifoAddr q)) :=
        if_pos hq
      have hempty := Relists.isEmpty hl
      rw [List.isEmpty_map] at hempty
      exact hempty
    case isFalse => exact .nil
  | deinitZero q =>
    cases hs
    exact relists_zero (hclear q rfl)
  | _ =>
    cases callStep_effect hs with
    | same hsame => exact relists_same hsame.same hsame.initialized

omit [DecidableEq T] in
/-- **So does a step of a worker.** -/
theorem NodeInv.relists_worker {p' : WorkerPc Q W} (h : NodeInv s) (hi : StateInv s)
    (hs : workerStep s.mem q (s.worker q) = some (m', p')) :
    Relists (lists s.mem) (workerCalls s.mem q (s.worker q)) (lists m') := by
  have hrun := hi.mem.toRunInv
  have hinit (q) (hst : (s.mem.queue q).stopping = false) :
      (s.mem.queue q).fifo.initialized = true := by
    by_contra hn
    rw [(h.cleared q (Bool.eq_false_iff.mpr hn)).2.1] at hst
    cases hst
  have hexited : (s.worker q).exited = false → (s.mem.queue q).fifo.initialized = true := by
    intro hx
    by_contra hn
    rw [(h.cleared q (Bool.eq_false_iff.mpr hn)).2.2] at hx
    cases hx
  generalize s.worker q = p at hs hexited ⊢
  cases p with
  | promoteLock sampled =>
    cases hs
    exact relists_promoteLoop.append (relists_promote hi.mem.delay)
  | promoteSubmit due j p =>
    cases hs
    rw [lists_settleSubmit]
    exact relists_submit hrun hinit
  | pop =>
    have hq := hexited rfl
    have hinitialized {q'} := (workerStep_effect hs).initialized (q := q')
    simp only [workerStep, osWorkQueueEntryPop] at hs
    cases hl : (s.mem.queue q).fifo.list with
    | nil =>
      have hr : lists s.mem (.fifo q) = some [] := by
        rw [lists, if_pos hq, hl]
        rfl
      rw [hl] at hs
      cases hs
      rw [workerCalls, hl]
      exact .get_null hr
    | cons node rest =>
      rw [hl] at hs
      rw [workerCalls, hl]
      cases node with
      | stop =>
        cases hs
        refine relists_pop hq hl (fun q' => ?_) (fun _ => hinitialized) fun q' => ?_
        all_goals
          rw [Mem.setQueue_queue]
          split
        · rfl
        · rfl
        case _ he => rw [he]; rfl
        · rfl
      | work w =>
        cases hs
        refine relists_pop hq hl (fun q' => ?_) (fun _ => hinitialized) fun q' => ?_
        all_goals
          rw [start_queue]
          split
        · rfl
        · rfl
        case _ he => rw [he]; rfl
        · rfl
  | complete w =>
    cases hs
    refine .of_eq (lists_congr (fun q' => ?_) (fun q' => ?_) fun q' => ?_).symm
    all_goals
      rw [complete_queue]
      split
      case isTrue he => rw [he]
      case isFalse => rfl
  | _ =>
    cases workerStep_effect hs with
    | same hsame => exact relists_same hsame.same hsame.initialized

theorem relists_step {a : Act Q W T} (h : ReachableVia (workQueueSystem Q W T) NoOverlap s)
    (hok : NoOverlap s a) (hs : step s a = some t) :
    Relists (lists s.mem) (actCalls s a) (lists t.mem) := by
  have hi := stateInv_of_reachable h.reachable
  have hnode := nodeInv_of_reachable h
  cases step_effect hs with
  | call | expire | workerExpire | tick => exact .nil
  | step hstep => exact hnode.relists_call hi hok hstep
  | worker _ hstep => exact hnode.relists_worker hi hstep

/-- **The lists of the queues never follow a null pointer**, while no stop queues its marker on a
list that another stop is about to clear, or has cleared: the calls that the critical sections and
the workers have made on them return what the code goes on with, and leave each list as the model
has it. The nodes of an item are linked exactly while its flags say so. On a list that is cleared,
the marker follows a null pointer. -/
theorem work_queue_nodes_safe {h : Links (Addr Q W)} {r : State Q W T × List _}
    (hinit : h.Holds (lists (State.initial : State Q W T).mem))
    (hr : ReachableVia ((workQueueSystem Q W T).recording actCalls)
      (fun r a => NoOverlap r.1 a) r) :
    ∃ h', Executes h r.2 h' ∧ h'.Holds (lists r.1.mem) ∧
      (∀ w, sysDnodeIsLinked h' (.node w) = (r.1.mem.work w).flags.queued) ∧
      (∀ d, sysDnodeIsLinked h' (.delayNode d) = (r.1.mem.work d).flags.delayed) ∧
      ∀ q, (r.1.mem.queue q).fifo.initialized = false →
        sysDlistAppend h' (.fifo q) (.stopNode q) = none := by
  have hempty (s : State Q W T) (hs : Init s) :
      lists s.mem = lists (State.initial : State Q W T).mem := by
    have hqueue (q) := (hs.queue q).choose_spec
    refine lists_congr (fun q => ?_) (fun q => ?_) fun q => ?_
    all_goals
      rw [hqueue]
      rfl
  obtain ⟨h', hexec, hholds⟩ := executes_of_relists
    (fun _ _ _ hs hok ht => relists_step hs hok ht) (fun s hs => (hempty s hs).symm ▸ hinit) hr
  have hreach := hr.recorded NoOverlap
  have hmem := (stateInv_of_reachable hreach.reachable).mem
  have hnode := nodeInv_of_reachable hreach
  refine ⟨h', hexec, hholds, fun w => ?_, fun d => ?_, fun q hq => ?_⟩
  · rw [sysDnodeIsLinked]
    cases hw : (r.1.mem.work w).flags.queued with
    | false =>
      rw [(hholds.unlinked (onNone_node hmem.toRunInv hw)).1]
      rfl
    | true =>
      obtain ⟨q, hq⟩ := Option.ne_none_iff_exists'.mp (hmem.queue w hw)
      have hlist : FifoNode.work w ∈ (r.1.mem.queue q).fifo.list :=
        List.count_pos_iff.mp (by rw [hmem.list, if_pos ⟨hw, hq⟩]; exact Nat.one_pos)
      have hr : lists r.1.mem (.fifo q) = some ((r.1.mem.queue q).fifo.list.map (fifoAddr q)) := by
        refine if_pos (Bool.not_eq_false _ ▸ fun hi => ?_)
        rw [(hnode.cleared q hi).1] at hlist
        cases hlist
      obtain ⟨b, hb⟩ := hholds.linked hr (List.mem_map.mpr ⟨_, hlist, rfl⟩)
      rw [fifoAddr] at hb
      rw [hb]
      rfl
  · rw [sysDnodeIsLinked]
    cases hd : (r.1.mem.work d).flags.delayed with
    | false =>
      rw [(hholds.unlinked (onNone_delayNode hmem.delay hd)).1]
      rfl
    | true =>
      obtain ⟨q, hq⟩ := Option.ne_none_iff_exists'.mp (hmem.delay.queue d hd)
      have hlist : d ∈ (r.1.mem.queue q).delayed :=
        List.count_pos_iff.mp (by rw [hmem.delay.list, if_pos ⟨hd, hq⟩]; exact Nat.one_pos)
      obtain ⟨b, hb⟩ := hholds.linked (r := .delayed q) rfl (List.mem_map.mpr ⟨d, hlist, rfl⟩)
      rw [hb]
      rfl
  · have hnone : Family.OnNone (lists r.1.mem) (.fifo q) :=
      onNone_fifo (by rw [hq])
    exact sysDlistAppend_cleared (hholds.unlinked hnone).2

end

/-- Thread 1 has found the queue started and is about to stop it, when thread 0 drains and stops
it, purges its delayed item and clears its list. -/
def overlapRun : List (Act Unit Nat Nat) :=
  [.call (.thread 0) (.scheduleForQueue () 5 100), .step (.thread 0), .step (.thread 0),
    .step (.thread 0), .call (.thread 1) (.stop () 0), .step (.thread 1)] ++
  timeoutRun.take 9 ++ exitRun ++ List.replicate 9 (.step (.thread 0))

/-- A stop queues its marker on a list that its worker has not left. -/
def workerThere (r : State Unit Nat Nat × DlistCalls Unit Nat) : Act Unit Nat Nat → Bool
  | .step c =>
    match r.1.call c with
    | .stopLock q _ => (r.1.mem.queue q).fifo.initialized && !(r.1.worker q).exited
    | _ => true
  | _ => true

/-- The marker of thread 1 then follows a null pointer. -/
theorem work_queue_nodes_safe_overlap : ∃ (h h' : Links (Addr Unit Nat))
    (r : State Unit Nat Nat × DlistCalls Unit Nat),
    exec ((workQueueSystem Unit Nat Nat).recording actCalls) (.initial, []) overlapRun = some r ∧
    Executes h r.2 h' ∧ r.2.length = 9 ∧ r.1.call (.thread 1) = .stopLock () 0 ∧
    sysDlistAppend h' (.fifo ()) (.stopNode ()) = none := by
  have hfresh := Links.Holds.fresh (lists (State.initial : State Unit Nat Nat).mem)
    fun a l hl => by cases a <;> cases hl <;> rfl
  have hok (r : State Unit Nat Nat × DlistCalls Unit Nat) (a : Act Unit Nat Nat)
      (hr : Reachable ((workQueueSystem Unit Nat Nat).recording actCalls) r)
      (hb : workerThere r a = true) : NoOverlap r.1 a := by
    cases a with
    | step c =>
      intro q timeout hp _
      simp only [workerThere, hp, Bool.and_eq_true, Bool.not_eq_true'] at hb
      refine ⟨hb.1, fun c' hc => ?_⟩
      rw [exited_of_clearing (hr.recorded anyStep) hc] at hb
      cases hb.2
    | _ => trivial
  have hstart : ReachableVia ((workQueueSystem Unit Nat Nat).recording actCalls)
      (fun r a => NoOverlap r.1 a) (.initial, []) :=
    ⟨(.initial, []), ⟨State.init_initial, rfl⟩, .refl⟩
  obtain ⟨h', hexec, -, -, -, hnull⟩ := work_queue_nodes_safe hfresh
    (hstart.exec overlapRun hok (by decide +kernel) rfl)
  exact ⟨_, h', _, rfl, hexec, rfl, rfl, hnull () rfl⟩

end WorkQueue

end HazelOsal
