import HazelOsal.Library.PriorityOrder
import HazelOsal.RtThread.Slot

/-! # The order of the wait queues

Every wait queue of the RT-Thread backend is in the order of the native priorities of its threads,
but for threads whose priority `os_thread_set_priority` has changed and that it has yet to put back
into their places: `rt_thread_control` is called before the critical section. While such a thread
is on a wait queue, no other thread may be put on it (`PlacesInOrder`). -/

namespace HazelOsal.RtThread

open TransitionSystem

variable {T Q N : Type} [DecidableEq T] [DecidableEq Q] [DecidableEq N]

/-- No call has changed the priority of the thread without having put it back into its place. -/
def State.Settled (s : State T Q N) (t : T) : Prop := ∀ c, s.call c ≠ .setPriorityLock t

/-- The thread that `os_thread_set_priority` is about to put back into its place. -/
def Pc.requeues : Pc T Q → Option T
  | .setPriorityLock t => some t
  | _ => none

/-- The step of the context puts `t` on `q`, or back on it. -/
def Places (s : State T Q N) (c : Caller T N) (q : Q) (t : T) : Prop :=
  (c = .thread t ∧ ∃ timeout, s.call c = .blockLock q timeout) ∨
    s.call c = .setPriorityLock t ∧ (s.mem.thread t).waitQ = some q

/-- A thread is put on a wait queue only when the other threads on it are in their places, and the
native mutexes change the priority of no thread that is on a wait queue. -/
structure PlacesInOrder (s : State T Q N) (a : Act T Q N) : Prop where
  settled : ∀ c q t, a = .step c → Places s c q t → ∀ u ∈ s.mem.queue q, u ≠ t → s.Settled u
  inherit : ∀ t priority, a = .inherit t priority → (s.mem.thread t).waitQ = none

/-- Threads leave the wait queues, and their priorities stay. -/
structure Shrinks (port : Port) (m m' : Mem T Q) : Prop where
  queue : ∀ q, (m'.queue q).Sublist (m.queue q)
  priority : osThreadGetPriority port m' = osThreadGetPriority port m

/-- What a step does to the wait queues and the priorities. -/
inductive LineStep (port : Port) (c : Caller T N) (m m' : Mem T Q) (p p' : Pc T Q) : Prop
  | shrink (h : Shrinks port m m') (hp : ∀ t, p = .setPriorityLock t → (m.thread t).waitQ = none)
    (hp' : ∀ t, p' ≠ .setPriorityLock t)
  | place (t : T) (q : Q)
    (hp : (c = .thread t ∧ ∃ timeout, p = .blockLock q timeout) ∨
      p = .setPriorityLock t ∧ (m.thread t).waitQ = some q)
    (hq : m'.queue = Function.update (fun q => (m.queue q).erase t) q
      (((m.queue q).erase t).orderedInsert
        (fun a b => osThreadGetPriority port m b < osThreadGetPriority port m a) t))
    (hk : osThreadGetPriority port m' = osThreadGetPriority port m)
    (hp' : ∀ t, p' ≠ .setPriorityLock t)
  | rekey (t : T) (priority : Int) (hp : p = .setPriorityControl t priority)
    (hp' : p' = .setPriorityLock t) (hq : m'.queue = m.queue)
    (hk : ∀ u, u ≠ t → osThreadGetPriority port m' u = osThreadGetPriority port m u)

section
variable {port : Port} {prio : T → Int} {s s' : State T Q N} {a : Act T Q N} {c : Caller T N}
  {m m' m'' : Mem T Q} {p p' : Pc T Q} {t u : T} {q : Q}

/-! ## The steps of the calls -/

omit [DecidableEq T] [DecidableEq Q] in
theorem Pc.ne_of_requeues (h : p.requeues = none) (t : T) : p ≠ .setPriorityLock t := by
  rintro rfl
  cases h

namespace Shrinks

omit [DecidableEq T] [DecidableEq Q] in
theorem of_eq (hq : m'.queue = m.queue) (hc : m'.currentPriority = m.currentPriority)
    (hh : ∀ t, (m'.thread t).handle = (m.thread t).handle) : Shrinks port m m' := by
  refine ⟨fun q => hq ▸ .refl (m.queue q), funext fun t => ?_⟩
  rw [osThreadGetPriority, osThreadGetPriority, hc, hh]

omit [DecidableEq T] [DecidableEq Q] in
theorem refl (m : Mem T Q) : Shrinks port m m := of_eq rfl rfl fun _ => rfl

omit [DecidableEq T] [DecidableEq Q] in
theorem trans (h : Shrinks port m m') (h' : Shrinks port m' m'') : Shrinks port m m'' :=
  ⟨fun q => (h'.queue q).trans (h.queue q), h'.priority.trans h.priority⟩

omit [DecidableEq Q] in
theorem setThread {v : OsThread Q} (hv : v.handle = (m.thread t).handle) :
    Shrinks port m (m.setThread t v) := by
  refine of_eq rfl rfl fun u => ?_
  rw [Mem.setThread_thread, Function.update_apply]
  split
  case isTrue he => rw [he, hv]
  case isFalse => rfl

omit [DecidableEq Q] in
theorem unlinkWait : Shrinks port m (m.unlinkWait t) := ⟨fun _ => List.erase_sublist, rfl⟩

omit [DecidableEq T] in
theorem pop {rest : List T} (hl : m.queue q = t :: rest) : Shrinks port m (m.setQueue q rest) := by
  refine ⟨fun q' => ?_, rfl⟩
  rw [Mem.setQueue_queue, Function.update_apply]
  split
  case isTrue he => rw [he, hl]; exact List.sublist_cons_self t rest
  case isFalse => exact .refl _

theorem waitqWakeHead {reason : UInt32} : Shrinks port m (osWaitqWakeHead m q reason) := by
  rw [osWaitqWakeHead]
  split
  case h_1 => exact refl m
  case h_2 t rest hl =>
    have hset : Shrinks port (m.setQueue q rest) ((m.setQueue q rest).setThread t
        { m.thread t with waitQ := none, waitResult := reason, state := .ready }) := setThread rfl
    exact ((pop hl).trans hset).trans (of_eq rfl rfl fun _ => rfl)

omit [DecidableEq Q] in
theorem blockFinish {result : Int} : Shrinks port m (osWaitqBlockFinish m t result).1 := by
  rw [osWaitqBlockFinish]
  split
  case isTrue => exact unlinkWait.trans (setThread rfl)
  case isFalse => exact setThread rfl

omit [DecidableEq Q] in
theorem abortDequeue : Shrinks port m (osThreadAbortDequeue m t) := by
  rw [osThreadAbortDequeue]
  split
  case isTrue =>
    have hset : Shrinks port (m.unlinkWait t) ((m.unlinkWait t).setThread t
        { m.thread t with waitQ := none }) := setThread rfl
    exact (unlinkWait.trans hset).trans (of_eq rfl rfl fun _ => rfl)
  case isFalse => exact refl m

end Shrinks

omit [DecidableEq N] in
/-- A step to and from points at which no thread is out of place. -/
theorem LineStep.of_shrinks (h : Shrinks port m m') (hp : p.requeues = none)
    (hp' : p'.requeues = none) : LineStep port c m m' p p' :=
  .shrink h (fun t he => absurd he (Pc.ne_of_requeues hp t)) (Pc.ne_of_requeues hp')

omit [DecidableEq N] in
/-- **What the steps of the calls do to the wait queues and the priorities.** -/
theorem callStep_line (hs : callStep port c m p = some (m', p')) (h : QueueInv m)
    (hc : ∀ t q, c = .thread t → (m.thread t).waitQ = some q → p.waitsOn = some q) :
    LineStep port c m m' p p' := by
  cases p with
  | idle | done => cases hs
  | blockEnter | abortEnter | setPriorityEnter =>
    simp only [callStep] at hs
    repeat' split at hs
    all_goals cases hs; exact .of_shrinks (.refl m) rfl rfl
  | blockLock q timeout =>
    obtain ⟨t, ht, hs⟩ := Option.map_eq_some_iff.mp hs
    cases hs
    have ht := Caller.current_eq_some ht
    have hnone : (m.thread t).waitQ = none := Option.eq_none_iff_forall_ne_some.mpr fun q hw => by
      cases hc t q ht hw
    have hgone (q') : t ∉ m.queue q' := fun hmem => by
      rw [h.mem, hnone] at hmem
      cases hmem
    have hset : Shrinks port (m.record t none) ((m.record t none).setThread t
        { m.thread t with waitQ := some q, waitResult := 0, state := .pending }) := .setThread rfl
    refine .place t q (.inl ⟨ht, timeout, rfl⟩) ?_ hset.priority (Pc.ne_of_requeues rfl)
    have herase : (fun q => (m.queue q).erase t) = m.queue :=
      funext fun q => List.erase_of_not_mem (hgone q)
    rw [herase, List.erase_of_not_mem (hgone q), osWaitqBlockEnqueue, osRtWaitqInsertLocked,
      hset.priority]
    rfl
  | blockTake =>
    obtain ⟨t, -, hs⟩ := Option.map_eq_some_iff.mp hs
    split at hs
    case h_1 =>
      cases hs
      exact .of_shrinks (.of_eq rfl rfl fun _ => rfl) rfl rfl
    case h_2 =>
      split at hs
      all_goals cases hs; exact .of_shrinks (.refl m) rfl rfl
  | blockWaiting =>
    obtain ⟨t, -, hs⟩ := Option.bind_eq_some_iff.mp hs
    obtain ⟨sem, -, hs⟩ := Option.map_eq_some_iff.mp hs
    cases hs
    exact .of_shrinks (.of_eq rfl rfl fun _ => rfl) rfl rfl
  | blockFinish =>
    obtain ⟨t, -, hs⟩ := Option.map_eq_some_iff.mp hs
    cases hs
    exact .of_shrinks .blockFinish rfl rfl
  | wakeOneLock =>
    cases hs
    exact .of_shrinks .waitqWakeHead rfl rfl
  | wakeAllLock =>
    cases hs
    refine .of_shrinks ?_ rfl rfl
    exact wakeAll_induction (.refl m) fun m' h => h.trans .waitqWakeHead
  | setPriorityBase | abortRestore | abortGive | abortSignal =>
    cases hs
    exact .of_shrinks (.setThread rfl) rfl rfl
  | abortDetach =>
    cases hs
    exact .of_shrinks (.of_eq rfl rfl fun _ => rfl) rfl rfl
  | setPriorityControl t priority =>
    cases hs
    refine .rekey t priority rfl rfl rfl fun u hu => ?_
    rw [osThreadGetPriority, osThreadGetPriority, Mem.setCurrentPriority_currentPriority,
      Function.update_of_ne hu]
    rfl
  | setPriorityLock t =>
    cases hs
    rw [osThreadSetPriorityRequeue]
    cases hw : (m.thread t).waitQ with
    | none => exact .shrink (.refl m) (fun _ he => by cases he; exact hw) (Pc.ne_of_requeues rfl)
    | some q => exact .place t q (.inr ⟨rfl, hw⟩) rfl rfl (Pc.ne_of_requeues rfl)
  | abortLock t =>
    simp only [callStep, osThreadAbortCritical] at hs
    split at hs
    case isTrue => cases hs; exact .of_shrinks (.refl m) rfl rfl
    case isFalse =>
      cases hs
      exact .of_shrinks (Shrinks.abortDequeue.trans (.setThread rfl)) rfl rfl
  | exitComplete | exitGive | exitSignal =>
    obtain ⟨t, -, hs⟩ := Option.map_eq_some_iff.mp hs
    cases hs
    exact .of_shrinks (.setThread rfl) rfl rfl
  | exitNative =>
    obtain ⟨t, -, hs⟩ := Option.map_eq_some_iff.mp hs
    cases hs
    exact .of_shrinks (.of_eq rfl rfl fun _ => rfl) rfl rfl

/-! ## The whole system -/

/-- Every wait queue is in the order of the priorities, but for the places of the threads that are
not settled. -/
def Ordered (port : Port) (s : State T Q N) : Prop :=
  ∀ q, DescendingOn s.Settled (osThreadGetPriority port s.mem) (s.mem.queue q)

omit [DecidableEq Q] in
theorem State.settled_setCall : (s.setCall c m' p').Settled t ↔
    p' ≠ .setPriorityLock t ∧ ∀ d, d ≠ c → s.call d ≠ .setPriorityLock t := by
  constructor
  · intro h
    refine ⟨?_, fun d hd => ?_⟩
    · have hc := h c
      rwa [setCall_call, if_pos rfl] at hc
    · have hd' := h d
      rwa [setCall_call, if_neg hd] at hd'
  · rintro ⟨hp, h⟩ d
    rw [setCall_call]
    split
    case isTrue => exact hp
    case isFalse hd => exact h d hd

omit [DecidableEq Q] in
/-- A thread that a step settles is the one that the step has put into its place. -/
theorem State.Settled.of_setCall (h : (s.setCall c m' p').Settled t)
    (hp : s.call c ≠ .setPriorityLock t) : s.Settled t := by
  intro d
  by_cases hd : d = c
  · exact hd ▸ hp
  · exact (settled_setCall.mp h).2 d hd

theorem Ordered.step (h : Ordered port s) (hi : WaitInv s) (hok : PlacesInOrder s a)
    (hs : RtThread.step port s a = some s') : Ordered port s' := by
  cases step_cases hs with
  | @call c op hf =>
    refine fun q => (h q).sublist (.refl _) fun t _ hset => hset.of_setCall fun he => ?_
    rw [he] at hf
    cases hf
  | @step c m' p' hstep =>
    have hline := callStep_line hstep hi.queues fun t q hc hq => hc ▸ (hi.waits t).calls q hq
    cases hline with
    | shrink hshrink hp =>
      intro q
      rw [State.setCall_mem, hshrink.priority]
      refine (h q).sublist (hshrink.queue q) fun t ht hset => hset.of_setCall fun he => ?_
      have hmem := (hi.queues.mem t q).mp ((hshrink.queue q).mem ht)
      rw [hp t he] at hmem
      cases hmem
    | place t q hp hq hk =>
      intro q'
      rw [State.setCall_mem, hk, hq, Function.update_apply]
      have hother {u : T} {q' : Q} (hu : u ∈ (s.mem.queue q').erase t) : u ≠ t :=
        ((hi.queues.nodup q').mem_erase_iff.mp hu).1
      have hcall {u : T} (hu : u ≠ t) : s.call c ≠ .setPriorityLock u := by
        rcases hp with ⟨-, _, hp⟩ | ⟨hp, -⟩
        · exact Pc.ne_of_requeues (hp ▸ rfl) u
        · rw [hp]
          intro he
          cases he
          exact hu rfl
      have herase (q') : DescendingOn s.Settled (osThreadGetPriority port s.mem)
          ((s.mem.queue q').erase t) := (h q').sublist List.erase_sublist fun _ _ => id
      split
      case isTrue =>
        refine (herase q).place fun u hu => ?_
        exact hok.settled c q t rfl hp u (List.mem_of_mem_erase hu) (hother hu)
      case isFalse =>
        exact (herase q').sublist (.refl _) fun u hu hset => hset.of_setCall (hcall (hother hu))
    | rekey t priority hp hp' hq hk =>
      intro q
      rw [State.setCall_mem, hq]
      have hne {u : T} (hset : (s.setCall c m' p').Settled u) : u ≠ t := by
        rintro rfl
        exact (State.settled_setCall.mp hset).1 hp'
      refine (h q).rekey (fun u _ hset => hset.of_setCall ?_) fun u _ hset => hk u (hne hset)
      exact Pc.ne_of_requeues (hp ▸ rfl) u
  | @expire c p' hexpire =>
    obtain ⟨_, _, _, _, _, -, -, -, hp, -⟩ := callExpire_cases hexpire
    refine fun q => (h q).sublist (.refl _) fun t _ hset => hset.of_setCall ?_
    exact Pc.ne_of_requeues (hp ▸ rfl) t
  | @fail c p' hfail =>
    refine fun q => (h q).sublist (.refl _) fun t _ hset => hset.of_setCall fun he => ?_
    rw [he] at hfail
    cases hfail
  | @inherit t priority =>
    have hnone := hok.inherit t priority rfl
    refine fun q => (h q).rekey (fun _ _ => id) fun u hu _ => ?_
    have hne : u ≠ t := by
      rintro rfl
      rw [(hi.queues.mem u q).mp hu] at hnone
      cases hnone
    rw [osThreadGetPriority, osThreadGetPriority, Mem.setCurrentPriority_currentPriority,
      Function.update_of_ne hne]
    rfl
  | tick => exact h

theorem ordered_of_reachable
    (h : ReachableVia (system port prio : System (State T Q N) _) PlacesInOrder s) :
    Ordered port s := by
  refine h.induction (fun s (h : Init port prio s) q => ?_) fun s a s' hr ho hok hs =>
    ho.step (waitInv_of_reachable hr) hok hs
  rw [h.queue]
  exact fun l hl _ => List.sublist_nil.mp hl ▸ List.Pairwise.nil

/-- **The wait queues of the RT-Thread backend are in the order of the priorities**, but for the
places of threads whose priority is being changed, where no other thread is put on their wait queue
meanwhile. When there is none on a wait queue, `os_waitq_wake_one` releases a thread of the highest
priority. -/
theorem waiters_ordered
    (h : ReachableVia (system port prio : System (State T Q N) _) PlacesInOrder s) :
    (∀ q l, l.Sublist (s.mem.queue q) → (∀ t ∈ l, s.Settled t) →
      Descending (osThreadGetPriority port s.mem) l) ∧
    ∀ c q reason s', s.call c = .wakeOneLock q reason →
      RtThread.step port s (.step c) = some s' → (∀ t ∈ s.mem.queue q, s.Settled t) →
      s.mem.queue q ≠ [] → ∃ t rest, s.mem.queue q = t :: rest ∧ s'.mem.queue q = rest ∧
        (s'.mem.thread t).waitQ = none ∧
        ∀ u ∈ rest, osThreadGetPriority port s.mem u ≤ osThreadGetPriority port s.mem t := by
  have hordered := ordered_of_reachable h
  refine ⟨hordered, fun c q reason s' hc hs hset hne => ?_⟩
  obtain ⟨t, rest, hl⟩ := List.exists_cons_of_ne_nil hne
  cases step_cases hs with
  | @step _ m' p' hstep =>
    rw [hc] at hstep
    cases hstep
    have hdesc := (hordered q).descending hset
    rw [hl] at hdesc
    refine ⟨t, rest, hl, ?_, ?_, (List.pairwise_cons.mp hdesc).1⟩
    all_goals
      rw [State.setCall_mem, osWaitqWakeHead, hl]
      simp

end

/-! ## Concrete runs -/

/-- The check of `Settled`. -/
def settled (s : State Bool Unit Unit) (t : Bool) : Bool :=
  [.thread false, .thread true, .task (), .isr ()].all fun c => s.call c != .setPriorityLock t

/-- The check of `PlacesInOrder`. -/
def placesInOrder (s : State Bool Unit Unit) : Act Bool Unit Unit → Bool
  | .step c =>
    match s.call c with
    | .blockLock q _ => (s.mem.queue q).all (settled s)
    | .setPriorityLock t =>
      (s.mem.thread t).waitQ.all fun q => (s.mem.queue q).all fun u => u == t || settled s u
    | _ => true
  | .inherit t _ => (s.mem.thread t).waitQ.isNone
  | _ => true

theorem settled_of_check {s : State Bool Unit Unit} {t : Bool} (h : settled s t = true) :
    s.Settled t := by
  simp only [settled, List.all_cons, List.all_nil, Bool.and_eq_true, bne_iff_ne] at h
  intro c
  cases c with
  | thread u =>
    cases u with
    | false => exact h.1
    | true => exact h.2.1
  | task => exact h.2.2.1
  | isr => exact h.2.2.2.1

theorem PlacesInOrder.of_check {s : State Bool Unit Unit} {a : Act Bool Unit Unit}
    (h : placesInOrder s a = true) : PlacesInOrder s a := by
  refine ⟨fun c q t ha hp u hu hne => settled_of_check ?_, fun t priority ha => ?_⟩
  · subst ha
    rcases hp with ⟨-, _, hp⟩ | ⟨hp, hq⟩
    · simp only [placesInOrder, hp, List.all_eq_true] at h
      exact h u hu
    · simp only [placesInOrder, hp, hq, Option.all_some, List.all_eq_true, Bool.or_eq_true,
        beq_iff_eq] at h
      exact (h u hu).resolve_left hne
  · subst ha
    exact Option.isNone_iff_eq_none.mp h

def twoRanks (t : Bool) : Int := if t then 2 else 1

/-- Two threads wait, the second of them in front, until a task lowers its priority. -/
def lowerFrontRun : List (Act Bool Unit Unit) :=
  callSteps (.thread false) (.block () OS_WAIT_FOREVER) 2 ++
    callSteps (.thread true) (.block () OS_WAIT_FOREVER) 2 ++
    callSteps (.task ()) (.setPriority true 0) 4 ++ callSteps (.task ()) (.wakeOne () 5) 0

theorem waiters_ordered_lowered : ∃ s s' : State Bool Unit Unit,
    exec (system ⟨8⟩ twoRanks) (.initial ⟨8⟩ twoRanks) lowerFrontRun = some s ∧
    RtThread.step ⟨8⟩ s (.step (.task ())) = some s' ∧
    ∃ t rest, s.mem.queue () = t :: rest ∧ s'.mem.queue () = rest ∧
      (s'.mem.thread t).waitQ = none ∧
      ∀ u ∈ rest, osThreadGetPriority ⟨8⟩ s.mem u ≤ osThreadGetPriority ⟨8⟩ s.mem t := by
  obtain ⟨s, hs, hc, hset, hne, hstep⟩ := exists_of_exec lowerFrontRun
    (M := system ⟨8⟩ twoRanks) (s := .initial ⟨8⟩ twoRanks)
    (P := fun s => s.call (.task ()) = .wakeOneLock () 5 ∧
      (s.mem.queue ()).all (settled s) = true ∧ s.mem.queue () ≠ [] ∧
      (RtThread.step ⟨8⟩ s (.step (.task ()))).isSome) (by decide +kernel)
  obtain ⟨s', hs'⟩ := Option.isSome_iff_exists.mp hstep
  have h := waiters_ordered (reachableVia_of_execOk lowerFrontRun
    (fun _ _ => PlacesInOrder.of_check) (State.init_initial ⟨8⟩ twoRanks) (by decide +kernel) hs)
  exact ⟨s, s', hs, hs', h.2 (.task ()) () 5 s' hc hs'
    (fun t ht => settled_of_check (List.all_eq_true.mp hset t ht)) hne⟩

def threeRanks (t : Fin 3) : Int := t.val + 2

/-- While a task lowers the priority of the first waiter, a thread comes to wait in front of it and
stays there, before one of higher priority. -/
theorem queue_disordered_by_set_priority : ∃ s : State (Fin 3) Unit Unit,
    exec (system ⟨8⟩ threeRanks) (.initial ⟨8⟩ threeRanks)
      (callSteps (.thread 2) (.block () OS_WAIT_FOREVER) 2 ++
        callSteps (.thread 1) (.block () OS_WAIT_FOREVER) 2 ++
        callSteps (.task ()) (.setPriority 2 1) 3 ++
        callSteps (.thread 0) (.block () OS_WAIT_FOREVER) 2 ++ [.step (.task ())]) = some s ∧
    s.mem.queue () = [0, 1, 2] ∧ s.call (.task ()) = .idle ∧
    osThreadGetPriority ⟨8⟩ s.mem 0 < osThreadGetPriority ⟨8⟩ s.mem 1 :=
  exists_of_exec _ (by decide +kernel)

end HazelOsal.RtThread
