import HazelOsal.RtThread.Leftover

/-! # Delivery of wakes

A wake of the RT-Thread backend leaves its reason in `thread->wait_result` and a token in
`wait_storage`. Whatever ends the native wait, the call of `os_waitq_block` returns the reason of
the wake that has removed its thread, so that no wake is lost to a timeout. -/

namespace HazelOsal.RtThread

open TransitionSystem Parking

variable {T Q N : Type} [DecidableEq T] [DecidableEq Q] [DecidableEq N]

/-- What `thread->wait_result` holds after a wait that has been ended so, or by nobody. -/
def outcome : Option (Removal Q) → UInt32
  | some (.wake _ reason) => reason
  | some .abort | none => 0

/-- What a step does to the outcome of a wait. -/
inductive OutcomeStep (m : Mem T Q) (u : T) : Option (Removal Q) → UInt32 → Prop
  | same : OutcomeStep m u (m.removed u) (m.thread u).waitResult
  | wake (q : Q) (reason : UInt32) : OutcomeStep m u (some (.wake q reason)) reason
  | abort (hw : (m.thread u).waitQ ≠ none) : OutcomeStep m u (some .abort) (m.thread u).waitResult
  | join : OutcomeStep m u none 0

section
variable {port : Port} {prio : T → Int} {s s' : State T Q N} {a : Act T Q N} {c : Caller T N}
  {m m' : Mem T Q} {p p' : Pc T Q} {t u : T} {v : Slot Q}

/-! ## The reason -/

omit [DecidableEq T] [DecidableEq Q] in
theorem OutcomeStep.of_eq (hr : m'.removed = m.removed)
    (hw : ∀ u, (m'.thread u).waitResult = (m.thread u).waitResult) :
    OutcomeStep m u (m'.removed u) (m'.thread u).waitResult := by
  rw [hr, hw]
  exact .same

omit [DecidableEq Q] in
theorem waitResult_setThread {v : OsThread Q} (hv : v.waitResult = (m.thread t).waitResult)
    (u : T) : ((m.setThread t v).thread u).waitResult = (m.thread u).waitResult := by
  rw [Mem.setThread_thread, Function.update_apply]
  split
  case isTrue he => rw [he, hv]
  case isFalse => rfl

omit [DecidableEq Q] in
theorem OutcomeStep.setThread {v : OsThread Q}
    (h : OutcomeStep m u (m'.removed u) (m'.thread u).waitResult)
    (hv : v.waitResult = (m'.thread t).waitResult) :
    OutcomeStep m u ((m'.setThread t v).removed u) ((m'.setThread t v).thread u).waitResult := by
  rw [waitResult_setThread hv]
  exact h

theorem waitqWakeHead_outcome {q : Q} {reason : UInt32} :
    (osWaitqWakeHead m q reason).removed u = m.removed u ∧
        ((osWaitqWakeHead m q reason).thread u).waitResult = (m.thread u).waitResult ∨
      (osWaitqWakeHead m q reason).removed u = some (.wake q reason) ∧
        ((osWaitqWakeHead m q reason).thread u).waitResult = reason := by
  rw [osWaitqWakeHead]
  split
  case h_1 => exact .inl ⟨rfl, rfl⟩
  case h_2 t rest hl =>
    by_cases hu : u = t
    · subst hu
      right
      simp
    · left
      simp [hu]

theorem waitqWakeAll_outcome {q : Q} {reason : UInt32} :
    (osWaitqWakeAll m q reason).removed u = m.removed u ∧
        ((osWaitqWakeAll m q reason).thread u).waitResult = (m.thread u).waitResult ∨
      (osWaitqWakeAll m q reason).removed u = some (.wake q reason) ∧
        ((osWaitqWakeAll m q reason).thread u).waitResult = reason := by
  refine wakeAll_induction (P := fun m' =>
    m'.removed u = m.removed u ∧ (m'.thread u).waitResult = (m.thread u).waitResult ∨
      m'.removed u = some (.wake q reason) ∧ (m'.thread u).waitResult = reason)
    (.inl ⟨rfl, rfl⟩) fun m' h => ?_
  rcases waitqWakeHead_outcome (m := m') (u := u) (q := q) with ⟨hr, hw⟩ | hwoken
  · rwa [hr, hw]
  · exact .inr hwoken

omit [DecidableEq Q] in
theorem blockFinish_outcome {result : Int} :
    OutcomeStep m u ((osWaitqBlockFinish m t result).1.removed u)
      ((osWaitqBlockFinish m t result).1.thread u).waitResult := by
  rw [osWaitqBlockFinish]
  split
  case isTrue => exact .of_eq rfl (waitResult_setThread (m := m.unlinkWait t) rfl)
  case isFalse => exact .of_eq rfl (waitResult_setThread rfl)

omit [DecidableEq Q] in
theorem abortDequeue_outcome : OutcomeStep m u ((osThreadAbortDequeue m t).removed u)
    ((osThreadAbortDequeue m t).thread u).waitResult := by
  rw [osThreadAbortDequeue]
  split
  case isTrue hw =>
    have hresult := waitResult_setThread (m := m.unlinkWait t) (t := t)
      (v := { m.thread t with waitQ := none }) rfl u
    rw [Mem.record_thread, hresult, Mem.record_removed, Function.update_apply]
    split
    case isTrue hu => exact .abort (hu ▸ hw)
    case isFalse => exact .same
  case isFalse => exact .same

omit [DecidableEq N] in
/-- **What the steps of the calls do to the outcome of a wait.** -/
theorem callStep_outcome (hs : callStep port c m p = some (m', p')) (u : T) :
    OutcomeStep m u (m'.removed u) (m'.thread u).waitResult := by
  cases p with
  | idle | done => cases hs
  | blockEnter | abortEnter | setPriorityEnter =>
    simp only [callStep] at hs
    repeat' split at hs
    all_goals cases hs; exact .same
  | blockLock q =>
    obtain ⟨t, -, hs⟩ := Option.map_eq_some_iff.mp hs
    cases hs
    rw [osWaitqBlockEnqueue, osRtWaitqInsertLocked]
    by_cases hu : u = t
    · subst hu
      simpa using .join
    · simpa [hu] using .same
  | blockTake =>
    obtain ⟨t, -, hs⟩ := Option.map_eq_some_iff.mp hs
    split at hs
    case h_1 => cases hs; exact .same
    case h_2 => split at hs <;> cases hs <;> exact .same
  | blockWaiting =>
    obtain ⟨t, -, hs⟩ := Option.bind_eq_some_iff.mp hs
    obtain ⟨sem, -, hs⟩ := Option.map_eq_some_iff.mp hs
    cases hs
    exact .same
  | blockFinish =>
    obtain ⟨t, -, hs⟩ := Option.map_eq_some_iff.mp hs
    cases hs
    exact blockFinish_outcome
  | wakeOneLock q reason =>
    cases hs
    rcases waitqWakeHead_outcome (m := m) (u := u) (q := q) with ⟨hr, hw⟩ | ⟨hr, hw⟩
    · rw [hr, hw]
      exact .same
    · rw [hr, hw]
      exact .wake q _
  | wakeAllLock q reason =>
    cases hs
    rcases waitqWakeAll_outcome (m := m) (u := u) (q := q) with ⟨hr, hw⟩ | ⟨hr, hw⟩
    · rw [hr, hw]
      exact .same
    · rw [hr, hw]
      exact .wake q _
  | setPriorityBase | abortRestore | abortGive | abortSignal =>
    cases hs
    exact .of_eq rfl (waitResult_setThread rfl)
  | setPriorityControl | abortDetach =>
    cases hs
    exact .same
  | setPriorityLock =>
    cases hs
    rw [osThreadSetPriorityRequeue]
    split
    all_goals exact .same
  | abortLock t =>
    simp only [callStep, osThreadAbortCritical] at hs
    split at hs
    case isTrue => cases hs; exact .same
    case isFalse =>
      cases hs
      exact abortDequeue_outcome.setThread rfl
  | exitComplete | exitGive | exitSignal =>
    obtain ⟨t, -, hs⟩ := Option.map_eq_some_iff.mp hs
    cases hs
    exact .of_eq rfl (waitResult_setThread rfl)
  | exitNative =>
    obtain ⟨t, -, hs⟩ := Option.map_eq_some_iff.mp hs
    cases hs
    exact .same

/-! ## The token -/

/-- A thread that a wake has removed finds a token when it waits natively. -/
def Supplied (v : Slot Q) (p : Pc T Q) : Prop :=
  ∀ q reason, v.removed = some (.wake q reason) → p.waitPhase = .waiting → 0 < v.waitStorage.count

omit [DecidableEq T] [DecidableEq Q] in
theorem Supplied.of_waitsOn_none (h : p.waitsOn = none) : Supplied v p := by
  intro q reason _ hp
  rw [Pc.waitPhase_of_waitsOn_none h] at hp
  cases hp

omit [DecidableEq T] [DecidableEq Q] in
theorem OwnStep.supplied (h : OwnStep m u p v p') (hok : Supplied (m.slot u) p) :
    Supplied v p' := by
  cases h with
  | blocked => exact fun _ _ hr => by cases hr
  | taken | refused => exact fun _ _ _ hp => by cases hp
  | parked => exact fun q reason hr _ => hok q reason hr rfl
  | unblocked | returned => exact .of_waitsOn_none rfl

omit [DecidableEq T] [DecidableEq Q] [DecidableEq N] in
theorem SlotStep.supplied (h : SlotStep s a u v p')
    (hok : Supplied (s.mem.slot u) (s.call (.thread u))) : Supplied v p' := by
  cases h with
  | other hv =>
    rcases hv with rfl | ⟨c, -, hv⟩
    · exact hok
    · cases hv with
      | same => exact hok
      | wake => exact fun _ _ _ _ => Counting.give_pos Nat.one_pos _
      | abort => exact fun _ _ hr => by cases hr
  | outside hp hp' => exact .of_waitsOn_none hp'
  | own h => exact h.supplied hok
  | expire h =>
    obtain ⟨_, _, _, _, _, -, -, -, -, rfl⟩ := callExpire_cases h
    exact fun _ _ _ hp => by cases hp

/-! ## The whole system -/

/-- A removed thread has its reason and, until it has used it, a token. -/
structure DeliveryInv (s : State T Q N) (t : T) : Prop where
  result : (s.mem.thread t).waitResult = outcome (s.mem.removed t)
  token : Supplied (s.mem.slot t) (s.call (.thread t))

theorem deliveryInv_of_reachable (h : Reachable (system port prio : System (State T Q N) _) s)
    (t : T) : DeliveryInv s t := by
  refine h.induction (I := fun s => DeliveryInv s t) (fun s (h : Init port prio s) => ⟨?_, ?_⟩)
    fun s a s' hr hd _ hs => ?_
  · rw [h.thread, h.removed]
    rfl
  · exact .of_waitsOn_none (by rw [h.call]; rfl)
  · have hi := waitInv_of_reachable hr
    refine ⟨?_, (step_slot hi hs t).supplied hd.token⟩
    cases step_cases hs with
    | call | expire | fail | inherit | tick => exact hd.result
    | @step c m' p' hstep =>
      have hout := callStep_outcome hstep t
      rw [State.setCall_mem]
      generalize m'.removed t = r, (m'.thread t).waitResult = w at hout
      cases hout with
      | same => exact hd.result
      | wake | join => rfl
      | abort hw =>
        have hnone : s.mem.removed t = none := (hi.waits t).queued hw
        rw [hd.result, hnone]
        rfl

/-- A call that comes to its end. -/
theorem step_blockFinish {q : Q} {timeout : UInt32} {began : Nat} {result : Int}
    (hc : s.call (.thread t) = .blockFinish q timeout began result)
    (hs : step port s (.step (.thread t)) = some s') :
    (s'.mem.thread t).waitQ = none ∧ s'.call (.thread t) =
      .done (if (s.mem.thread t).waitQ = none then (s.mem.thread t).waitResult.toInt32.toInt
        else if result = -RT_ETIMEOUT then -ETIMEDOUT else -EAGAIN) := by
  cases step_cases hs with
  | @step _ m' p' hstep =>
    rw [hc] at hstep
    have hown := callStep_ownStep hstep rfl
    rw [State.setCall_call, if_pos rfl, State.setCall_mem]
    have hslot : (m'.thread t).waitQ = (m'.slot t).waitQ := rfl
    rw [hslot]
    generalize m'.slot t = v at hown
    cases hown with
    | unblocked hw => exact ⟨rfl, by rw [if_neg hw]⟩
    | returned hw => exact ⟨hw, by rw [if_pos hw]⟩
    | taken _ hp => rcases hp with hp | ⟨_, hp⟩ <;> cases hp

omit [DecidableEq T] [DecidableEq Q] in
/-- A thread that a wake has removed is off the wait queue of its call, which the wake is for. -/
theorem WaitOk.woken {q q' : Q} {reason : UInt32} (h : WaitOk v p)
    (hr : v.removed = some (.wake q' reason)) (hp : p.waitsOn = some q) :
    v.waitQ = none ∧ q' = q := by
  have hnone : v.waitQ = none := by
    by_contra hne
    rw [h.queued hne] at hr
    cases hr
  obtain ⟨r, hr', hfrom⟩ := h.left _ hp hnone
  cases hr.symm.trans hr'
  cases hfrom
  exact ⟨hnone, rfl⟩

/-- What a call returns, by what has removed its thread. -/
theorem blockFinish_returns (h : Reachable (system port prio : System (State T Q N) _) s) {q : Q}
    {timeout : UInt32} {began : Nat} {result : Int}
    (hc : s.call (.thread t) = .blockFinish q timeout began result)
    (hs : step port s (.step (.thread t)) = some s') :
    match s.mem.removed t with
    | some (.wake q' reason) => q' = q ∧ s'.call (.thread t) = .done reason.toInt32.toInt
    | some .abort => s'.call (.thread t) = .done 0
    | none => s'.call (.thread t) =
      .done (if result = -RT_ETIMEOUT then -ETIMEDOUT else -EAGAIN) := by
  have hwait := (waitInv_of_reachable h).waits t
  rw [hc] at hwait
  have hresult := (deliveryInv_of_reachable h t).result
  have hret := (step_blockFinish hc hs).2
  cases hr : s.mem.removed t with
  | none =>
    have hw : (s.mem.thread t).waitQ ≠ none := fun hw => by
      obtain ⟨r, hr', -⟩ := hwait.left q rfl hw
      cases hr.symm.trans hr'
    rwa [if_neg hw] at hret
  | some removal =>
    rw [hr] at hresult
    have hw : (s.mem.thread t).waitQ = none := by
      by_contra hne
      cases hr.symm.trans (hwait.queued hne)
    rw [if_pos hw, hresult] at hret
    cases removal with
    | wake q' reason => exact ⟨(hwait.woken hr rfl).2, hret⟩
    | abort => exact hret

/-- A live thread goes on from the end of its native wait. -/
theorem exists_step_blockFinish (port : Port) {q : Q} {timeout : UInt32} {began : Nat}
    {result : Int} (hd : s.mem.deleted t = false)
    (hc : s.call (.thread t) = .blockFinish q timeout began result) :
    ∃ s', step port s (.step (.thread t)) = some s' := by
  have ha : s.alive (.thread t) := by simpa [State.alive, Caller.current] using hd
  exact ⟨_, by rw [step, if_pos ha, hc]; rfl⟩

/-- A live thread takes its token. -/
theorem exists_step_take (port : Port) {q : Q} (hd : s.mem.deleted t = false)
    (hn : 0 < (s.mem.waitStorage t).count) (hp : (s.call (.thread t)).waitPhase = .waiting)
    (hq : (s.call (.thread t)).waitsOn = some q) :
    ∃ s' timeout began, step port s (.step (.thread t)) = some s' ∧
      s'.call (.thread t) = .blockFinish q timeout began RT_EOK ∧
      s'.mem.deleted t = false ∧ s'.mem.removed = s.mem.removed := by
  have ha : s.alive (.thread t) := by simpa [State.alive, Caller.current] using hd
  have htake : ∃ sem, (s.mem.waitStorage t).take? = some sem := by
    by_contra hne
    have hnone := Option.eq_none_iff_forall_ne_some.mpr (not_exists.mp hne)
    exact Nat.ne_of_gt hn (Counting.take?_eq_none hnone)
  obtain ⟨sem, hsem⟩ := htake
  generalize hc : s.call (.thread t) = p at hp hq
  cases p with
  | blockTake q' timeout began | blockWaiting q' timeout began =>
    cases hq
    refine ⟨s.setCall (.thread t) (s.mem.setWaitStorage t sem)
      (.blockFinish q timeout began RT_EOK), timeout, began, ?_,
      by rw [State.setCall_call, if_pos rfl], hd, rfl⟩
    rw [step, if_pos ha]
    simp [hc, callStep, Caller.current, hsem]
  | _ => cases hp

/-- **Every wake is delivered exactly once**, whatever the interleaving. A call whose thread a wake
has removed returns the reason of this wake, also when its native wait has timed out in the
meantime; a call whose thread nothing has removed takes it off the queue and reports a timeout, or
`-EAGAIN` after a leftover token; and a removed thread needs at most two steps of its own to
return. -/
theorem wake_reason_returned (h : Reachable (system port prio : System (State T Q N) _) s) (t : T)
    (q : Q) :
    (∀ timeout began result s', s.call (.thread t) = .blockFinish q timeout began result →
      step port s (.step (.thread t)) = some s' →
        (s'.mem.thread t).waitQ = none ∧
        match s.mem.removed t with
        | some (.wake q' reason) => q' = q ∧ s'.call (.thread t) = .done reason.toInt32.toInt
        | some .abort => s'.call (.thread t) = .done 0
        | none => s'.call (.thread t) =
          .done (if result = -RT_ETIMEOUT then -ETIMEDOUT else -EAGAIN)) ∧
    ∀ q' reason, s.mem.removed t = some (.wake q' reason) →
      (s.call (.thread t)).waitsOn = some q → s.mem.deleted t = false →
        ∃ n ≤ 2, ∃ s', exec (system port prio) s (List.replicate n (.step (.thread t))) = some s' ∧
          s'.call (.thread t) = .done reason.toInt32.toInt := by
  refine ⟨fun timeout began result s' hc hs =>
    ⟨(step_blockFinish hc hs).1, blockFinish_returns h hc hs⟩, fun q' reason hr hq hd => ?_⟩
  cases hp : (s.call (.thread t)).waitPhase with
  | outside =>
    generalize s.call (.thread t) = p at hp hq
    cases p <;> cases hp <;> cases hq
  | waiting =>
    have hn := (deliveryInv_of_reachable h t).token q' reason hr hp
    obtain ⟨s₁, timeout, began, hs₁, hc, hd₁, hr₁⟩ := exists_step_take port hd hn hp hq
    obtain ⟨s₂, hs₂⟩ := exists_step_blockFinish port hd₁ hc
    have hret := blockFinish_returns (h.step (a := .step (.thread t)) trivial hs₁) hc hs₂
    rw [hr₁, hr] at hret
    refine ⟨2, le_rfl, s₂, ?_, hret.2⟩
    simp [exec, system, List.replicate, hs₁, hs₂]
  | ended =>
    generalize hc : s.call (.thread t) = p at hp hq
    cases p with
    | blockFinish q timeout began result =>
      cases hq
      obtain ⟨s', hs'⟩ := exists_step_blockFinish port hd hc
      have hret := blockFinish_returns h hc hs'
      rw [hr] at hret
      refine ⟨1, by omega, s', ?_, hret.2⟩
      simp [exec, system, List.replicate, hs']
    | _ => cases hp

end

/-- A thread waits with a timeout, and a task wakes it after the timeout. -/
def lateWakeRun : List (Act Unit Unit Unit) :=
  callSteps (.thread ()) (.block () 1) 3 ++ [.tick, .expire (.thread ())] ++
    callSteps (.task ()) (.wakeOne () 5) 1

/-- The call returns the reason of the wake, where that of the FreeRTOS backend times out. -/
theorem wake_reason_returned_late : ∃ n ≤ 2, ∃ s s' : State Unit Unit Unit,
    exec (system ⟨8⟩ fun _ => 1) (.initial ⟨8⟩ fun _ => 1) lateWakeRun = some s ∧
    s.call (.thread ()) = .blockFinish () 1 0 (-RT_ETIMEOUT) ∧
    exec (system ⟨8⟩ fun _ => 1) s (List.replicate n (.step (.thread ()))) = some s' ∧
    s'.call (.thread ()) = .done 5 := by
  obtain ⟨s, hs, hc, hr, hd⟩ := exists_of_exec lateWakeRun
    (M := system ⟨8⟩ fun _ => 1) (s := .initial ⟨8⟩ fun _ => 1)
    (P := fun s => s.call (.thread ()) = .blockFinish () 1 0 (-RT_ETIMEOUT) ∧
      s.mem.removed () = some (.wake () 5) ∧ s.mem.deleted () = false) (by decide +kernel)
  obtain ⟨-, h⟩ := wake_reason_returned
    (reachable_of_exec lateWakeRun (State.init_initial ⟨8⟩ fun _ => 1) hs) () ()
  obtain ⟨n, hn, s', hs', hret⟩ := h () 5 hr (by rw [hc]; rfl) hd
  exact ⟨n, hn, s, s', hs, hc, hs', hret⟩

end HazelOsal.RtThread
