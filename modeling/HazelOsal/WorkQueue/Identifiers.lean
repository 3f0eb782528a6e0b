import HazelOsal.WorkQueue.Refinement

/-! # Submission, running and completion identifiers

`os_work_flush` waits until `completion_id` is the `submission_id` it has read. An idle item has
`completion_id == submission_id`, and a flush sees its completion, as long as no
`os_work_cancel` finds the item both running and queued: such a cancel takes the requeued
submission off the list, but leaves `completion_id` to the running one. A flush also misses its
completion when a later one is written over it before it looks. -/

namespace HazelOsal

open TransitionSystem

variable {Q W T : Type} [DecidableEq Q] [DecidableEq W] [DecidableEq T]

section
variable {m m' : Mem Q W} {q : Q} {w w' d : W}

/-! ## Steps that leave the items alone -/

/-- The memories agree on `w` but for the synchronous semaphore and `OS_WORK_DELAYED`. -/
def SameItem (m m' : Mem Q W) (w : W) : Prop :=
  ∃ sync delayed, m'.work w =
    { m.work w with sync, flags := { (m.work w).flags with delayed } }

/-- They agree so on every item, and the submissions made, run and settled are as before. -/
structure SameItems (m m' : Mem Q W) : Prop where
  item : ∀ w, SameItem m m' w
  hist : m'.hist.submitted = m.hist.submitted ∧ m'.hist.running = m.hist.running ∧
    m'.hist.ids = m.hist.ids ∧ m'.hist.finished = m.hist.finished ∧
    m'.hist.canceled = m.hist.canceled

omit [DecidableEq Q] [DecidableEq W] in
theorem SameItems.trans {m₁ m₂ m₃ : Mem Q W} (h : SameItems m₁ m₂) (h' : SameItems m₂ m₃) :
    SameItems m₁ m₃ := by
  obtain ⟨hw, hs, hr, hi, hf, hc⟩ := h
  obtain ⟨hw', hs', hr', hi', hf', hc'⟩ := h'
  refine ⟨fun w => ?_, hs'.trans hs, hr'.trans hr, hi'.trans hi, hf'.trans hf, hc'.trans hc⟩
  obtain ⟨sync, delayed, hw⟩ := hw w
  obtain ⟨sync', delayed', hw'⟩ := hw' w
  exact ⟨sync', delayed', by rw [hw', hw]⟩

omit [DecidableEq Q] [DecidableEq W] in
theorem Same.sameItems (h : Same m m') : SameItems m m' := by
  obtain ⟨jt, hj⟩ := h.hist
  refine ⟨fun w => ⟨_, (m.work w).flags.delayed, h.work w⟩, ?_⟩
  rw [hj]
  exact ⟨rfl, rfl, rfl, rfl, rfl⟩

omit [DecidableEq Q] [DecidableEq W] in
theorem SameRun.sameItems (h : SameRun m m')
    (hh : m'.hist.submitted = m.hist.submitted ∧ m'.hist.running = m.hist.running ∧
      m'.hist.ids = m.hist.ids ∧ m'.hist.finished = m.hist.finished ∧
      m'.hist.canceled = m.hist.canceled) :
    SameItems m m' := by
  refine ⟨fun w => ?_, hh⟩
  obtain ⟨delayed, hw⟩ := h.work w
  exact ⟨(m.work w).sync, delayed, hw⟩

omit [DecidableEq Q] in
theorem settle_sameItems {j : Nat} {f : Fate} : SameItems m (m.settle d j f) :=
  ⟨fun _ => ⟨_, _, rfl⟩, rfl, rfl, rfl, rfl, rfl⟩

omit [DecidableEq W] in
theorem setQueue_sameItems {v : OsWorkQueue W} : SameItems m (m.setQueue q v) :=
  ⟨fun _ => ⟨_, _, rfl⟩, rfl, rfl, rfl, rfl, rfl⟩

omit [DecidableEq Q] in
theorem clearDelayed_sameItems : SameItems m (clearDelayed m d) :=
  clearDelayed_sameRun.sameItems ⟨rfl, rfl, rfl, rfl, rfl⟩

omit [DecidableEq Q] in
theorem undelay_sameItems {f : Fate} : SameItems m (undelay m d f) :=
  clearDelayed_sameItems.trans settle_sameItems

theorem arm_sameItems {delay : UInt32} : SameItems m (osWorkArm m q d delay) :=
  arm_sameRun.sameItems ⟨rfl, rfl, rfl, rfl, rfl⟩

omit [DecidableEq T] in
/-- A call changes an item by a submission or by a cancel only. -/
theorem CallEffect.sameItems {c : Ctx Q T} {p p' : Pc Q W} (h : CallEffect c m p m' p') :
    SameItems m m' ∨
    (∃ q w, SubmitAccepts c.caller m q w ∧ m' = osWorkEnqueue m q w) ∨
    ∃ w k, p = .cancelLock w k ∧ m' = (osWorkCancelCritical m w).1 := by
  cases h with
  | same h => exact .inl h.same.sameItems
  | enqueue ha => exact .inr (.inl ⟨_, _, ha, rfl⟩)
  | cancel => exact .inr (.inr ⟨_, _, rfl, rfl⟩)
  | arm => exact .inl arm_sameItems
  | rearm => exact .inl (undelay_sameItems.trans arm_sameItems)
  | unschedule | cancelDelayable | flushDelayable | purge => exact .inl undelay_sameItems
  | markStop | zero => exact .inl setQueue_sameItems

/-- A worker changes an item by a submission, by starting it or by completing it only. -/
theorem WorkerEffect.sameItems {p p' : WorkerPc Q W} (h : WorkerEffect m q p m' p') :
    SameItems m m' ∨
    (∃ q' w d j, SubmitAccepts (some q) m q' w ∧
      m' = (osWorkEnqueue m q' w).settle d j .submitted) ∨
    (∃ w rest, p = .pop ∧ (m.queue q).fifo.list = .work w :: rest ∧
      m' = osWorkQueueEntryStart m q w rest) ∨
    ∃ w, p = .complete w ∧ m' = osWorkQueueEntryComplete m q w := by
  cases h with
  | same h => exact .inl h.same.sameItems
  | refuse => exact .inl settle_sameItems
  | enqueue ha => exact .inr (.inl ⟨_, _, _, _, ha, rfl⟩)
  | promote => exact .inl clearDelayed_sameItems
  | block => exact .inl undelay_sameItems
  | stop => exact .inl setQueue_sameItems
  | start hl => exact .inr (.inr (.inl ⟨_, _, rfl, hl, rfl⟩))
  | complete => exact .inr (.inr (.inr ⟨_, rfl, rfl⟩))

/-- The identifiers, the two flags they depend on, and the settled submissions are as before. -/
structure SameIds (m m' : Mem Q W) : Prop where
  work : ∀ w, (m'.work w).submissionId = (m.work w).submissionId ∧
    (m'.work w).runningId = (m.work w).runningId ∧
    (m'.work w).completionId = (m.work w).completionId ∧
    (m'.work w).flags.running = (m.work w).flags.running ∧
    (m'.work w).flags.queued = (m.work w).flags.queued
  hist : m'.hist.submitted = m.hist.submitted ∧ m'.hist.running = m.hist.running ∧
    m'.hist.ids = m.hist.ids ∧ m'.hist.finished = m.hist.finished ∧
    m'.hist.canceled = m.hist.canceled

omit [DecidableEq Q] [DecidableEq W] in
theorem SameItems.sameIds (h : SameItems m m') : SameIds m m' := by
  refine ⟨fun w => ?_, h.hist⟩
  obtain ⟨sync, delayed, hw⟩ := h.item w
  rw [hw]
  exact ⟨rfl, rfl, rfl, rfl, rfl⟩

/-! ## Which submission is settled -/

/-- Submission `k` of `w` has finished running or was canceled. -/
def History.Settled (h : History Q W) (w : W) (k : Nat) : Prop :=
  (w, k) ∈ h.finished ∨ (w, k) ∈ h.canceled

instance (h : History Q W) (w : W) (k : Nat) : Decidable (h.Settled w k) :=
  inferInstanceAs (Decidable (_ ∨ _))

/-- Submissions are started, and finish, in the order of their numbers. -/
structure SettledInv (m : Mem Q W) : Prop where
  running : ∀ w, m.hist.running w ≤ m.hist.submitted w
  queued : ∀ w, (m.work w).flags.queued = true → m.hist.running w < m.hist.submitted w
  finished : ∀ w k, (w, k) ∈ m.hist.finished → k ≤ m.hist.running w ∧
    ((m.work w).flags.running = true → k < m.hist.running w)

omit [DecidableEq Q] [DecidableEq W] in
theorem SettledInv.sameIds (h : SettledInv m) (hs : SameIds m m') : SettledInv m' := by
  obtain ⟨hw, hsub, hrun, -, hfin, -⟩ := hs
  constructor
  · rw [hsub, hrun]; exact h.running
  · intro w; rw [hsub, hrun, (hw w).2.2.2.2]; exact h.queued w
  · intro w k; rw [hfin, hrun, (hw w).2.2.2.1]; exact h.finished w k

theorem SettledInv.enqueue (h : SettledInv m) : SettledInv (osWorkEnqueue m q w) := by
  have hsub (w' : W) : (osWorkEnqueue m q w).hist.submitted w' =
      if w' = w then m.hist.submitted w + 1 else m.hist.submitted w' := by
    simp only [enqueue_hist, History.accept, Function.update_apply]
  constructor
  · intro w'
    rw [hsub]
    split
    case isTrue he => exact Nat.le_succ_of_le (he ▸ h.running w')
    case isFalse => exact h.running w'
  · intro w' hq
    rw [hsub]
    rw [enqueue_work] at hq
    split at hq
    case isTrue he =>
      rw [if_pos he]
      exact Nat.lt_succ_of_le (he ▸ h.running w')
    case isFalse he =>
      rw [if_neg he]
      exact h.queued w' hq
  · intro w' k hk
    have hflag : ((osWorkEnqueue m q w).work w').flags.running = (m.work w').flags.running := by
      rw [enqueue_work]
      split
      case isTrue he => rw [he]
      case isFalse => rfl
    rw [hflag]
    exact h.finished w' k hk

theorem SettledInv.cancel (h : SettledInv m) (hr : RunInv m) :
    SettledInv (osWorkCancelCritical m w).1 := by
  have hflags (w' : W) :
      (((osWorkCancelCritical m w).1.work w').flags.running = (m.work w').flags.running) ∧
      (((osWorkCancelCritical m w).1.work w').flags.queued = true →
        (m.work w').flags.queued = true) := by
    rcases cancel_cases hr w with ⟨-, hm, -⟩ | ⟨q, -, -, hm, -⟩ <;> rw [hm, mark_work]
    · grind
    · simp only [dequeue_work]; grind
  have hhist := cancel_hist hr w
  constructor
  · rw [hhist]; exact h.running
  · intro w' hq; rw [hhist]; exact h.queued w' ((hflags w').2 hq)
  · intro w' k; rw [hhist, (hflags w').1]; exact h.finished w' k

theorem SettledInv.start {rest : List (FifoNode W)} (h : SettledInv m) (hr : RunInv m)
    (hl : (m.queue q).fifo.list = .work w :: rest) :
    SettledInv (osWorkQueueEntryStart m q w rest) := by
  have hlt := h.queued w (hr.queued_head hl).1
  have hrun (w' : W) : (osWorkQueueEntryStart m q w rest).hist.running w' =
      if w' = w then m.hist.submitted w else m.hist.running w' := by
    simp only [osWorkQueueEntryStart, Function.update_apply]; rfl
  have hsub : (osWorkQueueEntryStart m q w rest).hist.submitted = m.hist.submitted := rfl
  have hfin : (osWorkQueueEntryStart m q w rest).hist.finished = m.hist.finished := rfl
  constructor
  · intro w'
    rw [hsub, hrun]
    split
    case isTrue he => rw [he]
    case isFalse => exact h.running w'
  · intro w' hq
    rw [start_work] at hq
    split at hq
    case isTrue => cases hq
    case isFalse he =>
      rw [hsub, hrun, if_neg he]
      exact h.queued w' hq
  · intro w' k hk
    have hold := h.finished w' k (hfin ▸ hk)
    rw [hrun, start_work]
    split
    case isTrue he =>
      -- what has finished is older than the submission that starts
      subst he
      have := hold.1
      exact ⟨by omega, fun _ => by omega⟩
    case isFalse => exact hold

theorem SettledInv.complete (h : SettledInv m) : SettledInv (osWorkQueueEntryComplete m q w) := by
  have hrun : (osWorkQueueEntryComplete m q w).hist.running = m.hist.running := rfl
  have hfin : (osWorkQueueEntryComplete m q w).hist.finished =
      m.hist.finished ++ [(w, m.hist.running w)] := rfl
  constructor
  · exact h.running
  · intro w' hq
    rw [complete_work] at hq
    split at hq
    case isTrue he => exact h.queued w' (he ▸ hq)
    case isFalse => exact h.queued w' hq
  · intro w' k hk
    rw [hfin, List.mem_append, List.mem_singleton, Prod.mk.injEq] at hk
    rw [hrun, complete_work]
    split
    case isTrue he =>
      subst he
      refine ⟨?_, fun hf => by cases hf⟩
      rcases hk with hk | ⟨-, rfl⟩
      · exact (h.finished w' k hk).1
      · exact Nat.le_refl _
    case isFalse he => exact h.finished w' k (hk.resolve_right fun h => he h.1)

end

omit [DecidableEq Q] [DecidableEq W] [DecidableEq T] in
theorem SettledInv.init {s : State Q W T} (h : Init s) : SettledInv s.mem := by
  constructor
  · intro w; rw [h.hist]; exact Nat.le_refl 0
  · intro w hq; rw [h.flags] at hq; cases hq
  · intro w k hk; rw [h.hist] at hk; cases hk

theorem SettledInv.step {s t : State Q W T} {a : Act Q W T} (h : SettledInv s.mem)
    (hi : StateInv s) (hs : HazelOsal.step s a = some t) : SettledInv t.mem := by
  cases step_effect hs with
  | call | expire | workerExpire => exact h
  | step hstep he =>
    rcases he.sameItems with hsame | ⟨q, w, -, rfl⟩ | ⟨w, k, -, rfl⟩
    · exact h.sameIds hsame.sameIds
    · exact h.enqueue
    · exact h.cancel hi.mem.toRunInv
  | worker hfree hstep he =>
    rcases he.sameItems with hsame | ⟨q', w, d, j, -, rfl⟩ | ⟨w, rest, -, hl, rfl⟩ | ⟨w, -, rfl⟩
    · exact h.sameIds hsame.sameIds
    · exact h.enqueue.sameIds settle_sameItems.sameIds
    · exact h.start hi.mem.toRunInv hl
    · exact h.complete
  | tick => exact h.sameIds Same.tick.sameItems.sameIds

theorem settledInv_of_reachable {s : State Q W T} (h : Reachable (workQueueSystem Q W T) s) :
    SettledInv s.mem :=
  ReachableVia.invariant (I := fun s => SettledInv s.mem) (fun _ => SettledInv.init)
    (fun _ _ _ hr hi _ hs => hi.step (stateInv_of_reachable hr) hs) h

/-! ## The identifiers of one item -/

/-- The step is not the critical section of an `os_work_cancel` that finds `w` both running and
queued. -/
def cancelsOneInstance (w : W) (s : State Q W T) : Act Q W T → Bool
  | .step c =>
    match s.call c with
    | .cancelLock w' _ =>
      !(w' = w && (s.mem.work w).flags.running && (s.mem.work w).flags.queued)
    | _ => true
  | _ => true

/-- Once `w` is not queued, the submission last made is the one that runs or has completed. -/
structure IdInv (w : W) (m : Mem Q W) : Prop where
  idle : (m.work w).flags.running = false → (m.work w).flags.queued = false →
    (m.work w).completionId = (m.work w).submissionId
  running : (m.work w).flags.running = true → (m.work w).flags.queued = false →
    (m.work w).runningId = (m.work w).submissionId ∧ m.hist.running w = m.hist.submitted w

section
variable {m m' : Mem Q W} {q : Q} {w w' : W}

omit [DecidableEq Q] [DecidableEq W] in
theorem IdInv.sameIds (h : IdInv w m) (hs : SameIds m m') : IdInv w m' := by
  obtain ⟨hw, hsub, hrun, -⟩ := hs
  obtain ⟨h₁, h₂, h₃, h₄, h₅⟩ := hw w
  constructor
  · rw [h₁, h₃, h₄, h₅]; exact h.idle
  · rw [h₁, h₂, h₄, h₅, hsub, hrun]; exact h.running

omit [DecidableEq Q] [DecidableEq W] in
theorem IdInv.congr (h : IdInv w m) (hw : m'.work w = m.work w)
    (hsub : m'.hist.submitted w = m.hist.submitted w)
    (hrun : m'.hist.running w = m.hist.running w) : IdInv w m' := by
  constructor
  · rw [hw]; exact h.idle
  · rw [hw, hsub, hrun]; exact h.running

theorem IdInv.enqueue (h : IdInv w m) : IdInv w (osWorkEnqueue m q w') := by
  by_cases he : w = w'
  case neg => exact h.congr (enqueue_work.trans (if_neg he)) (Function.update_of_ne he _ _) rfl
  subst he
  have hwork := (enqueue_work (m := m) (q := q)).trans (if_pos (rfl : w = w))
  constructor <;> rw [hwork]
  case idle | running => exact fun _ hq => by cases hq

omit [DecidableEq Q] in
/-- A cancel marks an item that runs; of one that does not it makes the identifiers equal. -/
theorem IdInv.mark (hrunning : (m.work w).flags.running = true →
    (m.work w).runningId = (m.work w).submissionId ∧ m.hist.running w = m.hist.submitted w) :
    IdInv w (osWorkCancelMark m w) := by
  have hwork := (mark_work (m := m)).trans (if_pos (rfl : w = w))
  cases hrun : (m.work w).flags.running with
  | false =>
    rw [hrun, if_neg (by decide)] at hwork
    constructor <;> rw [hwork]
    case idle => exact fun _ _ => rfl
    case running => exact fun hr => absurd (hrun.symm.trans hr) (by decide)
  | true =>
    rw [if_pos hrun] at hwork
    constructor <;> rw [hwork]
    case idle => exact fun hr => absurd (hrun.symm.trans hr) (by decide)
    case running =>
      rw [mark_hist]
      exact fun _ _ => hrunning hrun

theorem IdInv.cancel (h : IdInv w m) (hr : RunInv m)
    (hok : w' = w → (m.work w).flags.running = true → (m.work w).flags.queued = false) :
    IdInv w (osWorkCancelCritical m w').1 := by
  by_cases he : w = w'
  case neg =>
    have hhist := cancel_hist hr w'
    exact h.congr (cancel_work_of_ne hr he) (by rw [hhist]) (by rw [hhist])
  subst he
  rcases cancel_cases hr w with ⟨hq, hm, -⟩ | ⟨q, hq, -, hm, -⟩ <;> rw [hm]
  · exact .mark fun hrun => h.running hrun hq
  · have hwork := (dequeue_work (m := m) (q := q)).trans (if_pos (rfl : w = w))
    apply IdInv.mark
    rw [hwork]
    exact fun hrun => absurd (hq.symm.trans (hok rfl hrun)) (by decide)

theorem IdInv.start {rest : List (FifoNode W)} (h : IdInv w m) :
    IdInv w (osWorkQueueEntryStart m q w' rest) := by
  by_cases he : w = w'
  case neg => exact h.congr (start_work.trans (if_neg he)) rfl (Function.update_of_ne he _ _)
  subst he
  have hwork := (@start_work Q W _ _ m q w rest w).trans (if_pos rfl)
  constructor <;> rw [hwork]
  case idle => exact fun hr => by cases hr
  case running => exact fun _ _ => ⟨rfl, Function.update_self ..⟩

theorem IdInv.complete (h : IdInv w m) (hr : RunInv m)
    (hcur : (m.queue q).current = some w') : IdInv w (osWorkQueueEntryComplete m q w') := by
  by_cases he : w = w'
  case neg => exact h.congr (complete_work.trans (if_neg he)) rfl rfl
  subst he
  have hwork := (complete_work (m := m) (q := q)).trans (if_pos (rfl : w = w))
  constructor <;> rw [hwork]
  case idle => exact fun _ hq => (h.running (hr.current q w hcur).1 hq).1
  case running => exact fun hr => by cases hr

end

omit [DecidableEq Q] [DecidableEq W] [DecidableEq T] in
theorem IdInv.init {w : W} {s : State Q W T} (h : Init s) : IdInv w s.mem := by
  obtain ⟨b, hb⟩ := h.work w
  constructor
  · intro _ _; rw [hb]; rfl
  · intro hr; rw [hb] at hr; cases hr

theorem IdInv.step {w : W} {s t : State Q W T} {a : Act Q W T} (h : IdInv w s.mem)
    (hi : StateInv s) (hok : cancelsOneInstance w s a = true) (hs : HazelOsal.step s a = some t) :
    IdInv w t.mem := by
  cases step_effect hs with
  | call | expire | workerExpire => exact h
  | @step c m p hstep he =>
    rcases he.sameItems with hsame | ⟨q, w', -, rfl⟩ | ⟨w', k, hp, rfl⟩
    · exact h.sameIds hsame.sameIds
    · exact h.enqueue
    · refine h.cancel hi.mem.toRunInv ?_
      rintro rfl hrun
      simpa [cancelsOneInstance, hp, hrun] using hok
  | @worker q m p hfree hstep he =>
    rcases he.sameItems with hsame | ⟨q', w', d, j, -, rfl⟩ | ⟨w', rest, -, hl, rfl⟩ |
      ⟨w', hp, rfl⟩
    · exact h.sameIds hsame.sameIds
    · exact h.enqueue.sameIds settle_sameItems.sameIds
    · exact h.start
    · refine h.complete hi.mem.toRunInv ?_
      rw [← hi.worker, hp]; rfl
  | tick => exact h.sameIds Same.tick.sameItems.sameIds

theorem idInv_of_reachable {w : W} {s : State Q W T}
    (h : ReachableVia (workQueueSystem Q W T) (fun s a => cancelsOneInstance w s a) s) :
    IdInv w s.mem :=
  ReachableVia.invariant (I := fun s => IdInv w s.mem) (fun _ => IdInv.init)
    (fun _ _ _ hr hi hok hs => hi.step (stateInv_of_reachable hr) hok hs) h

/-! ## An idle item has nothing left to flush -/

/-- A flush that reads `completion_id == submission_id` returns at once. -/
theorem flush_returns {s : State Q W T} {c : Ctx Q T} {w : W} (hm : InitInv s.mem)
    (hid : (s.mem.work w).completionId = (s.mem.work w).submissionId) (hc : s.mayCall c = true) :
    ∃ t, exec (workQueueSystem Q W T) s [.call c (.flush w), .step c, .step c, .step c] = some t ∧
      t.call c = .done (.bool false) ∧ t.mem = s.mem := by
  have hcall : step s (.call c (.flush w)) = some (s.setCall c s.mem (.flushEnter w .ret)) := by
    simp only [step, hc, if_true]; rfl
  have henter : callStep c s.mem (.flushEnter w .ret) = some (s.mem, .flushTarget w .ret) := by
    simp [callStep, hm.magic w, hm.syncInitialized w]
  have htarget : callStep c s.mem (.flushTarget w .ret) =
      some (s.mem, .flushCheck w (s.mem.work w).submissionId false false .ret) := by
    simp [callStep, hid]
  have hcheck : callStep c s.mem (.flushCheck w (s.mem.work w).submissionId false false .ret) =
      some (s.mem, .done (.bool false)) := by
    simp [callStep, hid, FlushCont.result]
  refine ⟨s.setCall c s.mem (.done (.bool false)), ?_, State.setCall_call_self, rfl⟩
  simp only [exec, workQueueSystem, hcall, step_setCall henter, step_setCall htarget,
    step_setCall hcheck, Option.bind_some]

/-- **An idle item has nothing left to flush**, in every run whose cancels of the item do not find
it both running and queued: `completion_id == submission_id`, and a flush does not wait. -/
theorem idle_item_flushed {s : State Q W T} {w : W}
    (h : ReachableVia (workQueueSystem Q W T) (fun s a => cancelsOneInstance w s a) s)
    (hidle : (s.mem.work w).flags = .none) :
    (s.mem.work w).completionId = (s.mem.work w).submissionId ∧
    ∀ c, s.mayCall c = true → ∃ t,
      exec (workQueueSystem Q W T) s [.call c (.flush w), .step c, .step c, .step c] = some t ∧
      t.call c = .done (.bool false) ∧ t.mem = s.mem := by
  have hid : (s.mem.work w).completionId = (s.mem.work w).submissionId :=
    (idInv_of_reachable h).idle (by rw [hidle]; rfl) (by rw [hidle]; rfl)
  exact ⟨hid, fun c hc => flush_returns (stateInv_of_reachable h.reachable).mem.toInitInv hid hc⟩

/-- The item is submitted, started and submitted again; a cancel takes the second submission off
the list; the handler returns. -/
def requeueRun : List (Act Unit Nat Nat) :=
  [.call (.thread 0) (.submitToQueue (some ()) 0), .step (.thread 0), .step (.thread 0),
    .step (.thread 0), .worker (), .worker (), .worker (), .worker (),
    .call (.thread 0) (.submitToQueue (some ()) 0), .step (.thread 0), .step (.thread 0),
    .step (.thread 0), .call (.thread 1) (.cancel 0), .step (.thread 1), .step (.thread 1),
    .step (.thread 1), .step (.thread 1), .worker (), .worker (), .worker ()]

/-- A thread flushes the item and takes the one token there is. -/
def flushRun : List (Act Unit Nat Nat) :=
  [.call (.thread 2) (.flush 0), .step (.thread 2), .step (.thread 2), .step (.thread 2),
    .step (.thread 2), .step (.thread 2)]

/-- The item is submitted, started and submitted again, and runs twice. -/
def rerunRun : List (Act Unit Nat Nat) :=
  requeueRun.take 12 ++ List.replicate 10 (Act.worker ())

/-- After `requeueRun` the item is idle, but the identifiers differ, and a flush is blocked. -/
theorem idle_item_not_flushed : ∃ s t : State Unit Nat Nat,
    exec (workQueueSystem Unit Nat Nat) .initial requeueRun = some s ∧
    (s.mem.work 0).flags = .none ∧ NoPromotion s ∧
    (s.mem.work 0).completionId ≠ (s.mem.work 0).submissionId ∧
    exec (workQueueSystem Unit Nat Nat) s flushRun = some t ∧
    (t.mem.work 0).flags = .none ∧ t.call (.thread 2) = .flushTake 0 2 true .ret ∧
    step t (.step (.thread 2)) = none := by
  refine ⟨_, _, rfl, rfl, ?_, by decide, rfl, rfl, rfl, rfl⟩
  rintro q ⟨d, j, p, hp⟩
  cases hp

/-- Without the cancel, the item has run twice. -/
theorem idle_item_flushed_twice : ∃ s : State Unit Nat Nat,
    exec (workQueueSystem Unit Nat Nat) .initial rerunRun = some s ∧
    (s.mem.work 0).submissionId = 2 ∧
    (s.mem.work 0).completionId = (s.mem.work 0).submissionId :=
  ⟨_, rfl, rfl, (idle_item_flushed
    (reachableVia_of_execOk rerunRun (fun _ _ h => h) State.init_initial rfl rfl) rfl).1⟩

/-! ## A flush sees its completion -/

/-- The call waits in `os_work_flush` until `completion_id` of `w` is `target`. -/
def Pc.flushes (w : W) (target : UInt32) : Pc Q W → Bool
  | .flushCheck w' target' _ _ _ | .flushTake w' target' _ _ => w' = w && target' = target
  | _ => false

/-- The step does not write an identifier other than `target` to `completion_id` of `w`: it is
neither another completion, nor a cancel that finds `w` not running, after another submission. -/
def writesOnly (w : W) (target : UInt32) (s : State Q W T) : Act Q W T → Bool
  | .worker q =>
    match s.worker q with
    | .complete w' => !(w' = w) || (s.mem.work w).runningId = target
    | _ => true
  | .step c =>
    match s.call c with
    | .cancelLock w' _ =>
      !(w' = w) || (s.mem.work w).flags.running || (s.mem.work w).submissionId = target
    | _ => true
  | _ => true

/-- The steps until the flush of `w` by `c` returns: no cancel finds `w` both running and queued,
and once submission `k` is settled, no other identifier than `target` is written. -/
def keepsTarget (c : Ctx Q T) (w : W) (k : Nat) (target : UInt32) (s : State Q W T)
    (a : Act Q W T) : Bool :=
  (s.call c).flushes w target && cancelsOneInstance w s a &&
    (!(s.mem.hist.Settled w k) || writesOnly w target s a)

/-- What holds of submission `k` of `w` from the step that read `target`. -/
structure TargetInv (w : W) (k : Nat) (target : UInt32) (m : Mem Q W) : Prop where
  le : k ≤ m.hist.submitted w
  ids : m.hist.ids w k = target
  settled : m.hist.Settled w k → (m.work w).completionId = target

section
variable {m m' : Mem Q W} {q : Q} {w w' : W} {k : Nat} {target : UInt32}

omit [DecidableEq Q] in
theorem HistInv.not_canceled (h : HistInv m) {x : W × Nat}
    (hx : x ∈ m.hist.started q ∨ x ∈ pendingSubmissions m q) : x ∉ m.hist.canceled := by
  obtain ⟨D, hD⟩ := h.refines q
  rw [← hD.started, ← hD.pending] at hx
  rw [← hD.deleted]
  exact (D.mem_started_or_pending.mp hx).2

theorem RunInv.pending (h : RunInv m) (hq : (m.work w).flags.queued = true) :
    ∃ q, (w, m.hist.submitted w) ∈ pendingSubmissions m q := by
  obtain ⟨q, hw⟩ := Option.ne_none_iff_exists'.mp (h.queue w hq)
  refine ⟨q, List.mem_filterMap.mpr ⟨.work w, ?_, rfl⟩⟩
  exact List.count_pos_iff.mp (by rw [h.list, if_pos ⟨hq, hw⟩]; exact Nat.one_pos)

/-- Where the submission last made is settled, it has completed. -/
theorem completed_of_settled (hr : RunInv m) (hh : HistInv m) (hs : SettledInv m)
    (hi : IdInv w m) (h : m.hist.Settled w (m.hist.submitted w)) :
    (m.work w).completionId = (m.work w).submissionId := by
  cases hq : (m.work w).flags.queued with
  | true =>
    obtain ⟨q, hpend⟩ := hr.pending hq
    rcases h with hf | hc
    · have := (hs.finished w _ hf).1
      have := hs.queued w hq
      omega
    · exact absurd hc (hh.not_canceled (.inr hpend))
  | false =>
    cases hrun : (m.work w).flags.running with
    | true =>
      obtain ⟨q, hcur⟩ := hr.running w hrun
      have hlast := (hi.running hrun hq).2
      rcases h with hf | hc
      · have := (hs.finished w _ hf).2 hrun
        omega
      · have hst := List.mem_of_getLast? (hh.running q w hcur).1
        rw [hlast] at hst
        exact absurd hc (hh.not_canceled (.inl hst))
    | false => exact hi.idle hrun hq

omit [DecidableEq Q] [DecidableEq W] in
theorem TargetInv.sameIds (h : TargetInv w k target m) (hs : SameIds m m') :
    TargetInv w k target m' := by
  obtain ⟨hw, hsub, -, hids, hfin, hcan⟩ := hs
  constructor
  · rw [hsub]; exact h.le
  · rw [hids]; exact h.ids
  · rw [(hw w).2.2.1]
    simp only [History.Settled, hfin, hcan]
    exact h.settled

theorem TargetInv.enqueue (h : TargetInv w k target m) :
    TargetInv w k target (osWorkEnqueue m q w') := by
  obtain ⟨hle, hids, hset⟩ := h
  constructor
  · simp only [enqueue_hist, History.accept, Function.update_apply]; grind
  · simp only [enqueue_hist, History.accept, Function.update_apply]; grind
  · intro hs
    rw [enqueue_work]
    have := hset hs
    grind

theorem TargetInv.start {rest : List (FifoNode W)} (h : TargetInv w k target m) :
    TargetInv w k target (osWorkQueueEntryStart m q w' rest) := by
  refine ⟨h.le, h.ids, fun hs => ?_⟩
  have := h.settled hs
  rw [start_work]
  grind

theorem TargetInv.complete (h : TargetInv w k target m) (hh : HistInv m)
    (hcur : (m.queue q).current = some w')
    (hok : m.hist.Settled w k → w' = w → (m.work w).runningId = target) :
    TargetInv w k target (osWorkQueueEntryComplete m q w') := by
  refine ⟨h.le, h.ids, fun hs => ?_⟩
  have hfin : (osWorkQueueEntryComplete m q w').hist.finished =
      m.hist.finished ++ [(w', m.hist.running w')] := rfl
  have hcan : (osWorkQueueEntryComplete m q w').hist.canceled = m.hist.canceled := rfl
  rw [complete_work]
  -- either `k` was settled before, or it is the submission that completes
  by_cases hold : m.hist.Settled w k
  · have := h.settled hold
    have := hok hold
    split
    case isTrue he => subst he; exact this rfl
    case isFalse => assumption
  · simp only [History.Settled, hfin, hcan, List.mem_append, List.mem_singleton] at hs hold
    have hk : (w, k) = (w', m.hist.running w') := by tauto
    cases hk
    rw [if_pos rfl]
    exact (hh.running q w hcur).2.trans h.ids

theorem TargetInv.cancel (h : TargetInv w k target m) (hr : RunInv m) (hh : HistInv m)
    (hone : w' = w → (m.work w).flags.running = true → (m.work w).flags.queued = false)
    (hok : m.hist.Settled w k → w' = w → (m.work w).flags.running = false →
      (m.work w).submissionId = target) :
    TargetInv w k target (osWorkCancelCritical m w').1 := by
  rcases cancel_cases hr w' with ⟨hq, hm, -⟩ | ⟨q, hq, -, hm, -⟩ <;> rw [hm]
  · refine ⟨?_, ?_, fun hs => ?_⟩
    · rw [mark_hist]; exact h.le
    · rw [mark_hist]; exact h.ids
    · rw [mark_hist] at hs
      have := h.settled hs
      have := hok hs
      rw [mark_work]
      grind
  · have hcan : (osWorkCancelDequeue m w' q).hist.canceled =
        m.hist.canceled ++ [(w', m.hist.submitted w')] := rfl
    have hfin : (osWorkCancelDequeue m w' q).hist.finished = m.hist.finished := rfl
    refine ⟨?_, ?_, fun hs => ?_⟩
    · rw [mark_hist]; exact h.le
    · rw [mark_hist]; exact h.ids
    · rw [mark_hist] at hs
      rw [mark_work, dequeue_work, dequeue_work]
      -- either `k` was settled before, or it is the submission that is taken off the list
      by_cases hold : m.hist.Settled w k
      · have := h.settled hold
        have := hok hold
        grind
      · simp only [History.Settled, hcan, hfin, List.mem_append, List.mem_singleton] at hs hold
        have hk : (w, k) = (w', m.hist.submitted w') := by tauto
        cases hk
        have hids := (hh.ids w).symm.trans h.ids
        have := hone rfl
        grind

end

theorem TargetInv.step {c : Ctx Q T} {w : W} {k : Nat} {target : UInt32} {s t : State Q W T}
    {a : Act Q W T} (h : TargetInv w k target s.mem) (hi : StateInv s) (hh : HistInv s.mem)
    (hok : keepsTarget c w k target s a = true) (hs : HazelOsal.step s a = some t) :
    TargetInv w k target t.mem := by
  simp only [keepsTarget, Bool.and_eq_true, Bool.or_eq_true, Bool.not_eq_true',
    decide_eq_false_iff_not] at hok
  obtain ⟨⟨-, hone⟩, hwrite⟩ := hok
  have hwrite (hset : s.mem.hist.Settled w k) : writesOnly w target s a = true :=
    hwrite.resolve_left fun hn => hn hset
  cases step_effect hs with
  | call | expire | workerExpire => exact h
  | @step c' m p hstep he =>
    rcases he.sameItems with hsame | ⟨q, w', -, rfl⟩ | ⟨w', kont, hp, rfl⟩
    · exact h.sameIds hsame.sameIds
    · exact h.enqueue
    · refine h.cancel hi.mem.toRunInv hh ?_ ?_
      · rintro rfl hrun
        simpa [cancelsOneInstance, hp, hrun] using hone
      · rintro hset rfl hrun
        simpa [writesOnly, hp, hrun] using hwrite hset
  | @worker q m p hfree hstep he =>
    rcases he.sameItems with hsame | ⟨q', w', d, j, -, rfl⟩ | ⟨w', rest, -, hl, rfl⟩ |
      ⟨w', hp, rfl⟩
    · exact h.sameIds hsame.sameIds
    · exact h.enqueue.sameIds settle_sameItems.sameIds
    · exact h.start
    · refine h.complete hh (by rw [← hi.worker, hp]; rfl) ?_
      rintro hset rfl
      simpa [writesOnly, hp] using hwrite hset
  | tick => exact h.sameIds Same.tick.sameItems.sameIds

/-- **A flush sees its completion.** Let a flush of `w` read `target` when `k` submissions of `w`
have been accepted. In every state up to its return, in runs that keep the target: if submission
`k` is settled, the exit test of the flush is true. -/
theorem flush_sees_completion (c : Ctx Q T) {w : W} {kont : FlushCont} {s s' t : State Q W T}
    (h : ReachableVia (workQueueSystem Q W T) (fun s a => cancelsOneInstance w s a) s)
    (hc : s.call c = .flushTarget w kont)
    (hs : step s (.step c) = some s')
    (hr : Run (workQueueSystem Q W T)
      (fun t a => keepsTarget c w (s.mem.hist.submitted w) (s.mem.work w).submissionId t a) s' t)
    (hk : t.mem.hist.Settled w (s.mem.hist.submitted w)) :
    (t.mem.work w).completionId = (s.mem.work w).submissionId := by
  have hmem : s'.mem = s.mem := by
    cases step_effect hs with
    | step hstep he => rw [hc] at hstep; cases hstep; rfl
  have hi := (stateInv_of_reachable h.reachable).mem.toRunInv
  have hh := histInv_of_reachable h.reachable
  have h₀ : TargetInv w (s.mem.hist.submitted w) (s.mem.work w).submissionId s'.mem := by
    rw [hmem]
    exact ⟨Nat.le_refl _, hh.ids w, completed_of_settled hi hh
      (settledInv_of_reachable h.reachable) (idInv_of_reachable h)⟩
  have hs' : (workQueueSystem Q W T).step s (.step c) = some s' := hs
  have hreach : Reachable (workQueueSystem Q W T) s' := h.reachable.step trivial hs'
  have hinv := Run.invariant (I := fun u => TargetInv w (s.mem.hist.submitted w)
      (s.mem.work w).submissionId u.mem) hreach h₀
    (fun u a v hu hI hok hv => hI.step (stateInv_of_reachable hu) (histInv_of_reachable hu) hok hv)
    hr
  exact hinv.settled hk

/-- A thread flushes an item that another thread has submitted; the worker runs it. -/
def flushTargetRun : List (Act Unit Nat Nat) :=
  [.call (.thread 0) (.submitToQueue (some ()) 0), .step (.thread 0), .step (.thread 0),
    .step (.thread 0), .call (.thread 2) (.flush 0), .step (.thread 2)]

/-- The flush looks and waits; the worker runs the item. -/
def completeRun : List (Act Unit Nat Nat) :=
  .step (.thread 2) :: List.replicate 6 (.worker ())

/-- A flush that waits sees the one run of its item. -/
theorem flush_sees_completion_once : ∃ s s' t : State Unit Nat Nat,
    exec (workQueueSystem Unit Nat Nat) .initial flushTargetRun = some s ∧
    step s (.step (.thread 2)) = some s' ∧
    exec (workQueueSystem Unit Nat Nat) s' completeRun = some t ∧
    t.call (.thread 2) = .flushTake 0 1 true .ret ∧
    (t.mem.work 0).completionId = (s.mem.work 0).submissionId := by
  refine ⟨_, _, _, rfl, rfl, rfl, rfl, ?_⟩
  refine flush_sees_completion (.thread 2) (reachableVia_of_execOk flushTargetRun (fun _ _ h => h)
    State.init_initial rfl rfl) rfl rfl ?_ (.inl (by decide))
  exact run_of_execOk completeRun (fun _ _ h => h) rfl rfl

/-- While the flush of the first submission is blocked, the item is submitted again and runs a
second time. -/
def missedRun : List (Act Unit Nat Nat) :=
  flushTargetRun ++
    [Act.step (.thread 2), .step (.thread 2), .worker (), .worker (), .worker (), .worker (),
      .call (.thread 0) (.submitToQueue (some ()) 0), .step (.thread 0), .step (.thread 0),
      .step (.thread 0)] ++
    List.replicate 10 (Act.worker ()) ++ [Act.step (.thread 2), .step (.thread 2)]

/-- Submission 1 has finished, but the flush that waits for it does not see that, and is blocked
with nothing left to wake it. -/
theorem flush_misses_completion : ∃ s : State Unit Nat Nat,
    exec (workQueueSystem Unit Nat Nat) .initial missedRun = some s ∧
    s.call (.thread 2) = .flushTake 0 1 true .ret ∧ s.mem.hist.Settled 0 1 ∧
    (s.mem.work 0).completionId = 2 ∧ (s.mem.work 0).flags = .none ∧
    step s (.step (.thread 2)) = none :=
  ⟨_, rfl, rfl, .inl (by decide), rfl, rfl, rfl⟩

end HazelOsal
