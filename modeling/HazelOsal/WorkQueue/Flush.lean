import HazelOsal.WorkQueue.Delayed
import HazelOsal.WorkQueue.Identifiers

/-! # A flush of delayed work

`os_work_flush_delayable` takes the item off the delayed list, submits it and waits for it in
`os_work_flush`. It does not look at the result of the submission: where that is refused and the
item is idle, there is nothing to wait for, and the call returns true though nothing has run. -/

namespace HazelOsal

open TransitionSystem

variable {Q W T : Type} [DecidableEq Q] [DecidableEq W] [DecidableEq T]

/-! ## How far the submissions are ahead -/

section
variable {c : Ctx Q T} {m m' : Mem Q W} {q : Q} {w w' d : W}

/-- How far `submission_id` and `running_id` are ahead of `completion_id`. A cancel that takes a
requeued submission off its list leaves a gap of one, and the gap does not grow. -/
structure LagInv (w : W) (m : Mem Q W) : Prop where
  idle : (m.work w).flags.running = false → (m.work w).flags.queued = false →
    (m.work w).submissionId = (m.work w).completionId ∨
      (m.work w).submissionId = (m.work w).completionId + 1
  queued : (m.work w).flags.running = false → (m.work w).flags.queued = true →
    (m.work w).submissionId = (m.work w).completionId + 1 ∨
      (m.work w).submissionId = (m.work w).completionId + 2
  running : (m.work w).flags.running = true →
    (m.work w).runningId = (m.work w).completionId + 1 ∨
      (m.work w).runningId = (m.work w).completionId + 2
  requeued : (m.work w).flags.running = true → (m.work w).flags.queued = true →
    (m.work w).submissionId = (m.work w).runningId + 1
  last : (m.work w).flags.running = true → (m.work w).flags.queued = false →
    (m.work w).submissionId = (m.work w).runningId ∨
      ((m.work w).flags.canceling = true ∧ (m.work w).submissionId = (m.work w).runningId + 1)

omit [DecidableEq Q] [DecidableEq W] in
theorem LagInv.sameItem (h : LagInv w m) (hs : SameItem m m' w) : LagInv w m' := by
  obtain ⟨sync, delayed, hw⟩ := hs
  constructor
  · rw [hw]; exact h.idle
  · rw [hw]; exact h.queued
  · rw [hw]; exact h.running
  · rw [hw]; exact h.requeued
  · rw [hw]; exact h.last

omit [DecidableEq Q] [DecidableEq W] in
theorem LagInv.congr (h : LagInv w m) (he : m'.work w = m.work w) : LagInv w m' :=
  h.sameItem ⟨_, _, he⟩

theorem LagInv.enqueue {caller : Option Q} (h : LagInv w m)
    (ha : SubmitAccepts caller m q w') : LagInv w (osWorkEnqueue m q w') := by
  by_cases he : w = w'
  case neg => exact h.congr (enqueue_work.trans (if_neg he))
  subst he
  have hwork := (enqueue_work (m := m) (q := q)).trans (if_pos (rfl : w = w))
  constructor <;> rw [hwork]
  case idle => exact fun _ hq => by cases hq
  case queued =>
    intro hrun _
    rcases h.idle hrun ha.queued with hid | hid
    · exact .inl (congrArg (· + 1) hid)
    · right
      show (m.work w).submissionId + 1 = _
      rw [hid, UInt32.add_assoc]
      rfl
  case running => exact h.running
  case requeued =>
    intro hrun _
    rcases h.last hrun ha.queued with hid | ⟨hcanceling, -⟩
    · exact congrArg (· + 1) hid
    · cases ha.canceling.symm.trans hcanceling
  case last => exact fun _ hq => by cases hq

omit [DecidableEq Q] in
/-- A cancel marks an item that is not queued any more. -/
theorem LagInv.mark (hq : (m.work w).flags.queued = false)
    (hrunning : (m.work w).flags.running = true →
      (m.work w).runningId = (m.work w).completionId + 1 ∨
        (m.work w).runningId = (m.work w).completionId + 2)
    (hlast : (m.work w).flags.running = true →
      (m.work w).submissionId = (m.work w).runningId ∨
        (m.work w).submissionId = (m.work w).runningId + 1) :
    LagInv w (osWorkCancelMark m w) := by
  have hwork := (mark_work (m := m)).trans (if_pos (rfl : w = w))
  cases hrun : (m.work w).flags.running with
  | false =>
    rw [hrun, if_neg (by decide)] at hwork
    constructor <;> rw [hwork]
    case idle => exact fun _ _ => .inl rfl
    case queued => exact fun _ hq' => absurd (hq.symm.trans hq') (by decide)
    case running | requeued | last => exact fun hr => absurd (hrun.symm.trans hr) (by decide)
  | true =>
    rw [if_pos hrun] at hwork
    constructor <;> rw [hwork]
    case idle | queued => exact fun hr => absurd (hrun.symm.trans hr) (by decide)
    case running => exact hrunning
    case requeued => exact fun _ hq' => absurd (hq.symm.trans hq') (by decide)
    case last => exact fun _ _ => (hlast hrun).imp id fun hid => ⟨rfl, hid⟩

theorem LagInv.cancel (h : LagInv w m) (hr : RunInv m) :
    LagInv w (osWorkCancelCritical m w').1 := by
  by_cases he : w = w'
  case neg => exact h.congr (cancel_work_of_ne hr he)
  subst he
  rcases cancel_cases hr w with ⟨hq, hm, -⟩ | ⟨q, hq, -, hm, -⟩ <;> rw [hm]
  · exact .mark hq h.running fun hrun => (h.last hrun hq).imp id And.right
  · have hwork := (dequeue_work (m := m) (q := q)).trans (if_pos (rfl : w = w))
    apply LagInv.mark <;> rw [hwork]
    · exact h.running
    · exact fun hrun => .inr (h.requeued hrun hq)

theorem LagInv.start {rest : List (FifoNode W)} (h : LagInv w m) (hr : RunInv m)
    (hl : (m.queue q).fifo.list = .work w' :: rest) (hcur : (m.queue q).current = none) :
    LagInv w (osWorkQueueEntryStart m q w' rest) := by
  by_cases he : w = w'
  case neg => exact h.congr (start_work.trans (if_neg he))
  subst he
  obtain ⟨hq, hqueue⟩ := hr.queued_head hl
  -- the worker of the queue that runs the item is the one that takes it
  have hrun : (m.work w).flags.running = false := by
    cases hrun : (m.work w).flags.running with
    | false => rfl
    | true =>
      obtain ⟨q', hcur'⟩ := hr.running w hrun
      have := (hr.current q' w hcur').2
      rw [hqueue] at this
      cases this
      rw [hcur] at hcur'
      cases hcur'
  have hwork := (@start_work Q W _ _ m q w rest w).trans (if_pos (rfl : w = w))
  constructor <;> rw [hwork]
  case idle | queued => exact fun hr => by cases hr
  case running => exact fun _ => h.queued hrun hq
  case requeued => exact fun _ hq => by cases hq
  case last => exact fun _ _ => .inl rfl

theorem LagInv.complete (h : LagInv w m) (hr : RunInv m)
    (hcur : (m.queue q).current = some w') : LagInv w (osWorkQueueEntryComplete m q w') := by
  by_cases he : w = w'
  case neg => exact h.congr (complete_work.trans (if_neg he))
  subst he
  have hrun := (hr.current q w hcur).1
  have hwork := (complete_work (m := m) (q := q)).trans (if_pos (rfl : w = w))
  constructor <;> rw [hwork]
  case idle => exact fun _ hq => (h.last hrun hq).imp id And.right
  case queued => exact fun _ hq => .inl (h.requeued hrun hq)
  case running | requeued | last => exact fun hr => by cases hr

/-- The item is queued or running. -/
def Underway (m : Mem Q W) (w : W) : Prop :=
  (m.work w).flags.queued = true ∨ (m.work w).flags.running = true

instance : Decidable (Underway m w) := inferInstanceAs (Decidable (_ ∨ _))

omit [DecidableEq Q] [DecidableEq W] in
/-- A flush that looks at an item that is queued or running waits for it. -/
theorem LagInv.ne_of_underway (h : LagInv w m) (hw : Underway m w) :
    (m.work w).completionId ≠ (m.work w).submissionId := by
  cases hrun : (m.work w).flags.running with
  | false =>
    have hq := hw.resolve_right (by simp [hrun])
    have := h.queued hrun hq
    grind
  | true =>
    have := h.running hrun
    cases hq : (m.work w).flags.queued with
    | false =>
      have := h.last hrun hq
      grind
    | true =>
      have := h.requeued hrun hq
      grind

end

theorem lagInv_of_reachable {w : W} {s : State Q W T} (h : Reachable (workQueueSystem Q W T) s) :
    LagInv w s.mem := by
  refine ReachableVia.invariant (I := fun s => LagInv w s.mem) ?_ ?_ h
  · intro s hs
    obtain ⟨b, hb⟩ := hs.work w
    constructor <;> rw [hb]
    · exact fun _ _ => .inl rfl
    · intro _ hq; cases hq
    · intro hr; cases hr
    · intro hr; cases hr
    · intro hr; cases hr
  · intro s a t hr hi _ hs
    have hst := stateInv_of_reachable hr
    cases step_effect hs with
    | call | expire | workerExpire => exact hi
    | step hstep he =>
      rcases he.sameItems with hsame | ⟨q, w', ha, rfl⟩ | ⟨w', k, -, rfl⟩
      · exact hi.sameItem (hsame.item w)
      · exact hi.enqueue ha
      · exact hi.cancel hst.mem.toRunInv
    | @worker q m p hfree hstep he =>
      have hcur := hst.worker q
      rcases he.sameItems with hsame | ⟨q', w', d, j, ha, rfl⟩ | ⟨w', rest, hp, hl, rfl⟩ |
        ⟨w', hp, rfl⟩
      · exact hi.sameItem (hsame.item w)
      · exact (hi.enqueue ha).sameItem ⟨_, _, rfl⟩
      · exact hi.start hst.mem.toRunInv hl (by rw [← hcur, hp]; rfl)
      · exact hi.complete hst.mem.toRunInv (by rw [← hcur, hp]; rfl)
    | tick => exact hi.sameItem (Same.tick.sameItems.item w)

/-! ## What a flush looks at -/

/-- How often the handler of `w` has run to completion. -/
def completions (m : Mem Q W) (w : W) : Nat := (m.hist.finished.map Prod.fst).count w

/-- The handler of `w` completes, or what a flush of `w` looks at stays. -/
structure FlushFrame (w : W) (m m' : Mem Q W) : Prop where
  le : completions m w ≤ completions m' w
  keeps : completions m w < completions m' w ∨
    ((m'.work w).completionId = (m.work w).completionId ∧ (Underway m w → Underway m' w))

section
variable {m m' : Mem Q W} {q : Q} {w w' : W}

omit [DecidableEq Q] in
theorem FlushFrame.of_sameItem (h : SameItem m m' w) (hf : m'.hist.finished = m.hist.finished) :
    FlushFrame w m m' := by
  obtain ⟨sync, delayed, hw⟩ := h
  have hc : completions m' w = completions m w := by rw [completions, hf]; rfl
  refine ⟨Nat.le_of_eq hc.symm, .inr ⟨by rw [hw], ?_⟩⟩
  rw [Underway, Underway, hw]
  exact id

theorem FlushFrame.enqueue : FlushFrame w m (osWorkEnqueue m q w') := by
  refine ⟨Nat.le_refl _, .inr ?_⟩
  rw [Underway, Underway, enqueue_work]
  grind

theorem FlushFrame.cancel (hr : RunInv m) (hne : w ≠ w') :
    FlushFrame w m (osWorkCancelCritical m w').1 := by
  have hfin : (osWorkCancelCritical m w').1.hist.finished = m.hist.finished := by
    rw [cancel_hist hr]
  exact .of_sameItem ⟨_, _, cancel_work_of_ne hr hne⟩ hfin

theorem FlushFrame.start {rest : List (FifoNode W)} :
    FlushFrame w m (osWorkQueueEntryStart m q w' rest) := by
  refine ⟨Nat.le_refl _, .inr ?_⟩
  rw [Underway, Underway, start_work]
  grind

theorem FlushFrame.complete : FlushFrame w m (osWorkQueueEntryComplete m q w') := by
  have hc : completions (osWorkQueueEntryComplete m q w') w =
      completions m w + if w' = w then 1 else 0 := by
    have hfin : (osWorkQueueEntryComplete m q w').hist.finished =
        m.hist.finished ++ [(w', m.hist.running w')] := rfl
    rw [completions, hfin, List.map_append, List.count_append, completions]
    congr 1
    simp [List.count_singleton]
  by_cases hw : w' = w
  · rw [if_pos hw] at hc
    exact ⟨by omega, .inl (by omega)⟩
  · rw [if_neg hw] at hc
    refine ⟨by omega, .inr ?_⟩
    rw [Underway, Underway, complete_work, if_neg (Ne.symm hw)]
    exact ⟨rfl, id⟩

end

/-- A step that is not the critical section of an `os_work_cancel` of `w`. -/
theorem flushFrame_of_step {w : W} {s t : State Q W T} {a : Act Q W T} (hi : StateInv s)
    (hok : ∀ c k, a = .step c → s.call c ≠ .cancelLock w k) (hs : step s a = some t) :
    FlushFrame w s.mem t.mem := by
  have hrefl : FlushFrame w s.mem s.mem := ⟨Nat.le_refl _, .inr ⟨rfl, id⟩⟩
  cases step_effect hs with
  | call | expire | workerExpire => exact hrefl
  | @step c m p hstep he =>
    rcases he.sameItems with hsame | ⟨q, w', -, rfl⟩ | ⟨w', k, hp, rfl⟩
    · exact .of_sameItem (hsame.item w) hsame.hist.2.2.2.1
    · exact .enqueue
    · refine .cancel hi.mem.toRunInv ?_
      rintro rfl
      exact hok c k rfl hp
  | @worker q m p hfree hstep he =>
    rcases he.sameItems with hsame | ⟨q', w', d, j, -, rfl⟩ | ⟨w', rest, -, -, rfl⟩ |
      ⟨w', -, rfl⟩
    · exact .of_sameItem (hsame.item w) hsame.hist.2.2.2.1
    · exact ⟨FlushFrame.enqueue.le, FlushFrame.enqueue.keeps⟩
    · exact .start
    · exact .complete
  | tick => exact .of_sameItem (Same.tick.sameItems.item w) rfl

/-! ## The submission of a flush -/

/-- The tests of `os_work_submit_to_queue` that an item which is not queued or running must pass. -/
def SubmitPc.passes (caller : Option Q) (m : Mem Q W) : SubmitPc Q W → Bool
  | .enter queue w =>
    (m.work w).handler && (queue.or (m.work w).queue).any fun q => (m.queue q).started
  | .lock q w =>
    !(m.queue q).stopping &&
      (!((m.queue q).draining || (m.queue q).plugged) || caller = some q) &&
      !(m.work w).flags.canceling && decide ((m.queue q).fifo.count < UINT16_MAX)
  | .give .. => true

/-- If the next step decides the submission of a flush, the item passes the tests, or it is queued
or running already; if it is the one in which the flush of an item that was not delayed any more
reads the identifiers, they differ. -/
def Pc.heeded (c : Ctx Q T) (m : Mem Q W) : Pc Q W → Bool
  | .submit p .flushDelayable => p.passes c.caller m || decide (Underway m p.item)
  | .flushTarget w (.delayable false) => (m.work w).completionId != (m.work w).submissionId
  | _ => true

/-- The call of `c` is in progress, and the step is not the critical section of an `os_work_cancel`
of `d`. -/
def notCanceled (c : Ctx Q T) (d : W) (s : State Q W T) (a : Act Q W T) : Bool :=
  !(s.call c).free &&
    match a with
    | .step c' =>
      match s.call c' with
      | .cancelLock w _ => decide (w ≠ d)
      | _ => true
    | _ => true

/-- A step during a flush of `d` by `c` that nobody cancels; where it is one of `c`, the submission
is heeded. -/
def flushing (c : Ctx Q T) (d : W) (s : State Q W T) (a : Act Q W T) : Bool :=
  notCanceled c d s a &&
    match a with
    | .step c' => decide (c' ≠ c) || (s.call c).heeded c s.mem
    | _ => true

section
variable {c : Ctx Q T} {m m' : Mem Q W} {d : W} {n : Nat}

/-- An item that passes the tests is refused only where it is queued or running. -/
theorem SubmitPc.underway_of_refused {caller : Option Q} {p : SubmitPc Q W} {r : Int}
    (hi : InitInv m) (hu : p.undecided = true) (h : (p.step caller m).2 = .inr r)
    (hp : (p.passes caller m || decide (Underway m p.item)) = true) :
    Underway m p.item ∧ (p.step caller m).1 = m := by
  cases p with
  | give => cases hu
  | enter queue w =>
    simp only [SubmitPc.step, hi.magic w, hi.syncInitialized w] at h
    refine ⟨?_, ?_⟩
    · by_contra hn
      simp only [SubmitPc.passes, SubmitPc.item] at hp hn
      cases hq : queue.or (m.work w).queue <;> simp_all
    · simp only [SubmitPc.step]
      split
      · rfl
      · split
        · rfl
        · split <;> rfl
  | lock q w =>
    rcases submit_cases caller m q w with ⟨-, hc⟩ | ⟨hn, r', -, hc⟩
    · have hr : (0 : Int) < if (m.work w).flags.running then 2 else 1 := by split <;> decide
      simp only [SubmitPc.step, hc, hr, if_true] at h
      cases h
    · refine ⟨?_, by simp only [SubmitPc.step, hc]⟩
      by_contra hund
      simp only [SubmitPc.item] at hp hund
      obtain ⟨hq, hrun⟩ := not_or.mp hund
      refine hn ⟨?_, ?_, ?_, ?_, ?_, ?_⟩ <;> simp_all [SubmitPc.passes]

theorem SubmitPc.underway_of_accepted {caller : Option Q} {p p₁ : SubmitPc Q W}
    (h : (p.step caller m).2 = .inl p₁) (hu : p₁.undecided = false) :
    Underway (p.step caller m).1 p.item := by
  cases p with
  | give => cases h
  | enter queue w =>
    rcases submit_enter_cases caller m queue w with ⟨r, -, hp⟩ | ⟨q, hp⟩
    · rw [hp] at h; cases h
    · rw [hp] at h; cases h; cases hu
  | lock q w =>
    rcases submit_cases caller m q w with ⟨-, hc⟩ | ⟨-, r, hr, hc⟩
    · have hm : (SubmitPc.step caller m (.lock q w)).1 = osWorkEnqueue m q w := by
        simp only [SubmitPc.step, hc]
      rw [hm, Underway, SubmitPc.item, enqueue_work, if_pos rfl]
      exact .inl rfl
    · simp only [SubmitPc.step, hc, Int.not_lt.mpr hr, if_false] at h
      cases h

/-! ## The course of a flush -/

/-- What holds of a flush of `d` at the point that the call has reached. The handler of `d` had
run to completion `n` times when the call was made. -/
def FlushPhase (d : W) (n : Nat) (m : Mem Q W) : Pc Q W → Prop
  | .flushDelayableEnter w | .flushDelayableLock w | .flushDelayableGive _ w => w = d
  | .submit p .flushDelayable =>
    p.item = d ∧ (p.undecided = false → n < completions m d ∨ Underway m d)
  | .flushEnter w (.delayable delayed) | .flushTarget w (.delayable delayed) =>
    w = d ∧ (delayed = true → n < completions m d ∨ Underway m d)
  | .flushCheck w target waited _ (.delayable delayed)
  | .flushTake w target waited (.delayable delayed) =>
    w = d ∧ (delayed = true ∨ waited = true) ∧
      (n < completions m d ∨ (m.work d).completionId ≠ target)
  | .done r => r = .bool true ∧ n < completions m d
  | _ => False

omit [DecidableEq Q] in
theorem FlushPhase.frame {p : Pc Q W} (h : FlushPhase d n m p) (hn : n ≤ completions m d)
    (hf : FlushFrame d m m') : FlushPhase d n m' p := by
  have hlt (h : n < completions m d) : n < completions m' d := Nat.lt_of_lt_of_le h hf.le
  have hgoes (h : n < completions m d ∨ Underway m d) :
      n < completions m' d ∨ Underway m' d := by
    rcases h with h | h
    · exact .inl (hlt h)
    · rcases hf.keeps with hk | ⟨-, hk⟩
      · exact .inl (Nat.lt_of_le_of_lt hn hk)
      · exact .inr (hk h)
  have hwaits {target : UInt32}
      (h : n < completions m d ∨ (m.work d).completionId ≠ target) :
      n < completions m' d ∨ (m'.work d).completionId ≠ target := by
    rcases h with h | h
    · exact .inl (hlt h)
    · rcases hf.keeps with hk | ⟨hk, -⟩
      · exact .inl (Nat.lt_of_le_of_lt hn hk)
      · exact .inr (by rw [hk]; exact h)
  cases p with
  | flushDelayableEnter | flushDelayableLock | flushDelayableGive => exact h
  | submit p k =>
    cases k with
    | flushDelayable => exact ⟨h.1, fun hu => hgoes (h.2 hu)⟩
    | ret => exact h
  | flushEnter w k | flushTarget w k =>
    cases k with
    | delayable => exact ⟨h.1, fun hd => hgoes (h.2 hd)⟩
    | ret => exact h
  | flushCheck w target waited woken k =>
    cases k with
    | delayable => exact ⟨h.1, h.2.1, hwaits h.2.2⟩
    | ret => exact h
  | flushTake w target waited k =>
    cases k with
    | delayable => exact ⟨h.1, h.2.1, hwaits h.2.2⟩
    | ret => exact h
  | done => exact ⟨h.1, hlt h.2⟩
  | _ => exact h

omit [DecidableEq T] in
/-- The flush itself goes on, where its submission is heeded. -/
theorem FlushPhase.callStep {p p' : Pc Q W} (h : FlushPhase d n m p) (hi : InitInv m)
    (hlag : LagInv d m) (hn : n ≤ completions m d) (hf : FlushFrame d m m')
    (hok : p.heeded c m = true) (hs : HazelOsal.callStep c m p = some (m', p')) :
    FlushPhase d n m' p' := by
  have h' := h.frame hn hf
  cases p with
  | flushDelayableEnter w =>
    simp only [HazelOsal.callStep, hi.magic w] at hs
    cases hs
    exact h
  | flushDelayableLock w =>
    cases h
    simp only [HazelOsal.callStep] at hs
    split at hs
    · cases hs; rfl
    · cases hs; exact ⟨rfl, fun hu => by cases hu⟩
    · cases hs; exact ⟨rfl, fun hd => by cases hd⟩
  | flushDelayableGive q w =>
    cases hs
    exact ⟨h, fun hu => by cases hu⟩
  | submit p k =>
    cases k with
    | ret => exact absurd h id
    | flushDelayable =>
      obtain ⟨hitem, hdecided⟩ := h
      obtain ⟨rfl, ⟨p₁, hp₁, rfl⟩ | ⟨r, hr, rfl⟩⟩ := callStep_submit hs
      · refine ⟨(SubmitPc.step_inl hp₁).1.trans hitem, fun hu => .inr ?_⟩
        exact hitem ▸ SubmitPc.underway_of_accepted hp₁ hu
      · refine ⟨hitem, fun _ => ?_⟩
        cases hu : p.undecided with
        | false => exact h'.2 hu
        | true =>
          obtain ⟨hund, hm⟩ := SubmitPc.underway_of_refused hi hu hr hok
          rw [hm]
          exact .inr (hitem ▸ hund)
  | flushEnter w k =>
    cases k with
    | ret => exact absurd h id
    | delayable delayed =>
      simp only [HazelOsal.callStep, hi.magic w, hi.syncInitialized w] at hs
      cases hs
      exact h
  | flushTarget w k =>
    cases k with
    | ret => exact absurd h id
    | delayable delayed =>
      cases hs
      obtain ⟨rfl, hund⟩ := h
      cases delayed with
      | false => exact ⟨rfl, .inr hok, .inr (bne_iff_ne.mp hok)⟩
      | true =>
        refine ⟨rfl, .inl rfl, ?_⟩
        rcases hund rfl with hlt | hund
        · exact .inl hlt
        · exact .inr (hlag.ne_of_underway hund)
  | flushCheck w target waited woken k =>
    cases k with
    | ret => exact absurd h id
    | delayable delayed =>
      obtain ⟨rfl, hwaited, hlt⟩ := h
      simp only [HazelOsal.callStep] at hs
      split at hs
      case isTrue he =>
        cases hs
        refine ⟨?_, hlt.resolve_right fun hne => hne he⟩
        rw [FlushCont.result, Bool.or_eq_true_iff.mpr hwaited.symm]
      case isFalse hne =>
        cases hs
        exact ⟨rfl, hwaited, .inr hne⟩
  | flushTake w target waited k =>
    cases k with
    | ret => exact absurd h id
    | delayable delayed =>
      simp only [HazelOsal.callStep] at hs
      split at hs
      · cases hs
        exact h
      · obtain ⟨m₁, -, hs⟩ := Option.map_eq_some_iff.mp hs
        cases hs
        exact h'
  | done r => cases hs
  | _ => exact absurd h id

end

/-- The flush of `d` by `c` is at a point of its course. -/
structure FlushInv (c : Ctx Q T) (d : W) (n : Nat) (s : State Q W T) : Prop where
  le : n ≤ completions s.mem d
  phase : FlushPhase d n s.mem (s.call c)

theorem FlushInv.step {c : Ctx Q T} {d : W} {n : Nat} {s t : State Q W T} {a : Act Q W T}
    (h : FlushInv c d n s) (hi : StateInv s) (hlag : LagInv d s.mem) (hok : flushing c d s a = true)
    (hs : HazelOsal.step s a = some t) : FlushInv c d n t := by
  simp only [flushing, notCanceled, Bool.and_eq_true, Bool.not_eq_true'] at hok
  obtain ⟨⟨hbusy, hcancel⟩, hheeded⟩ := hok
  have hf : FlushFrame d s.mem t.mem := by
    refine flushFrame_of_step hi ?_ hs
    rintro c' k rfl hp
    simp [hp] at hcancel
  refine ⟨Nat.le_trans h.le hf.le, ?_⟩
  have hother (hc : t.call c = s.call c) : FlushPhase d n t.mem (t.call c) := by
    rw [hc]
    exact h.phase.frame h.le hf
  cases step_effect hs with
  | @call c' op hmay =>
    refine hother ?_
    rw [State.setCall_call, if_neg]
    rintro rfl
    rw [State.mayCall_free hmay] at hbusy
    cases hbusy
  | @step c' m p hstep he =>
    by_cases hc : c = c'
    · subst hc
      have hphase := h.phase.callStep hi.mem.toInitInv hlag h.le hf (by simpa using hheeded) hstep
      rw [State.setCall_call_self]
      exact hphase
    · exact hother (by rw [State.setCall_call, if_neg hc])
  | @expire c' q timeout expiry hp _ =>
    refine hother ?_
    rw [State.setCall_call, if_neg]
    rintro rfl
    have hphase := h.phase
    rw [hp] at hphase
    exact hphase
  | worker | workerExpire | tick => exact hother rfl

/-- **A flush of delayed work really runs it**, in every run from the call on in which nobody
cancels the item and the submission of the flush is heeded: if the flush returns true, the handler
has run to completion since the call; otherwise the schedule is left in place. -/
theorem flush_delayable_runs {c : Ctx Q T} {d : W} {s t : State Q W T} {result : Bool}
    (h : Reachable (workQueueSystem Q W T) s) (hc : s.call c = .flushDelayableEnter d)
    (_hd : (s.mem.work d).flags.delayed = true)
    (hr : Run (workQueueSystem Q W T) (fun s a => flushing c d s a = true) s t)
    (ht : t.call c = .done (.bool result)) :
    (result = true → completions s.mem d < completions t.mem d) ∧
    (result = false → StillDelayed t.mem d (s.mem.hist.scheduled d)) := by
  have h₀ : FlushInv c d (completions s.mem d) s := ⟨Nat.le_refl _, by rw [hc]; rfl⟩
  have hinv := Run.invariant (I := FlushInv c d (completions s.mem d)) h h₀
    (fun u a v hu hI hok hv =>
      hI.step (stateInv_of_reachable hu) (lagInv_of_reachable hu) hok hv) hr
  have hphase := hinv.phase
  rw [ht] at hphase
  obtain ⟨hres, hlt⟩ := hphase
  cases hres
  refine ⟨fun _ => hlt, fun hf => by cases hf⟩

/-- A thread schedules item 0, and another one flushes it. -/
def flushDelayableRun : List (Act Unit Nat Nat) :=
  [.call (.thread 0) (.scheduleForQueue () 0 5), .step (.thread 0), .step (.thread 0),
    .step (.thread 0), .call (.thread 1) (.flushDelayable 0)]

/-- The flush submits the item and waits until the worker has run it. -/
def heededRun : List (Act Unit Nat Nat) :=
  List.replicate 9 (Act.step (.thread 1)) ++ List.replicate 7 (Act.worker ()) ++
    List.replicate 2 (Act.step (.thread 1))

theorem flush_delayable_runs_once : ∃ s t : State Unit Nat Nat,
    exec (workQueueSystem Unit Nat Nat) .initial flushDelayableRun = some s ∧
    exec (workQueueSystem Unit Nat Nat) s heededRun = some t ∧
    t.call (.thread 1) = .done (.bool true) ∧ completions s.mem 0 < completions t.mem 0 := by
  refine ⟨_, _, rfl, rfl, rfl, (flush_delayable_runs (c := .thread 1)
    (reachable_of_exec flushDelayableRun State.init_initial rfl) rfl rfl
    (run_of_execOk heededRun (fun _ _ h => h) ?_ rfl) rfl).1 rfl⟩
  decide +kernel

/-- A thread schedules item 0 and plugs the queue before another one flushes the item. -/
def pluggedRun : List (Act Unit Nat Nat) :=
  [.call (.thread 0) (.scheduleForQueue () 0 5), .step (.thread 0), .step (.thread 0),
    .step (.thread 0), .call (.thread 0) (.drain () true), .step (.thread 0), .step (.thread 0),
    .step (.thread 0), .call (.thread 1) (.flushDelayable 0)]

/-- The flush returns true: nothing has run, and the item is on no list any more. -/
theorem flush_delayable_refused : ∃ s t : State Unit Nat Nat,
    exec (workQueueSystem Unit Nat Nat) .initial pluggedRun = some s ∧
    s.call (.thread 1) = .flushDelayableEnter 0 ∧ (s.mem.queue ()).delayed = [0] ∧
    exec (workQueueSystem Unit Nat Nat) s (List.replicate 8 (.step (.thread 1))) = some t ∧
    t.call (.thread 1) = .done (.bool true) ∧
    ¬ completions s.mem 0 < completions t.mem 0 ∧
    (t.mem.queue ()).delayed = [] ∧ (t.mem.queue ()).fifo.list = [] :=
  ⟨_, _, rfl, rfl, rfl, rfl, rfl, by decide, rfl, rfl⟩

end HazelOsal
