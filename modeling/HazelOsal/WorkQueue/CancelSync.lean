import HazelOsal.WorkQueue.Invariant

/-! # Synchronous cancel of a delayable item

`os_work_cancel_delayable_sync` returns when `os_work_busy_get` reads zero flags. An item that
`os_work_promote_delayed` has taken off the delayed list and not yet submitted has no flag either,
so the cancel is final only where no promotion of the item is in flight at that moment. -/

namespace HazelOsal

open TransitionSystem

variable {Q W T : Type} [DecidableEq Q] [DecidableEq W] [DecidableEq T]

/-! ## Calls that may queue an item -/

/-- The call may still put `d` on a list. -/
def Pc.resubmits (d : W) : Pc Q W → Bool
  | .submit p _ => p.undecided && p.item = d
  | .scheduleEnter _ d' _ _ | .scheduleLock _ d' _ _ | .scheduleGiveSubmit _ _ d'
  | .flushDelayableEnter d' | .flushDelayableLock d' | .flushDelayableGive _ d' => d' = d
  | _ => false

/-- The call is at the critical section that submits or schedules `d`. -/
def Pc.submits (d : W) : Pc Q W → Bool
  | .submit (.lock _ d') _ | .scheduleLock _ d' _ _ => d' = d
  | _ => false

/-- A call to submit, schedule, reschedule or `flush_delayable` on `d`. -/
def Op.resubmits (d : W) : Op Q W → Bool
  | .submitToQueue _ d' | .scheduleForQueue _ d' _ | .rescheduleForQueue _ d' _
  | .flushDelayable d' => d' = d
  | _ => false

/-- The action does not begin a call that may put `d` on a list. -/
def noResubmit (d : W) : Act Q W T → Bool
  | .call _ op => !op.resubmits d
  | _ => true

section
variable {c : Ctx Q T} {m m' : Mem Q W} {q : Q} {d : W}
omit [DecidableEq T]

section
omit [DecidableEq Q]

@[simp] theorem SubmitCont.resume_resubmits {w : W} {r : Int} {k : SubmitCont} :
    (k.resume w r : Pc Q W).resubmits d = false := by cases k <;> rfl

@[simp] theorem DelayableCont.resume_resubmits {w : W} {r : Int} {k : DelayableCont} :
    (k.resume w r : Pc Q W).resubmits d = false := by cases k <;> rfl

@[simp] theorem CancelCont.resume_resubmits {w : W} {r : Int} {k : CancelCont Q} :
    (k.resume w r : Pc Q W).resubmits d = false := by
  cases k with
  | delayable q k => exact DelayableCont.resume_resubmits
  | ret | sync b => rfl

theorem Op.entry_resubmits {op : Op Q W} (h : op.resubmits d = false) :
    op.entry.resubmits d = false := by
  cases op <;> exact h

end

/-- A call that may put `d` on a list has been able to from its beginning. -/
theorem callStep_resubmits {p p' : Pc Q W} (h : callStep c m p = some (m', p'))
    (hp : p.resubmits d = false) : p'.resubmits d = false := by
  cases p with
  | submit p k =>
    obtain ⟨-, ⟨p₁, hp₁, rfl⟩ | ⟨r, -, rfl⟩⟩ := callStep_submit h
    · obtain ⟨hitem, -⟩ := SubmitPc.step_inl hp₁
      simp only [Pc.resubmits, hitem]
      cases p with
      | enter | lock => simp_all [Pc.resubmits, SubmitPc.undecided]
      | give => cases hp₁
    · simp
  | _ =>
    simp only [callStep] at h
    grind [Pc.resubmits, Option.map_eq_some_iff, CancelCont.resume_resubmits,
      DelayableCont.resume_resubmits, SubmitPc.item, SubmitPc.undecided]

/-! ## A canceled item -/

/-- Nothing holds `d`: it has no flag, and neither a call nor a promotion may queue it. -/
structure Quiescent (d : W) (s : State Q W T) : Prop where
  flags : (s.mem.work d).flags = .none
  calls : ∀ c, (s.call c).resubmits d = false
  promotions : ∀ q j, (s.worker q).promotion ≠ some (d, j)

omit [DecidableEq Q] in
theorem Pc.submits_of_resubmits {p : Pc Q W} (hp : p.resubmits d = false) :
    p.submits d = false := by
  cases p with
  | submit p k =>
    cases p with
    | lock => exact hp
    | enter | give => rfl
  | scheduleLock => exact hp
  | _ => rfl

theorem CallEffect.flags_none {p p' : Pc Q W} (he : CallEffect c m p m' p') (hr : RunInv m)
    (hf : (m.work d).flags = .none) (hp : p.submits d = false) :
    (m'.work d).flags = .none := by
  have hclear {e : W} : ((clearDelayed m e).work d).flags = .none := by
    rw [clearDelayed_work]
    split
    case isTrue he => subst he; rw [hf]; rfl
    case isFalse => exact hf
  cases he with
  | same he => rw [he.same.flags]; exact hf
  | @enqueue q w r k ha =>
    have hne : d ≠ w := by rintro rfl; simp [Pc.submits] at hp
    rw [enqueue_work, if_neg hne]
    exact hf
  | @cancel w k =>
    rcases cancel_cases hr w with ⟨hq, hm, -⟩ | ⟨q, hq, -, hm, -⟩ <;> rw [hm, mark_work]
    · split
      case isTrue hd => subst hd; rw [hf]; rfl
      case isFalse => exact hf
    · have hne : d ≠ w := by rintro rfl; rw [hf] at hq; cases hq
      rw [if_neg hne, dequeue_work, if_neg hne]
      exact hf
  | @arm q e =>
    have hne : d ≠ e := by rintro rfl; simp [Pc.submits] at hp
    rw [arm_work, if_neg hne]
    exact hf
  | @rearm q e =>
    have hne : d ≠ e := by rintro rfl; simp [Pc.submits] at hp
    rw [arm_work, if_neg hne]
    exact hclear
  | unschedule | cancelDelayable | flushDelayable | purge => exact hclear
  | markStop | zero => exact hf

theorem WorkerEffect.flags_none {p p' : WorkerPc Q W} (he : WorkerEffect m q p m' p')
    (hm : MemInv m) (hf : (m.work d).flags = .none) (ht : p.promotesTo q)
    (hp : ∀ j, p.promotion ≠ some (d, j)) :
    (m'.work d).flags = .none ∧ ∀ j, p'.promotion ≠ some (d, j) := by
  cases he with
  | same he _ hpp => rw [hpp, he.same.flags]; exact ⟨hf, hp⟩
  | refuse => exact ⟨hf, nofun⟩
  | @enqueue q' w r e j ha =>
    have hne : d ≠ w := by
      rintro rfl
      obtain ⟨-, rfl⟩ := ht
      exact hp j rfl
    refine ⟨?_, nofun⟩
    have : ((osWorkEnqueue m q' w).work d).flags = .none := by
      rw [enqueue_work, if_neg hne]; exact hf
    exact this
  | @promote e _ hd =>
    -- the promoted item is delayed
    have hne : d ≠ e := by
      rintro rfl
      have := (hm.delay.delayed_of_mem hd).1
      rw [hf] at this
      cases this
    rw [clearDelayed_work, if_neg hne]
    exact ⟨hf, fun j hj => hne (by cases hj; rfl)⟩
  | @block e _ hd =>
    refine ⟨?_, nofun⟩
    rw [undelay_work, clearDelayed_work]
    split
    case isTrue he => subst he; rw [hf]; rfl
    case isFalse => exact hf
  | stop => exact ⟨hf, nofun⟩
  | @start rest w hl =>
    -- the started item is queued
    have hne : d ≠ w := by
      rintro rfl
      have := (hm.queued_head hl).1
      rw [hf] at this
      cases this
    rw [start_work, if_neg hne]
    exact ⟨hf, nofun⟩
  | @complete w =>
    refine ⟨?_, nofun⟩
    rw [complete_work]
    split
    case isTrue he => subst he; rw [hf]; rfl
    case isFalse => exact hf

end

theorem Quiescent.step {d : W} {s t : State Q W T} {a : Act Q W T} (h : Quiescent d s)
    (hi : StateInv s) (hok : noResubmit d a = true) (hs : HazelOsal.step s a = some t) :
    Quiescent d t := by
  obtain ⟨hf, hc, hp⟩ := h
  cases step_effect hs with
  | @call c op hmay =>
    refine ⟨hf, fun c' => ?_, hp⟩
    rw [State.setCall_call]
    split
    · exact Op.entry_resubmits (by simpa [noResubmit] using hok)
    · exact hc c'
  | @step c m p hstep he =>
    refine ⟨he.flags_none hi.mem.toRunInv hf (Pc.submits_of_resubmits (hc c)), fun c' => ?_, hp⟩
    rw [State.setCall_call]
    split
    · exact callStep_resubmits hstep (hc c)
    · exact hc c'
  | expire =>
    refine ⟨hf, fun c' => ?_, hp⟩
    rw [State.setCall_call]
    split
    · rfl
    · exact hc c'
  | @worker q m p hfree hstep he =>
    obtain ⟨hf', hp'⟩ := he.flags_none hi.mem hf (hi.promotes q) (hp q)
    refine ⟨hf', hc, fun q' j => ?_⟩
    rw [State.setWorker_worker]
    split
    · exact hp' j
    · exact hp q' j
  | workerExpire =>
    refine ⟨hf, hc, fun q' j => ?_⟩
    rw [State.setWorker_worker]
    split
    · nofun
    · exact hp q' j
  | tick => exact ⟨hf, hc, hp⟩

/-- **A synchronous cancel is final** where it returns while no worker is promoting the item: if
no call that may queue the item is in progress then or begins later, its handler is not running
and is never started again. -/
theorem cancel_delayable_sync_final (c : Ctx Q T) {d : W} {wasPending woken : Bool}
    {s s' t : State Q W T} (h : Reachable (workQueueSystem Q W T) s)
    (hc : s.call c = .busyCheck .cancelDelayableSync d wasPending woken)
    (hs : step s (.step c) = some s') (hret : s'.call c = .done (.bool wasPending))
    (hpromotion : ∀ q j, (s.worker q).promotion ≠ some (d, j))
    (hcalls : ∀ c', (s.call c').resubmits d = false)
    (hr : Run (workQueueSystem Q W T) (fun _ a => noResubmit d a) s' t) (q : Q) :
    (t.worker q).item ≠ some d := by
  have hi := stateInv_of_reachable h
  have hs' : (workQueueSystem Q W T).step s (.step c) = some s' := hs
  have hreach : Reachable (workQueueSystem Q W T) s' := h.step trivial hs'
  have hflags : (s.mem.work d).flags = .none := by
    by_contra hne
    have hbusy : osWorkBusyGet s.mem d ≠ .none := by
      simp only [osWorkBusyGet, hi.mem.magic d, if_true]; exact hne
    simp only [step, hc, callStep, hbusy, if_false, Option.map_some, Option.some.injEq] at hs
    rw [← hs, State.setCall_call_self] at hret
    cases hret
  have hq : Quiescent d s' := Quiescent.step ⟨hflags, hcalls, hpromotion⟩ hi rfl hs
  have hqt : Quiescent d t := Run.invariant hreach hq
    (fun u a v hu hI hok hv => hI.step (stateInv_of_reachable hu) hok hv) hr
  -- an item that a worker runs is flagged as running
  intro hitem
  have hit := stateInv_of_reachable (hreach.then hr)
  rw [hit.worker] at hitem
  have := (hit.mem.current q d hitem).1
  rw [hqt.flags] at this
  cases this

/-- A thread schedules item 0 and another cancels it, before it comes due. -/
def cancelDelayableRun : List (Act Unit Nat Nat) :=
  [.call (.thread 0) (.scheduleForQueue () 0 1), .step (.thread 0), .step (.thread 0),
    .step (.thread 0), .call (.thread 1) (.cancelDelayableSync 0), .step (.thread 1),
    .step (.thread 1), .step (.thread 1), .step (.thread 1), .step (.thread 1), .step (.thread 1),
    .step (.thread 1)]

/-- The clock and the worker go on. -/
def passRun : List (Act Unit Nat Nat) := .tick :: List.replicate 8 (.worker ())

theorem cancel_delayable_sync_final_before_due : ∃ s s' t : State Unit Nat Nat,
    exec (workQueueSystem Unit Nat Nat) .initial cancelDelayableRun = some s ∧
    step s (.step (.thread 1)) = some s' ∧
    s'.call (.thread 1) = .done (.bool true) ∧
    exec (workQueueSystem Unit Nat Nat) s' passRun = some t ∧
    (t.worker ()).item ≠ some 0 := by
  refine ⟨_, _, _, rfl, rfl, rfl, rfl, ?_⟩
  refine cancel_delayable_sync_final (.thread 1)
    (reachable_of_exec cancelDelayableRun State.init_initial rfl) rfl rfl rfl
    (fun q j h => by cases q; cases h) (fun c' => ?_)
    (run_of_execOk passRun (fun _ _ h => h) rfl rfl) ()
  rcases c' with t | ⟨t, i⟩ | q
  · rcases t with _ | _ | t <;> rfl
  · rfl
  · rfl

/-- The worker takes the item off the delayed list; the cancel finds nothing and returns. -/
def promotingRun : List (Act Unit Nat Nat) :=
  [.call (.thread 0) (.scheduleForQueue () 0 1), .step (.thread 0), .step (.thread 0),
    .step (.thread 0), .tick, .worker (), .worker (), .call (.thread 1) (.cancelDelayableSync 0),
    .step (.thread 1), .step (.thread 1), .step (.thread 1), .step (.thread 1), .step (.thread 1),
    .step (.thread 1), .step (.thread 1)]

/-- The cancel has returned, no call is in progress and none is made, but the worker runs the
item. -/
theorem cancel_delayable_sync_not_final : ∃ s t : State Unit Nat Nat,
    exec (workQueueSystem Unit Nat Nat) .initial promotingRun = some s ∧
    s.call (.thread 1) = .done (.bool false) ∧ (∀ c, (s.call c).resubmits 0 = false) ∧
    exec (workQueueSystem Unit Nat Nat) s (List.replicate 7 (.worker ())) = some t ∧
    t.worker () = .run 0 := by
  refine ⟨_, _, rfl, rfl, fun c => ?_, rfl, rfl⟩
  rcases c with t | ⟨t, i⟩ | q
  · rcases t with _ | _ | t <;> rfl
  · rfl
  · rfl

end HazelOsal
