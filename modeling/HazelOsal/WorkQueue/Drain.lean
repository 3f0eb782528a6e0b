import HazelOsal.WorkQueue.Invariant

/-! # A plugged queue

What `os_work_queue_drain(queue, true)` promises when it returns. The plug refuses every submission
and every schedule but those of the queue's own worker, which `os_get_current_thread` names: those
of its handler, that of a promotion, and those of an interrupt handler that has interrupted it. A
drained queue runs no handler, so it stays quiet as long as no promotion was in flight when the
drain returned and no interrupt handler of the last kind calls. -/

namespace HazelOsal

open TransitionSystem

variable {Q W T : Type} [DecidableEq Q] [DecidableEq W]

/-! ## The plug -/

/-- A call of `os_work_queue_unplug` on `q` that has not returned. -/
def Pc.unplugs (q : Q) : Pc Q W → Bool
  | .unplugEnter q' | .unplugLock q' => q' = q
  | _ => false

def Op.unplugs (q : Q) : Op Q W → Bool
  | .unplug q' => q' = q
  | _ => false

/-- The call is at the critical section of a submission to `q`, or of a schedule on it. -/
def Pc.enters (q : Q) : Pc Q W → Bool
  | .submit (.lock q' _) _ | .scheduleLock q' _ _ _ => q' = q
  | _ => false

/-- No `os_work_queue_unplug` on `q` begins, and no interrupt handler that has interrupted the
worker of `q` is at the critical section of a submission to `q` or of a schedule on it. -/
def keepsQuiet (q : Q) (s : State Q W T) : Act Q W T → Bool
  | .call _ op => !op.unplugs q
  | .step (.isr t (some q')) => !(q' = q && (s.call (.isr t (some q'))).enters q)
  | _ => true

section
variable {c : Ctx Q T} {m m' : Mem Q W} {q q' : Q}

section
omit [DecidableEq W]

@[simp] theorem SubmitCont.resume_unplugs {w : W} {r : Int} {k : SubmitCont} :
    (k.resume w r : Pc Q W).unplugs q = false := by cases k <;> rfl

@[simp] theorem DelayableCont.resume_unplugs {w : W} {r : Int} {k : DelayableCont} :
    (k.resume w r : Pc Q W).unplugs q = false := by cases k <;> rfl

@[simp] theorem CancelCont.resume_unplugs {w : W} {r : Int} {k : CancelCont Q} :
    (k.resume w r : Pc Q W).unplugs q = false := by
  cases k with
  | delayable q k => exact DelayableCont.resume_unplugs
  | ret | sync b => rfl

theorem Op.entry_unplugs {op : Op Q W} (h : op.unplugs q = false) : op.entry.unplugs q = false := by
  cases op <;> exact h

end

theorem callStep_unplugs {p p' : Pc Q W} (h : callStep c m p = some (m', p'))
    (hp : p.unplugs q = false) : p'.unplugs q = false := by
  cases p with
  | submit p k =>
    obtain ⟨-, ⟨p₁, -, rfl⟩ | ⟨r, -, rfl⟩⟩ := callStep_submit h
    · rfl
    · simp
  | _ =>
    simp only [callStep] at h
    grind [Pc.unplugs, Option.map_eq_some_iff, CancelCont.resume_unplugs,
      DelayableCont.resume_unplugs]

omit [DecidableEq W] in
theorem setQueue_plugged {v : OsWorkQueue W} (hv : v.plugged = (m.queue q').plugged) :
    ((m.setQueue q' v).queue q).plugged = (m.queue q).plugged := by
  rw [Mem.setQueue_queue]
  split
  case isTrue h => subst h; exact hv
  case isFalse => rfl

omit [DecidableEq W] in
theorem plugged_setQueue {v : OsWorkQueue W} (h : (m.queue q).plugged = true)
    (hv : v.plugged = (m.queue q').plugged) : ((m.setQueue q' v).queue q).plugged = true :=
  (setQueue_plugged hv).trans h

theorem CallSame.plugged {p p' : Pc Q W} (he : CallSame c m p m' p')
    (hp : p.unplugs q = false) (h : (m.queue q).plugged = true) : (m'.queue q).plugged = true := by
  cases he with
  | move => exact h
  | giveItems | trytakeItems | thread | deinitSem | finish => exact plugged_setQueue h rfl
  | takeSync _ _ hm => obtain ⟨sync, -, rfl⟩ := Option.map_eq_some_iff.mp hm; exact h
  | notify => simp only [Mem.osWorkNotify]; split <;> exact h
  | drainBegin =>
    simp only [osWorkQueueDrainBegin, Mem.setQueue_queue]
    split
    case isTrue hq => subst hq; simp [h]
    case isFalse => exact h
  | drainCheck =>
    simp only [osWorkQueueDrainCheck]
    split
    · exact plugged_setQueue h rfl
    · exact h
  | @unplug q₁ =>
    have hne : q ≠ q₁ := by rintro rfl; simp [Pc.unplugs] at hp
    simp only [osWorkQueueUnplugCritical]
    split
    · rw [Mem.setQueue_queue, if_neg hne]; exact h
    · exact h
  | joinError => simp only [Mem.recordJoin]; split <;> exact plugged_setQueue h rfl

/-- Only `os_work_queue_unplug` takes the plug out. -/
theorem CallEffect.plugged {p p' : Pc Q W} (he : CallEffect c m p m' p')
    (hp : p.unplugs q = false) (h : (m.queue q).plugged = true) : (m'.queue q).plugged = true := by
  cases he with
  | same he => exact he.plugged hp h
  | enqueue => rw [enqueue_queue]; split <;> simp_all
  | cancel =>
    simp only [osWorkCancelCritical, mark_queue]
    split
    · rw [dequeue_queue]; exact h
    · exact h
  | arm => rw [arm_queue]; split <;> simp_all
  | rearm => rw [arm_queue]; split <;> simp_all [undelay, clearDelayed_queue, Mem.settle]
  | unschedule | cancelDelayable | flushDelayable | purge => exact h
  | markStop | zero => exact plugged_setQueue h rfl

theorem WorkerEffect.plugged {p p' : WorkerPc Q W} (he : WorkerEffect m q' p m' p') :
    (m'.queue q).plugged = (m.queue q).plugged := by
  cases he with
  | same he =>
    cases he with
    | move => rfl
    | giveItems | thread => exact setQueue_plugged rfl
    | takeItems _ hm =>
      obtain ⟨items, -, rfl⟩ := Option.map_eq_some_iff.mp hm; exact setQueue_plugged rfl
    | notify => simp only [Mem.osWorkNotify]; split <;> rfl
  | refuse | promote | block => rfl
  | enqueue => simp only [Mem.settle, enqueue_queue]; split <;> simp_all
  | stop => exact setQueue_plugged rfl
  | start => rw [start_queue]; split <;> simp_all [popped]
  | complete => rw [complete_queue]; split <;> simp_all

/-! ## The quiet queue -/

/-- Queue `q` is plugged for good, holds no item and runs none, and no promotion of its worker is
in flight. -/
structure Quiet (q : Q) (s : State Q W T) : Prop where
  plugged : (s.mem.queue q).plugged = true
  unplugs : ∀ c, (s.call c).unplugs q = false
  list : ∀ w, .work w ∉ (s.mem.queue q).fifo.list
  current : (s.mem.queue q).current = none
  promotion : (s.worker q).promotion = none

/-- The lists that a call leaves hold no new item, unless it submits one. -/
theorem CallEffect.list {p p' : Pc Q W} (he : CallEffect c m p m' p') (hr : RunInv m)
    (hl : ∀ w, .work w ∉ (m.queue q).fifo.list)
    (hs : ∀ w k, p = .submit (.lock q w) k → ¬ SubmitAccepts c.caller m q w) :
    ∀ w, .work w ∉ (m'.queue q).fifo.list := by
  cases he with
  | same he => rw [he.same.list]; exact hl
  | @enqueue q₁ w₁ r k ha =>
    have hne : q ≠ q₁ := by rintro rfl; exact hs w₁ k rfl ha
    rw [enqueue_queue, if_neg hne]
    exact hl
  | @cancel w₁ k =>
    intro w hw
    rcases cancel_cases hr w₁ with ⟨-, hm, -⟩ | ⟨q₁, -, -, hm, -⟩ <;> rw [hm, mark_queue] at hw
    · exact hl w hw
    · rw [dequeue_queue] at hw
      exact hl w (List.mem_of_mem_erase hw)
  | arm => rw [arm_queue]; split <;> simp_all
  | rearm => rw [arm_queue]; split <;> simp_all [undelay, clearDelayed_queue, Mem.settle]
  | unschedule | cancelDelayable | flushDelayable | purge => exact hl
  | markStop =>
    simp only [osWorkQueueMarkStop, Mem.setQueue_queue]
    split <;> simp_all
  | zero => rw [Mem.setQueue_queue]; split <;> simp_all [osFifoZero]

theorem WorkerEffect.quiet {p p' : WorkerPc Q W} (he : WorkerEffect m q' p m' p')
    (hl : ∀ w, .work w ∉ (m.queue q).fifo.list) (hplug : (m.queue q).plugged = true)
    (ht : p.promotesTo q') (hp : q = q' → p.promotion = none) :
    (∀ w, .work w ∉ (m'.queue q).fifo.list) ∧
      (q = q' → p'.promotion = none ∧ (p.item = none → p'.item = none)) := by
  cases he with
  | same he hi hpp => rw [he.same.list, hi, hpp]; exact ⟨hl, fun hq => ⟨hp hq, id⟩⟩
  | refuse => exact ⟨hl, fun _ => ⟨rfl, id⟩⟩
  | @enqueue q₁ w r d j ha =>
    obtain ⟨ht, -⟩ := ht
    cases ht
    have hne : q ≠ q' := fun hq => nomatch hp hq
    refine ⟨?_, fun hq => absurd hq hne⟩
    simp only [Mem.settle, enqueue_queue, if_neg hne]
    exact hl
  | promote _ hplug' =>
    refine ⟨hl, ?_⟩
    rintro rfl
    rw [hplug] at hplug'
    cases hplug'
  | block => exact ⟨hl, fun _ => ⟨rfl, id⟩⟩
  | @stop rest hlist =>
    refine ⟨?_, fun _ => ⟨rfl, id⟩⟩
    intro w hw
    rw [Mem.setQueue_queue] at hw
    split at hw
    case isTrue hq => subst hq; exact hl w (by rw [hlist]; exact List.mem_cons_of_mem _ hw)
    case isFalse => exact hl w hw
  | @start rest w₁ hlist =>
    have hne : q ≠ q' := by
      rintro rfl
      exact hl w₁ (by rw [hlist]; exact List.mem_cons_self)
    rw [start_queue, if_neg hne]
    exact ⟨hl, fun hq => absurd hq hne⟩
  | complete =>
    rw [complete_queue]
    exact ⟨by split <;> simp_all, fun _ => ⟨rfl, fun _ => rfl⟩⟩

end

/-- A context that passes the plug of a quiet queue is an interrupt handler that has interrupted
its worker. -/
theorem Quiet.caller {q : Q} {s : State Q W T} {c : Ctx Q T} (h : Quiet q s) (hi : StateInv s)
    (hfree : (s.call c).free = false) (hc : c.caller = some q) : ∃ t, c = .isr t (some q) := by
  cases c with
  | thread t => cases hc
  | isr t i => cases hc; exact ⟨t, rfl⟩
  | handler q' =>
    cases hc
    have hrun := hi.handler q hfree
    have hitem := hi.worker q
    rw [h.current] at hitem
    revert hrun hitem
    cases s.worker q <;> nofun

variable [DecidableEq T]

theorem Quiet.step {q : Q} {s t : State Q W T} {a : Act Q W T} (h : Quiet q s)
    (hi : StateInv s) (hok : keepsQuiet q s a = true) (hs : HazelOsal.step s a = some t) :
    Quiet q t := by
  obtain ⟨hplug, hun, hl, hcur, hp⟩ := h
  cases step_effect hs with
  | @call c op hmay =>
    refine ⟨hplug, fun c' => ?_, hl, hcur, hp⟩
    rw [State.setCall_call]
    split
    · exact Op.entry_unplugs (by simpa [keepsQuiet] using hok)
    · exact hun c'
  | @step c m p hstep he =>
    refine ⟨he.plugged (hun c) hplug, fun c' => ?_, ?_, ?_, hp⟩
    · rw [State.setCall_call]
      split
      · exact callStep_unplugs hstep (hun c)
      · exact hun c'
    · refine he.list hi.mem.toRunInv hl fun w k hpc ha => ?_
      -- the plug is open to interrupt handlers that have interrupted the worker only
      have hcaller : c.caller = some q := by
        rcases ha.gate with hg | hg
        · simp [hplug] at hg
        · exact hg
      obtain ⟨t, rfl⟩ := Quiet.caller ⟨hplug, hun, hl, hcur, hp⟩ hi (by rw [hpc]; rfl) hcaller
      simp [keepsQuiet, hpc, Pc.enters] at hok
    · rw [State.setCall_mem, he.current]; exact hcur
  | expire =>
    refine ⟨hplug, fun c' => ?_, hl, hcur, hp⟩
    rw [State.setCall_call]
    split
    · rfl
    · exact hun c'
  | @worker q' m p hfree hstep he =>
    have hpq : q = q' → (s.worker q').promotion = none := by rintro rfl; exact hp
    obtain ⟨hl', hp'⟩ := he.quiet hl hplug (hi.promotes q') hpq
    refine ⟨he.plugged.trans hplug, hun, hl', ?_, ?_⟩
    · rw [State.setWorker_mem, he.current (hi.worker q')]
      split
      case isTrue hq => subst hq; exact (hp' rfl).2 ((hi.worker q).trans hcur)
      case isFalse => exact hcur
    · rw [State.setWorker_worker]
      split
      case isTrue hq => exact (hp' hq).1
      case isFalse => exact hp
  | workerExpire =>
    refine ⟨hplug, hun, hl, hcur, ?_⟩
    rw [State.setWorker_worker]
    split
    · rfl
    · exact hp
  | tick => exact ⟨hplug, hun, hl, hcur, hp⟩

omit [DecidableEq T] in
/-- A plugged queue refuses whoever its worker is not. -/
theorem refused_of_plugged {m : Mem Q W} {q : Q} {c : Ctx Q T} (h : (m.queue q).plugged = true)
    (hc : c.caller ≠ some q) :
    (∀ w k, callStep c m (.submit (.lock q w) k) = some (m, k.resume w (-EBUSY))) ∧
    ∀ d delay reschedule, callStep c m (.scheduleLock q d delay reschedule) =
      some (m, .done (.int (-EBUSY))) := by
  have hgate : (((m.queue q).draining || (m.queue q).plugged) && c.caller != some q) = true := by
    simp [h, hc]
  have hneg : ¬ (0 : Int) < -EBUSY := by decide
  constructor
  · intro w k
    simp only [callStep, SubmitPc.step, osWorkSubmitToQueueCritical, hgate, Bool.or_true,
      Bool.true_or, if_true, hneg, if_false, SubmitPc.item]
  · intro d delay reschedule
    simp only [callStep, osWorkScheduleCritical, hgate, Bool.or_true, if_true]

/-- **A plugged queue stays quiet.** Let `os_work_queue_drain(q, true)` return while `q` is plugged,
no call of `os_work_queue_unplug` is in progress and the worker is not promoting an item. Until the
next such call, and as long as no interrupt handler that has interrupted the worker submits to `q`
or schedules on it: every submission and schedule of a context that is not the worker is refused
with `-EBUSY`, `fifo.list` holds no item, nothing runs, and no handler starts. -/
theorem drained_queue_quiet (c : Ctx Q T) {q : Q} {waited : Bool} {r : Int} {s s' t : State Q W T}
    (h : Reachable (workQueueSystem Q W T) s) (hc : s.call c = .drainCheck q true waited)
    (hs : step s (.step c) = some s') (hret : s'.call c = .done (.int r))
    (hplug : (s.mem.queue q).plugged = true) (hun : ∀ c', (s.call c').unplugs q = false)
    (hp : (s.worker q).promotion = none)
    (hr : Run (workQueueSystem Q W T) (fun s a => keepsQuiet q s a) s' t) :
    (∀ c' : Ctx Q T, c'.caller ≠ some q →
      (∀ w k, callStep c' t.mem (.submit (.lock q w) k) = some (t.mem, k.resume w (-EBUSY))) ∧
      ∀ d delay reschedule, callStep c' t.mem (.scheduleLock q d delay reschedule) =
        some (t.mem, .done (.int (-EBUSY)))) ∧
    (∀ w, .work w ∉ (t.mem.queue q).fifo.list) ∧ (t.mem.queue q).current = none ∧
    ∀ w, t.worker q ≠ .run w := by
  have hi := stateInv_of_reachable h
  have hs' : (workQueueSystem Q W T).step s (.step c) = some s' := hs
  have hreach : Reachable (workQueueSystem Q W T) s' := h.step trivial hs'
  -- the drain returns only if it finds the list empty and nothing running
  have hdrained : (s.mem.queue q).fifo.count = 0 ∧ (s.mem.queue q).current = none := by
    by_contra hne
    have hb : ((s.mem.queue q).fifo.count == 0 && (s.mem.queue q).current.isNone) = false := by
      refine Bool.eq_false_iff.mpr fun hb => hne ?_
      simpa only [Bool.and_eq_true, beq_iff_eq, Option.isNone_iff_eq_none] using hb
    simp only [step, hc, callStep, osWorkQueueDrainCheck, hb, Bool.false_eq_true, if_false,
      Option.map_some, Option.some.injEq] at hs
    rw [← hs, State.setCall_call_self] at hret
    cases hret
  have hnil := hi.mem.list_eq_nil hdrained.1
  have hq : Quiet q s := ⟨hplug, hun, by simp [hnil], hdrained.2, hp⟩
  have hok : keepsQuiet q s (.step c) = true := by
    rcases c with t | ⟨t, i | i⟩ | i <;> simp [keepsQuiet, hc, Pc.enters]
  have hqt : Quiet q t := Run.invariant hreach (hq.step hi hok hs)
    (fun u a v hu hI hok hv => hI.step (stateInv_of_reachable hu) hok hv) hr
  refine ⟨fun c' hc' => refused_of_plugged hqt.plugged hc', hqt.list, hqt.current, ?_⟩
  intro w hw
  have := (stateInv_of_reachable (hreach.then hr)).worker q
  rw [hw, hqt.current] at this
  cases this

/-- A thread drains and plugs an idle queue, up to the last critical section. -/
def drainRun : List (Act Unit Nat Nat) :=
  [.call (.thread 0) (.drain () true), .step (.thread 0), .step (.thread 0)]

/-- Another thread submits an item, in vain. -/
def refusedRun : List (Act Unit Nat Nat) :=
  [.call (.thread 1) (.submitToQueue (some ()) 0), .step (.thread 1), .step (.thread 1),
    .worker (), .worker (), .worker ()]

theorem drained_queue_quiet_refused : ∃ s s' t : State Unit Nat Nat,
    exec (workQueueSystem Unit Nat Nat) .initial drainRun = some s ∧
    step s (.step (.thread 0)) = some s' ∧ s'.call (.thread 0) = .done (.int 0) ∧
    exec (workQueueSystem Unit Nat Nat) s' refusedRun = some t ∧
    t.call (.thread 1) = .done (.int (-EBUSY)) ∧ ∀ w, t.worker () ≠ .run w := by
  refine ⟨_, _, _, rfl, rfl, rfl, rfl, rfl, ?_⟩
  refine (drained_queue_quiet (.thread 0) (reachable_of_exec drainRun State.init_initial rfl) rfl
    rfl rfl rfl (fun c' => ?_) rfl (run_of_execOk refusedRun (fun _ _ h => h) rfl rfl)).2.2.2
  rcases c' with t | ⟨t, i⟩ | q
  · rcases t with _ | t <;> rfl
  · rfl
  · rfl

/-- The worker has taken a delayed item off its list when the queue is drained and plugged. -/
def promotedRun : List (Act Unit Nat Nat) :=
  [Act.call (.thread 1) (.scheduleForQueue () 0 1), .step (.thread 1), .step (.thread 1),
    .step (.thread 1), .tick, .worker (), .worker ()] ++ drainRun ++ [Act.step (.thread 0)]

/-- An interrupt handler that has interrupted the worker submits an item. -/
def isrRun : List (Act Unit Nat Nat) :=
  [.call (.isr 0 (some ())) (.submitToQueue (some ()) 0), .step (.isr 0 (some ())),
    .step (.isr 0 (some ())), .step (.isr 0 (some ()))]

/-- After a drain has returned 0, the promotion queues its item, and so does the interrupt handler,
though the queue is plugged and runs no handler; the worker starts either. -/
theorem drained_queue_not_quiet :
    (∃ s t : State Unit Nat Nat,
      exec (workQueueSystem Unit Nat Nat) .initial promotedRun = some s ∧
      s.call (.thread 0) = .done (.int 0) ∧
      exec (workQueueSystem Unit Nat Nat) s (List.replicate 7 (.worker ())) = some t ∧
      (t.mem.queue ()).plugged = true ∧ t.worker () = .run 0) ∧
    ∃ s t u : State Unit Nat Nat,
      exec (workQueueSystem Unit Nat Nat) .initial (drainRun ++ [.step (.thread 0)]) = some s ∧
      s.call (.thread 0) = .done (.int 0) ∧
      exec (workQueueSystem Unit Nat Nat) s isrRun = some t ∧
      t.call (.isr 0 (some ())) = .done (.int 1) ∧
      exec (workQueueSystem Unit Nat Nat) t (List.replicate 4 (.worker ())) = some u ∧
      (u.mem.queue ()).plugged = true ∧ u.worker () = .run 0 :=
  ⟨⟨_, _, rfl, rfl, rfl, rfl, rfl⟩, _, _, _, rfl, rfl, rfl, rfl, rfl, rfl, rfl⟩

end HazelOsal
