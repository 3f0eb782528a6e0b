import HazelOsal.FreeRtos.Slot
import HazelOsal.Library.Parking

/-! # Delivery of wakes

A call of `os_waitq_block` is a parked thread: every step of the system is a step of
`Parking.Step` for it, where no wake removes the thread after its native wait has ended
(`PromptWake`). The native notification is shared with the waits for mutexes. -/

namespace HazelOsal.FreeRtos

open TransitionSystem Parking

variable {T M Q N : Type}

/-- The call is between joining a wait queue and the end of the native wait. -/
def Pc.awaits : Pc T M Q → Bool
  | .lockNotifyWait .. | .lockWaiting .. | .blockNotifyWait .. | .blockWaiting .. => true
  | _ => false

def Pc.blockPhase : Pc T M Q → Phase UInt32
  | .blockNotifyWait .. | .blockWaiting .. => .waiting
  | .blockFinish _ _ _ notified notify => .ended (if notified then some notify else none)
  | _ => .outside

def Removal.reason : Removal M Q → Option UInt32
  | .wake _ reason => some reason
  | _ => none

/-- A call of `os_waitq_block` as a parked thread. -/
def blockWait (v : Slot M Q) (p : Pc T M Q) : Wait UInt32 :=
  ⟨p.blockPhase, v.waitQ.isSome, v.removed.bind Removal.reason, v.notification⟩

/-- The step of `c` is a wake of `q` that removes `t`. -/
def Wakes (s : State T M Q N) (c : Caller T N) (q : Q) (reason : UInt32) (t : T) : Prop :=
  s.call c = .wakeOneLock q reason ∧ (s.mem.queue (.plain q)).head? = some t ∨
    s.call c = .wakeAllLock q reason ∧ t ∈ s.mem.queue (.plain q)

/-- `os_waitq_wake_one` and `os_waitq_wake_all` remove only threads whose native wait has not
ended. -/
def PromptWake (s : State T M Q N) (a : Act T M Q N) : Prop :=
  ∀ c q reason t, a = .step c → Wakes s c q reason t → (s.call (.thread t)).awaits = true

/-- The reason of a wake is not the value that reports a timeout. -/
def ProperReason (s : State T M Q N) (a : Act T M Q N) : Prop :=
  ∀ c q reason t, a = .step c → Wakes s c q reason t → reason.toInt32.toInt ≠ -ETIMEDOUT

/-- The check of `PromptWake`. -/
def promptWake (s : State T M Q N) : Act T M Q N → Bool
  | .step c =>
    match s.call c with
    | .wakeOneLock q _ =>
      (s.mem.queue (.plain q)).head?.all fun t => (s.call (.thread t)).awaits
    | .wakeAllLock q _ => (s.mem.queue (.plain q)).all fun t => (s.call (.thread t)).awaits
    | _ => true
  | _ => true

/-- The check of `ProperReason`. -/
def properReason (s : State T M Q N) : Act T M Q N → Bool
  | .step c =>
    match s.call c with
    | .wakeOneLock _ reason | .wakeAllLock _ reason => reason.toInt32.toInt != -ETIMEDOUT
    | _ => true
  | _ => true

theorem PromptWake.of_promptWake {s : State T M Q N} {a : Act T M Q N}
    (h : promptWake s a = true) : PromptWake s a := by
  rintro c q reason t rfl (⟨hc, ht⟩ | ⟨hc, ht⟩)
  · simpa [promptWake, hc, ht] using h
  · simp only [promptWake, hc, List.all_eq_true] at h
    exact h t ht

theorem ProperReason.of_properReason {s : State T M Q N} {a : Act T M Q N}
    (h : properReason s a = true) : ProperReason s a := by
  rintro c q reason t rfl (⟨hc, -⟩ | ⟨hc, -⟩)
  all_goals simpa [properReason, hc] using h

/-- The guard of the runs in which wakes are delivered. -/
structure WakeGuard (s : State T M Q N) (a : Act T M Q N) : Prop where
  deinit : SafeDeinit s a
  prompt : PromptWake s a
  reason : ProperReason s a

/-- The check of `WakeGuard`, for a run without `os_mutex_deinit`. -/
def wakeGuard (s : State T M Q N) (a : Act T M Q N) : Bool :=
  noDeinit s a && promptWake s a && properReason s a

theorem WakeGuard.of_wakeGuard {s : State T M Q N} {a : Act T M Q N}
    (h : wakeGuard s a = true) : WakeGuard s a := by
  simp only [wakeGuard, Bool.and_eq_true] at h
  exact ⟨.of_noDeinit h.1.1, .of_promptWake h.1.2, .of_properReason h.2⟩

variable [DecidableEq T] [DecidableEq M] [DecidableEq Q] [DecidableEq N]

section
variable {port : Port} {prio : T → Int} {s s' : State T M Q N} {a : Act T M Q N} {u : T}
  {v : Slot M Q} {p p' : Pc T M Q}

omit [DecidableEq T] [DecidableEq M] [DecidableEq Q] in
theorem Pc.blockPhase_of_waitsOn_none (h : p.waitsOn = none) : p.blockPhase = .outside := by
  cases p <;> first | rfl | cases h

omit [DecidableEq T] [DecidableEq M] [DecidableEq Q] in
theorem Pc.blockPhase_of_mutex {mu : M} (h : p.waitsOn = some (.mutex mu)) :
    p.blockPhase = .outside := by
  cases p <;> first | rfl | cases h

omit [DecidableEq T] [DecidableEq M] [DecidableEq Q] in
theorem Pc.blockPhase_of_plain {q : Q} (h : p.waitsOn = some (.plain q)) (hp : p.awaits = true) :
    p.blockPhase = .waiting := by
  cases p with
  | blockNotifyWait | blockWaiting => rfl
  | blockFinish => cases hp
  | _ => cases h

section
omit [DecidableEq T] [DecidableEq M] [DecidableEq Q] [DecidableEq N]

theorem SyncInv.wakes (hi : SyncInv s) {c : Caller T N} {q : Q} {reason : UInt32}
    (hw : (s.mem.thread u).waitQ = some (.plain q))
    (hp : s.call c = .wakeOneLock q reason ∧ (s.mem.queue (.plain q)).head? = some u ∨
      s.call c = .wakeAllLock q reason) : Wakes s c q reason u :=
  hp.imp_right fun hp => ⟨hp, (hi.queues.mem u _).mpr hw⟩

/-- A step of a thread that belongs to its waits. -/
theorem OwnStep.blockWait {m : Mem T M Q} (h : OwnStep port m u p v p') :
    Parking.Step true (blockWait (m.slot u) p) (blockWait v p') := by
  cases h with
  | tried | enqueued | lockParked | abandoned | again =>
    exact .elsewhere rfl rfl fun h => by cases h
  | lockTaken _ hp =>
    rcases hp with ⟨_, rfl⟩ | ⟨_, rfl⟩
    all_goals exact .elsewhere rfl rfl fun h => by cases h
  | blocked => exact .join rfl
  | blockTaken hn hp =>
    rcases hp with rfl | ⟨_, rfl⟩
    all_goals exact .consume rfl hn
  | blockParked => exact .stay
  | unblocked | returned => exact .leave rfl rfl rfl

/-- A native wait that times out. -/
theorem callExpire_blockWait {m : Mem T M Q}
    (h : callExpire (.thread u : Caller T N) m p = some p') :
    Parking.Step true (blockWait (m.slot u) p) (blockWait (m.slot u) p') := by
  obtain ⟨_, _, ht, hn, -, ⟨_, _, _, rfl, rfl⟩ | ⟨_, _, _, rfl, rfl⟩⟩ := callExpire_cases h
  · exact .elsewhere rfl rfl fun h => by cases h
  · cases ht
    exact .timeout rfl hn

/-- **A step of the system is a step of the parked thread.** -/
theorem SlotStep.blockWait (h : SlotStep port s a u v p') (hi : SyncInv s)
    (hw : WaitOk (s.mem.slot u) (s.call (.thread u))) (hok : PromptWake s a) :
    Parking.Step true (blockWait (s.mem.slot u) (s.call (.thread u))) (blockWait v p') := by
  cases h with
  | other hv =>
    rcases hv with rfl | ⟨c, ha, hv⟩
    · exact .stay
    · cases hv with
      | same => exact .stay
      | unlock hq =>
        have hp := Pc.blockPhase_of_mutex (hw.calls _ hq)
        exact .elsewhere hp hp fun h => by cases h
      | @wake q reason hq hp =>
        have hphase := Pc.blockPhase_of_plain (hw.calls _ hq) (hok _ _ _ _ ha (hi.wakes hq hp))
        have hwoken : blockWait ⟨none, some (.wake q reason), some reason⟩ (s.call (.thread u)) =
            ⟨.waiting, false, some reason, some reason⟩ := by
          rw [blockWait, hphase]; rfl
        rw [hwoken]
        exact .wake hphase (Option.isSome_iff_ne_none.mpr (by simp [Mem.slot, hq]))
      | abort hq =>
        have hdropped : blockWait ⟨none, some .abort, s.mem.notification u⟩ (s.call (.thread u)) =
            { blockWait (s.mem.slot u) (s.call (.thread u)) with queued := false } := by
          simp [blockWait, Mem.slot, Removal.reason, show s.mem.hist.removed u = none from
            hw.queued hq]
        rw [hdropped]
        exact .drop (Option.isSome_iff_ne_none.mpr hq)
  | outside hp hp' =>
    exact .elsewhere (Pc.blockPhase_of_waitsOn_none (Pc.waitsOn_of_not_parks hp))
      (Pc.blockPhase_of_waitsOn_none hp') fun h => by cases h
  | own _ h => exact h.blockWait
  | expire _ h => exact callExpire_blockWait h

/-- Wakes are delivered, and no reason is the value that reports a timeout. -/
structure WakeInv (s : State T M Q N) (t : T) : Prop where
  delivered : Delivered (blockWait (s.mem.slot t) (s.call (.thread t)))
  reasons : ∀ q reason, s.mem.hist.removed t = some (.wake q reason) →
    reason.toInt32.toInt ≠ -ETIMEDOUT

/-- What removes a thread by a step is a wake with a proper reason, or no wake. -/
theorem SlotStep.reasons (h : SlotStep port s a u v p') (hi : SyncInv s) (hok : ProperReason s a)
    (hr : ∀ q reason, s.mem.hist.removed u = some (.wake q reason) →
      reason.toInt32.toInt ≠ -ETIMEDOUT) {q : Q} {reason : UInt32}
    (hv : v.removed = some (.wake q reason)) : reason.toInt32.toInt ≠ -ETIMEDOUT := by
  cases h with
  | other hs =>
    rcases hs with rfl | ⟨c, ha, hs⟩
    · exact hr q reason hv
    · cases hs with
      | same => exact hr q reason hv
      | unlock | abort => cases hv
      | wake hq hp => cases hv; exact hok _ _ _ _ ha (hi.wakes hq hp)
  | outside | expire => exact hr q reason hv
  | own _ h =>
    rcases h.removed_cases with hnone | hsame
    · rw [hnone] at hv; cases hv
    · exact hr q reason (hsame.symm.trans hv)

end

theorem wakeInv_of_reachable
    (h : ReachableVia (system port prio : System (State T M Q N) _) WakeGuard s) (t : T) :
    WakeInv s t := by
  refine h.induction (I := fun s => WakeInv s t) (fun s (h : Init port prio s) => ⟨?_, ?_⟩)
    fun s a s' hr hw hok hs => ?_
  · exact .of_outside (by rw [h.call]; rfl)
  · intro q reason hr
    rw [h.hist] at hr
    cases hr
  · have hi := syncInv_of_reachable (fun _ _ => WakeGuard.deinit) hr
    have hstep := step_slot hi hs t
    have hwait := waitOk_of_reachable (fun _ _ => WakeGuard.deinit) hr t
    exact ⟨(hstep.blockWait hi hwait hok.prompt).delivered hw.delivered,
      fun q reason => hstep.reasons hi hok.reason hw.reasons⟩

/-- A step through the second critical section of `os_waitq_block`. -/
theorem step_blockFinish {t : T} {q : Q} {timeout notify : UInt32} {began : Nat} {notified : Bool}
    (hc : s.call (.thread t) = .blockFinish q timeout began notified notify)
    (hs : step port s (.step (.thread t)) = some s') :
    s'.call (.thread t) =
      .done (if (s.mem.thread t).waitQ = none ∧ notified = true then notify.toInt32.toInt
        else -ETIMEDOUT) := by
  have hown := step_own (by rw [hc]; rfl) hs
  rw [hc] at hown
  generalize s'.call (.thread t) = p' at hown ⊢
  generalize s'.mem.slot t = v at hown
  cases hown with
  | unblocked hw => rw [if_neg fun h => hw h.1]
  | returned hw => simp [hw]
  | lockTaken _ hp | blockTaken _ hp => rcases hp with ⟨_, hp⟩ | ⟨_, hp⟩ <;> cases hp

omit [DecidableEq T] [DecidableEq M] [DecidableEq Q] in
/-- A thread that a wake has removed is off the wait queue that the wake is for. -/
theorem WaitOk.woken {q q' : Q} {reason : UInt32} (h : WaitOk v p)
    (hr : v.removed = some (.wake q' reason)) (hp : p.waitsOn = some (.plain q)) :
    v.waitQ = none ∧ q' = q := by
  have hnone : v.waitQ = none := by
    by_contra hne
    rw [h.queued hne] at hr
    cases hr
  obtain ⟨r, hr', hfrom⟩ := h.left _ hp hnone
  cases hr.symm.trans hr'
  cases hfrom
  exact ⟨hnone, rfl⟩

/-- A live thread goes on from the end of its native wait. -/
theorem exists_step_blockFinish (port : Port) {t : T} {q : Q} {timeout notify : UInt32}
    {began : Nat} {notified : Bool} (hd : s.mem.deleted t = false)
    (hc : s.call (.thread t) = .blockFinish q timeout began notified notify) :
    ∃ s', step port s (.step (.thread t)) = some s' := by
  have ha : s.alive (.thread t) := by simpa [State.alive, Caller.current] using hd
  exact ⟨_, by rw [step, if_pos ha, hc]; rfl⟩

/-- A live thread consumes a pending notification. -/
theorem exists_step_consume (port : Port) {t : T} {q : Q} {timeout value : UInt32} {began : Nat}
    (hd : s.mem.deleted t = false) (hn : s.mem.notification t = some value)
    (hc : s.call (.thread t) = .blockNotifyWait q timeout began ∨
      ∃ expiry, s.call (.thread t) = .blockWaiting q timeout began expiry) :
    ∃ s', step port s (.step (.thread t)) = some s' ∧
      s'.call (.thread t) = .blockFinish q timeout began true value ∧
      s'.mem.deleted t = false ∧ s'.mem.hist = s.mem.hist := by
  have ha : s.alive (.thread t) := by simpa [State.alive, Caller.current] using hd
  refine ⟨s.setCall (.thread t) (s.mem.takeNotification t) (.blockFinish q timeout began true
    value), ?_, by rw [State.setCall_call, if_pos rfl], hd, rfl⟩
  rw [step, if_pos ha]
  rcases hc with hc | ⟨_, hc⟩
  all_goals simp [hc, callStep, Caller.current, hn]

/-- A call whose thread a wake has removed returns the reason of the wake. -/
theorem wake_returned (h : ReachableVia (system port prio : System (State T M Q N) _) WakeGuard s)
    {t : T} {q q' : Q} {timeout notify reason : UInt32} {began : Nat} {notified : Bool}
    (hc : s.call (.thread t) = .blockFinish q timeout began notified notify)
    (hs : step port s (.step (.thread t)) = some s')
    (hr : s.mem.hist.removed t = some (.wake q' reason)) :
    q' = q ∧ s'.call (.thread t) = .done reason.toInt32.toInt := by
  have hwait := waitOk_of_reachable (fun _ _ => WakeGuard.deinit) h t
  obtain ⟨hnone, hq⟩ := hwait.woken hr (by rw [hc]; rfl)
  refine ⟨hq, ?_⟩
  have hvalue := (wakeInv_of_reachable h t).delivered.ended _ reason (by rw [hc]; rfl)
    (show (s.mem.hist.removed t).bind Removal.reason = some reason by rw [hr]; rfl)
  rw [step_blockFinish hc hs]
  cases notified with
  | false => cases hvalue
  | true =>
    cases hvalue
    rw [if_pos ⟨hnone, rfl⟩]

/-- A live thread that a wake has removed needs at most two steps to return. -/
theorem wake_progress (h : ReachableVia (system port prio : System (State T M Q N) _) WakeGuard s)
    {t : T} {q q' : Q} {reason : UInt32} (hr : s.mem.hist.removed t = some (.wake q' reason))
    (hp : (s.call (.thread t)).waitsOn = some (.plain q)) (hd : s.mem.deleted t = false) :
    ∃ n ≤ 2, ∃ s', exec (system port prio) s (List.replicate n (.step (.thread t))) = some s' ∧
      s'.call (.thread t) = .done reason.toInt32.toInt := by
  have hconsume {timeout began} (hc : s.call (.thread t) = .blockNotifyWait q timeout began ∨
      ∃ expiry, s.call (.thread t) = .blockWaiting q timeout began expiry) :
      ∃ n ≤ 2, ∃ s', exec (system port prio) s (List.replicate n (.step (.thread t))) = some s' ∧
        s'.call (.thread t) = .done reason.toInt32.toInt := by
    have hn : s.mem.notification t = some reason := by
      refine (wakeInv_of_reachable h t).delivered.waiting ?_ reason
        (show (s.mem.hist.removed t).bind Removal.reason = some reason by rw [hr]; rfl)
      rcases hc with hc | ⟨_, hc⟩
      all_goals rw [hc]; rfl
    obtain ⟨s', hs', hc', hd', hhist⟩ := exists_step_consume port hd hn hc
    obtain ⟨s'', hs''⟩ := exists_step_blockFinish port hd' hc'
    have hnone {c q' reason u} (ha : (.step (.thread t) : Act T M Q N) = .step c) :
        ¬ Wakes s c q' reason u := by
      cases ha
      rintro (⟨hwake, -⟩ | ⟨hwake, -⟩)
      all_goals
        rcases hc with hc | ⟨_, hc⟩
        all_goals rw [hc] at hwake; cases hwake
    have hok : WakeGuard s (.step (.thread t)) := by
      refine ⟨fun c mu ha hdeinit => ?_, fun _ _ _ _ ha hw => absurd hw (hnone ha),
        fun _ _ _ _ ha hw => absurd hw (hnone ha)⟩
      cases ha
      rcases hc with hc | ⟨_, hc⟩
      all_goals rw [hc] at hdeinit; cases hdeinit
    have hret := wake_returned (h.step hok hs') hc' hs'' (by rw [hhist, hr])
    refine ⟨2, le_rfl, s'', ?_, hret.2⟩
    simp [exec, system, List.replicate, hs', hs'']
  generalize hc : s.call (.thread t) = p at hp
  cases p with
  | blockNotifyWait => cases hp; exact hconsume (.inl hc)
  | blockWaiting => cases hp; exact hconsume (.inr ⟨_, hc⟩)
  | blockFinish =>
    cases hp
    obtain ⟨s', hs'⟩ := exists_step_blockFinish port hd hc
    refine ⟨1, by omega, s', ?_, (wake_returned h hc hs' hr).2⟩
    simp [exec, system, List.replicate, hs']
  | _ => cases hp

/-- **Every wake is delivered exactly once**, where wakes are prompt. A call whose thread a wake
has removed returns the reason of this wake, a call that returns `-ETIMEDOUT` has not been removed
by a wake, and a removed thread needs at most two steps of its own to return. -/
theorem wake_delivered
    (h : ReachableVia (system port prio : System (State T M Q N) _)
      WakeGuard s) (t : T) (q : Q) :
    (∀ timeout began notified notify s',
      s.call (.thread t) = .blockFinish q timeout began notified notify →
        step port s (.step (.thread t)) = some s' →
          (∀ q' reason, s.mem.hist.removed t = some (.wake q' reason) →
            q' = q ∧ s'.call (.thread t) = .done reason.toInt32.toInt) ∧
          (s'.call (.thread t) = .done (-ETIMEDOUT) →
            ∀ q' reason, s.mem.hist.removed t ≠ some (.wake q' reason))) ∧
    ∀ q' reason, s.mem.hist.removed t = some (.wake q' reason) →
      (s.call (.thread t)).waitsOn = some (.plain q) → s.mem.deleted t = false →
        ∃ n ≤ 2, ∃ s', exec (system port prio) s (List.replicate n (.step (.thread t))) = some s' ∧
          s'.call (.thread t) = .done reason.toInt32.toInt := by
  refine ⟨fun timeout began notified notify s' hc hs =>
    ⟨fun q' reason => wake_returned h hc hs, fun hret q' reason hr => ?_⟩,
    fun q' reason => wake_progress h⟩
  have hdone := (wake_returned h hc hs hr).2
  rw [hret] at hdone
  injection hdone with hdone
  exact (wakeInv_of_reachable h t).reasons q' reason hr hdone.symm

/-- A thread waits with a timeout, and a task wakes it. -/
def wakeRun : List (Act Unit Unit Unit Unit) :=
  callSteps (.thread ()) (.block () 1) 3 ++ callSteps (.task ()) (.wakeOne () 5) 1

theorem wake_delivered_in_time : ∃ n ≤ 2, ∃ s s' : State Unit Unit Unit Unit,
    exec (system ⟨8, 32⟩ fun _ => 1) (.initial ⟨8, 32⟩ fun _ => 1) wakeRun = some s ∧
    s.call (.thread ()) = .blockWaiting () 1 0 (some 1) ∧
    exec (system ⟨8, 32⟩ fun _ => 1) s (List.replicate n (.step (.thread ()))) = some s' ∧
    s'.call (.thread ()) = .done 5 := by
  obtain ⟨s, hs, hc, hr, hd⟩ := exists_of_exec wakeRun
    (M := system ⟨8, 32⟩ fun _ => 1) (s := .initial ⟨8, 32⟩ fun _ => 1)
    (P := fun s => s.call (.thread ()) = .blockWaiting () 1 0 (some 1) ∧
      s.mem.hist.removed () = some (.wake () 5) ∧ s.mem.deleted () = false) (by decide +kernel)
  obtain ⟨-, h⟩ := wake_delivered
    (reachableVia_of_execOk wakeRun
      (fun _ _ => WakeGuard.of_wakeGuard)
      (State.init_initial ⟨8, 32⟩ fun _ => 1) (by decide +kernel) hs) () ()
  obtain ⟨n, hn, s', hs', hret⟩ := h () 5 hr (by rw [hc]; rfl) hd
  exact ⟨n, hn, s, s', hs, hc, hs', hret⟩

/-- The wake removes the thread after its native wait has timed out: the call reports a timeout,
and the wake is lost. -/
theorem wake_lost_by_timeout : ∃ s s' : State Unit Unit Unit Unit,
    exec (system ⟨8, 32⟩ fun _ => 1) (.initial ⟨8, 32⟩ fun _ => 1)
      (callSteps (.thread ()) (.block () 1) 3 ++ [.tick, .expire (.thread ())] ++
        callSteps (.task ()) (.wakeOne () 5) 1) = some s ∧
    s.mem.hist.removed () = some (.wake () 5) ∧
    s.call (.thread ()) = .blockFinish () 1 0 false 0 ∧
    step ⟨8, 32⟩ s (.step (.thread ())) = some s' ∧
    s'.call (.thread ()) = .done (-ETIMEDOUT) := by
  obtain ⟨s, hs, hr, hc, hnext⟩ := exists_of_exec
    (callSteps (.thread ()) (.block () 1) 3 ++ [.tick, .expire (.thread ())] ++
      callSteps (.task ()) (.wakeOne () 5) 1)
    (M := system ⟨8, 32⟩ fun _ => 1) (s := .initial ⟨8, 32⟩ fun _ => 1)
    (P := fun s : State Unit Unit Unit Unit => s.mem.hist.removed () = some (.wake () 5) ∧
      s.call (.thread ()) = .blockFinish () 1 0 false 0 ∧
      (step ⟨8, 32⟩ s (.step (.thread ()))).any fun s' =>
        s'.call (.thread ()) = .done (-ETIMEDOUT)) (by decide +kernel)
  obtain ⟨s', hs', hret⟩ := (Option.any_eq_true ..).mp hnext
  exact ⟨s, s', hs, hr, hc, hs', of_decide_eq_true hret⟩

end

end HazelOsal.FreeRtos
