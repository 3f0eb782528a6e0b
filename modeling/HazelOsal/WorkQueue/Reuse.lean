import HazelOsal.WorkQueue.CancelSync

/-! # Reuse of a work item

`os_work_cancel_sync` and `os_work_flush` return when they find the item idle. The worker clears
the flags in one critical section and notifies the item after it, so that the item may be idle
with a step of the worker still to come. Nothing else is to come: an idle item is on no list, and
no worker runs it. -/

namespace HazelOsal

open TransitionSystem

variable {Q W T : Type} [DecidableEq Q] [DecidableEq W] [DecidableEq T]

/-- The worker is about to read or write the item, or runs its handler. -/
def WorkerPc.touches (w : W) : WorkerPc Q W → Bool
  | .promoteSubmit d _ p => p.undecided && d = w
  | .promoteNotify d | .run d | .complete d | .notify d => d = w
  | _ => false

/-- The next step of `c` is the test that ends its synchronous wait for `w`, which is idle. -/
def IdleTest (s : State Q W T) (c : Ctx Q T) (w : W) : Prop :=
  (s.mem.work w).flags = .none ∧
    match s.call c with
    | .busyCheck _ w' _ _ => w' = w
    | .flushCheck w' target _ _ _ => w' = w ∧ (s.mem.work w).completionId = target
    | _ => False

/-- The step is not one of a call that submits or schedules `w`. -/
def NotSubmitted (w : W) (s : State Q W T) (a : Act Q W T) : Prop :=
  ∀ c, a = .step c → (s.call c).submits w = false

section
variable {m m' : Mem Q W} {q : Q} {w : W} {p p' : WorkerPc Q W}

omit [DecidableEq Q] in
theorem WorkerPc.touches_eq_false (hitem : p.item ≠ some w) (hnotify : p.notifying ≠ some w)
    (hpromotion : ∀ j, p.promotion ≠ some (w, j)) : p.touches w = false := by
  cases p with
  | run d | complete d => exact decide_eq_false fun he => hitem (congrArg some he)
  | promoteNotify d | notify d => exact decide_eq_false fun he => hnotify (congrArg some he)
  | promoteSubmit d j p =>
    rw [WorkerPc.touches, Bool.and_eq_false_iff, or_iff_not_imp_left]
    intro hu
    have hu : p.undecided = true := by simpa using hu
    exact decide_eq_false fun he => hpromotion j (by rw [WorkerPc.promotion, if_pos hu, he])
  | _ => rfl

omit [DecidableEq Q] in
/-- The converse of what holds of an item that no worker runs. -/
theorem WorkerPc.of_touches_eq_false (h : p.touches w = false) :
    p.notifying ≠ some w ∧ ∀ j, p.promotion ≠ some (w, j) := by
  cases p with
  | promoteNotify d | notify d =>
    exact ⟨fun he => of_decide_eq_false h (Option.some.inj he), fun j hj => by cases hj⟩
  | promoteSubmit d j p =>
    refine ⟨fun he => (by cases he), fun j' hj => ?_⟩
    rw [WorkerPc.promotion] at hj
    split at hj
    case isTrue hu =>
      cases hj
      rw [WorkerPc.touches, hu, Bool.true_and] at h
      exact of_decide_eq_false h rfl
    case isFalse => cases hj
  | _ => exact ⟨fun he => (by cases he), fun j hj => by cases hj⟩

/-- A worker comes to notify an item from its completion, or from the delayed list. -/
theorem workerStep_notifying (h : workerStep m q p = some (m', p'))
    (hp' : p'.notifying = some w) : p = .complete w ∨ w ∈ (m.queue q).delayed := by
  cases p with
  | complete d => cases h; cases hp'; exact .inl rfl
  | promoteLock sampled =>
    simp only [workerStep, osWorkPromoteDelayedCritical] at h
    cases hs : promoteScan (fun d => (m.dwork d).deadline) (UInt32.ofNat sampled)
        (m.queue q).delayed OS_WAIT_FOREVER with
    | mk due timeout =>
      rw [hs] at h
      cases due with
      | none => cases h; cases hp'
      | some d =>
        dsimp only at h
        split at h
        all_goals cases h; cases hp'
        exact .inr (promoteScan_some hs).1
  | promoteSubmit d j p =>
    cases h
    split at hp' <;> cases hp'
  | take timeout sampled =>
    simp only [workerStep] at h
    split at h
    case isTrue => cases h; cases hp'
    case isFalse =>
      split at h
      case h_1 => cases h; cases hp'
      case h_2 => split at h <;> (cases h; cases hp')
  | blocked expiry =>
    obtain ⟨_, -, h⟩ := Option.map_eq_some_iff.mp h
    cases h
    cases hp'
  | pop =>
    cases h
    split at hp' <;> cases hp'
  | notify d =>
    cases h
    split at hp' <;> cases hp'
  | terminated => cases h
  | promote | promoteNotify | run | yield | exitComplete | exitGive | exitSignal =>
    cases h; cases hp'

end

/-! ## A released item -/

/-- No list links `w`, and no worker is about to submit or to notify it. -/
structure Released (w : W) (s : State Q W T) : Prop where
  flags : (s.mem.work w).flags = .none
  workers : ∀ q, (s.worker q).notifying ≠ some w ∧ ∀ j, (s.worker q).promotion ≠ some (w, j)

section
variable {w : W} {s s' t : State Q W T} {a : Act Q W T} {c : Ctx Q T}

theorem Released.step (h : Released w s) (hi : StateInv s) (hok : NotSubmitted w s a)
    (hs : HazelOsal.step s a = some t) : Released w t := by
  obtain ⟨hf, hw⟩ := h
  cases step_effect hs with
  | call => exact ⟨hf, hw⟩
  | @step c m p _ he => exact ⟨he.flags_none hi.mem.toRunInv hf (hok c rfl), hw⟩
  | expire => exact ⟨hf, hw⟩
  | @worker q m p _ hstep he =>
    obtain ⟨hf', hp'⟩ := he.flags_none hi.mem hf (hi.promotes q) (hw q).2
    refine ⟨hf', fun q' => ?_⟩
    rw [State.setWorker_worker]
    split
    case isTrue =>
      refine ⟨fun hn => ?_, hp'⟩
      rcases workerStep_notifying hstep hn with hcomplete | hdelayed
      · -- a worker that completes the item has it as its current one
        have hcur : (s.mem.queue q).current = some w := by rw [← hi.worker, hcomplete]; rfl
        have hrunning := (hi.mem.current q w hcur).1
        rw [hf] at hrunning
        cases hrunning
      · have hdelay := (hi.mem.delay.delayed_of_mem hdelayed).1
        rw [hf] at hdelay
        cases hdelay
    case isFalse => exact hw q'
  | workerExpire =>
    refine ⟨hf, fun q' => ?_⟩
    rw [State.setWorker_worker]
    split
    case isTrue => exact ⟨fun hn => (by cases hn), fun j hj => (by cases hj)⟩
    case isFalse => exact hw q'
  | tick => exact ⟨hf, hw⟩

omit [DecidableEq T] in
theorem Released.untouched (h : Released w s) (hi : StateInv s) (q : Q) :
    (s.worker q).touches w = false := by
  refine WorkerPc.touches_eq_false (fun hitem => ?_) (h.workers q).1 (h.workers q).2
  rw [hi.worker] at hitem
  have hrunning := (hi.mem.current q w hitem).1
  rw [h.flags] at hrunning
  cases hrunning

/-- The test ends the wait, and changes nothing else. -/
theorem IdleTest.step (ht : IdleTest s c w) (hs : HazelOsal.step s (.step c) = some s') :
    (∃ r, s'.call c = .done (.bool r)) ∧ s'.mem = s.mem ∧ s'.worker = s.worker := by
  obtain ⟨hflags, htest⟩ := ht
  have hbusy : osWorkBusyGet s.mem w = .none := by
    rw [osWorkBusyGet]
    split
    · exact hflags
    · rfl
  obtain ⟨⟨m, p⟩, hstep, hs⟩ := Option.map_eq_some_iff.mp hs
  cases hs
  rw [State.setCall_call_self]
  split at htest
  case h_1 hp =>
    subst htest
    rw [hp, callStep, if_pos hbusy] at hstep
    cases hstep
    exact ⟨⟨_, rfl⟩, rfl, rfl⟩
  case h_2 hp =>
    obtain ⟨rfl, hcompletion⟩ := htest
    rw [hp, callStep, if_pos hcompletion] at hstep
    cases hstep
    exact ⟨⟨_, rfl⟩, rfl, rfl⟩
  case h_3 => exact htest.elim

/-- **A synchronous wait releases the item** exactly where it returns while no worker is about to
submit or to notify it. -/
theorem wait_releases_item (h : Reachable (workQueueSystem Q W T) s) (ht : IdleTest s c w)
    (hs : step s (.step c) = some s') :
    (∃ r, s'.call c = .done (.bool r)) ∧
    ((∀ t, Run (workQueueSystem Q W T) (NotSubmitted w) s' t →
        ∀ q, (t.worker q).touches w = false) ↔
      ∀ q, (s.worker q).notifying ≠ some w ∧ ∀ j, (s.worker q).promotion ≠ some (w, j)) := by
  obtain ⟨hret, hmem, hworker⟩ := ht.step hs
  have hstep : (workQueueSystem Q W T).step s (.step c) = some s' := hs
  have hreach : Reachable (workQueueSystem Q W T) s' := h.step trivial hstep
  refine ⟨hret, fun hall q => ?_, fun hworkers t hr => ?_⟩
  · rw [← hworker]
    exact WorkerPc.of_touches_eq_false (hall s' .refl q)
  · have hs' : Released w s' := ⟨hmem ▸ ht.1, hworker ▸ hworkers⟩
    have hrt : Released w t := Run.invariant hreach hs'
      (fun _ _ _ hu hI hok hv => hI.step (stateInv_of_reachable hu) hok hv) hr
    exact hrt.untouched (stateInv_of_reachable (hreach.then hr))

end

/-! ## Concrete runs -/

/-- A thread submits item 0, the worker makes `n` steps, and another thread cancels the item, up to
the test of its wait. -/
def reuseRun (n : Nat) : List (Act Unit Nat Nat) :=
  [Act.call (.thread 0) (.submitToQueue (some ()) 0)] ++ List.replicate 3 (Act.step (.thread 0)) ++
    List.replicate n (Act.worker ()) ++
    [Act.call (.thread 1) (.cancelSync 0)] ++ List.replicate 5 (Act.step (.thread 1))

/-- The worker has notified the item when the test is made. -/
theorem wait_releases_item_notified : ∃ s s' : State Unit Nat Nat,
    exec (workQueueSystem Unit Nat Nat) .initial (reuseRun 7) = some s ∧
    step s (.step (.thread 1)) = some s' ∧
    ∀ t, Run (workQueueSystem Unit Nat Nat) (NotSubmitted 0) s' t →
      ∀ q, (t.worker q).touches 0 = false := by
  refine ⟨_, _, rfl, rfl, ?_⟩
  exact (wait_releases_item (reachable_of_exec (reuseRun 7) State.init_initial rfl)
    (c := .thread 1) ⟨rfl, rfl⟩ rfl).2.mpr
    fun q => ⟨fun hn => (by cases q; cases hn), fun j hj => (by cases q; cases hj)⟩

/-- The worker has cleared the flags, but not yet notified the item, when the test is made:
`os_work_cancel_sync` has returned, no call is in progress, and the worker is about to give the
semaphore of the item. -/
theorem wait_returns_before_notify : ∃ s : State Unit Nat Nat,
    exec (workQueueSystem Unit Nat Nat) .initial (reuseRun 6 ++ [.step (.thread 1)]) = some s ∧
    s.call (.thread 1) = .done (.bool false) ∧ (∀ c, (s.call c).free = true) ∧
    s.worker () = .notify 0 := by
  refine ⟨_, rfl, rfl, fun c => ?_, rfl⟩
  rcases c with t | ⟨t, i⟩ | q
  · rcases t with _ | _ | t <;> rfl
  · rfl
  · rfl

end HazelOsal
