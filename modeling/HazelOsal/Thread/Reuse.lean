import HazelOsal.Thread.Reaping

/-! # A joined thread and its object

The exit path of a thread gives its completion semaphore before it sets `completion_signaled` and
ends. A join that takes the token in between returns 0 while the task has still to write to its
object, and so does a delete that comes before the end of the task. If the object is created again
then, the flag of the new incarnation is set by the task of the old one. Where the task ends before
anybody takes its token or deletes it, a thread that has been joined is finished with its object. -/

namespace HazelOsal.Thread

open TransitionSystem

variable {T N : Type} [DecidableEq T] [DecidableEq N]

/-- What who has joined a thread may rely on in a state. -/
structure Finished (backend : Backend) (target : T) (s : State T N) : Prop where
  /-- Where a join or a delete has returned 0 the task has nothing left to do. -/
  ended : ∀ k, s.mem.joined k = true → s.mem.task k = .ended
  signaled : s.mem.object.completionSignaled = true → (s.mem.task s.mem.current).gave = true
  delete : ∀ c t k, s.call c = .deleteBegin →
    (program backend target).act s (.step c) = some t → t.call c = .reap k →
    (s.mem.task s.mem.current).signals = true

/-- No join takes the token and no delete passes its tests while the task is between its give and
its end. -/
def EndsFirst (backend : Backend) (s : State T N) (a : Act T N) : Prop :=
  ∀ c, a = .step c →
    ((∃ k timeout, (s.call c = .joinTake k timeout ∨ s.call c = .joinWaiting k timeout) ∧
        0 < (s.mem.completion (joinSem backend s.mem k)).count) ∨
      s.call c = .deleteBegin ∧ ∃ k, s.mem.object.deleteBegin = .ok k) →
    s.mem.task s.mem.current ≠ .given ∧ s.mem.task s.mem.current ≠ .signaled

/-- Whoever goes on to reap does so after the end of the task. -/
structure EndedInv (s : State T N) : Prop where
  phase : ∀ c phase k, s.phase Pc.phase c = some (phase, k) → phase ≠ .joining →
    s.mem.task s.mem.current = .ended
  reaped : s.mem.object.completionReaped = true → s.mem.task s.mem.current = .ended

section
variable {backend : Backend} {self : T} {s s' : State T N} {c : Caller T N} {m' : Mem}
  {p' : Pc} {a : Act T N} {k : Nat}

theorem Task.eq_ended {task : Task} (hg : task.gave = true) (h : task ≠ .given ∧ task ≠ .signaled) :
    task = .ended := by
  cases task with
  | given => exact absurd rfl h.1
  | signaled => exact absurd rfl h.2
  | ended => rfl
  | _ => cases hg

/-- A step of a caller keeps the order, whether it is that of the caller that reaps or not. -/
theorem EndedInv.set (h : EndedInv s) (ht : m'.task = s.mem.task)
    (hc : m'.current = s.mem.current)
    (hp : ∀ phase j, p'.phase = some (phase, j) → phase ≠ .joining →
      s.mem.task s.mem.current = .ended)
    (hr : m'.object.completionReaped = true → s.mem.task s.mem.current = .ended) :
    EndedInv (s.set c m' p') where
  phase d phase j hd hne := by
    rw [Callers.set_phase, Function.update_apply] at hd
    rw [Callers.set_mem, ht, hc]
    split at hd
    case isTrue => exact hp phase j hd hne
    case isFalse => exact h.phase d phase j hd hne
  reaped hreaped := by
    rw [Callers.set_mem, ht, hc]
    exact hr hreaped

theorem EndedInv.callStep (h : EndedInv s) (hi : ThreadInv s) (hok : EndsFirst backend s (.step c))
    (hs : callStep backend self c s.mem (s.call c) = some (m', p')) :
    EndedInv (s.set c m' p') := by
  have he := callStep_effect hs
  obtain ⟨htask, hcurrent, -⟩ := he.frame
  have hcall := hok c rfl
  generalize hp : s.call c = p at he hcall
  have hphase : s.phase Pc.phase c = p.phase := congrArg Pc.phase hp
  have hsame {q : Pc} (hq : q.phase = p.phase) (phase) (j) (hj : q.phase = some (phase, j))
      (hne : phase ≠ .joining) : s.mem.task s.mem.current = .ended :=
    h.phase c phase j (hphase.trans (hq.symm.trans hj)) hne
  cases he with
  | quiet hp' => exact h.set htask hcurrent (hsame hp') h.reaped
  | zero hp' => exact h.set htask hcurrent (fun _ _ hj => by cases hj) h.reaped
  | joinBegin =>
    refine h.set htask hcurrent (fun _ _ hj hne => ?_) h.reaped
    cases hj
    exact absurd rfl hne
  | deleteBegin hb =>
    obtain ⟨-, -, hbusy⟩ := Object.test_eq_ok hb
    simp only [Bool.or_eq_false_iff, Bool.not_eq_false'] at hbusy
    have hended := Task.eq_ended (hi.task.gave_of_signaled hbusy.1.2) (hcall (.inr ⟨rfl, _, hb⟩))
    exact h.set htask hcurrent (fun _ _ _ _ => hended) h.reaped
  | @take _ k sem hp' hd hw ht =>
    obtain ⟨stage, hst⟩ := hi.agrees
    obtain ⟨timeout, hw⟩ := hw
    have htoken : 0 < (s.mem.completion (joinSem backend s.mem k)).count :=
      (OsSem.tryTake_eq_some ht).2 ▸ Nat.succ_pos _
    have hbetween := hcall (.inl ⟨k, timeout, hw, htoken⟩)
    obtain ⟨rfl, rfl⟩ := hst.eq_held (hphase.trans hp')
    rw [joinSem_current, hst.count rfl] at htoken
    have hgave : (s.mem.task s.mem.current).gave = true := by
      cases hg : (s.mem.task s.mem.current).gave with
      | true => rfl
      | false => rw [hg] at htoken; cases htoken
    exact h.set htask hcurrent (fun _ _ _ _ => Task.eq_ended hgave hbetween) h.reaped
  | abandon => exact h.set htask hcurrent (fun _ _ hj => by cases hj) h.reaped
  | reap k =>
    have hended := h.phase c _ k hphase (by decide)
    exact h.set htask hcurrent (fun _ _ _ _ => hended) fun _ => hended
  | reapDelete k => exact h.set htask hcurrent (fun _ _ hj => by cases hj) h.reaped
  | reapCritical k =>
    have hended := h.phase c _ k hphase (by decide)
    exact h.set htask hcurrent (fun _ _ _ _ => hended) fun _ => hended

theorem EndedInv.move (h : EndedInv s) (hi : ThreadInv s) (hok : EndsFirst backend s a)
    (hs : (program backend self).Move s a s') : EndedInv s' := by
  cases hs with
  | @call c op hfree =>
    refine h.set rfl rfl (fun _ _ hj => ?_) h.reaped
    cases op <;> cases hj
  | step hstep => exact h.callStep hi hok hstep
  | expire hexpire =>
    refine h.set rfl rfl (fun phase j hj hne => ?_) h.reaped
    exact h.phase _ phase j ((callExpire_eq hexpire).1.symm.trans hj) hne
  | @event e m hevent =>
    cases e with
    | task k =>
      -- a task that has ended takes no step
      have hleft : s.mem.task s.mem.current ≠ .ended := by
        obtain rfl := hi.task.eq_current hevent
        intro he
        simp only [program, Thread.event, Mem.taskStep, he] at hevent
        cases hevent
      have hf := taskStep_frame hevent
      refine ⟨fun c phase j hj hne => absurd (h.phase c phase j hj hne) hleft, fun hr => ?_⟩
      exact absurd (h.reaped (hf.completionReaped.symm.trans hr)) hleft
    | create =>
      obtain ⟨hj, hm⟩ := Option.ite_none_right_eq_some.mp hevent
      cases hm
      obtain ⟨stage, hst⟩ := hi.agrees
      have hreaped := hst.joined hj
      refine ⟨fun c phase j hc hne => ?_, fun hr => by cases hr⟩
      obtain ⟨rfl, -⟩ := hst.eq_held hc
      cases hreaped

/-- An object that has been joined is created again after the end of its task. -/
theorem EndedInv.createEnded (h : EndedInv s) (hi : ThreadInv s)
    (hs : (program backend self).Move s a s') : CreateEnded s a := by
  rintro rfl
  obtain ⟨stage, hst⟩ := hi.agrees
  cases hs with
  | event hevent =>
    obtain ⟨hj, -⟩ := Option.ite_none_right_eq_some.mp hevent
    exact h.reaped (hst.completionReaped.trans (hst.joined hj))

theorem EndedInv.finished (h : EndedInv s) (hi : ThreadInv s) : Finished backend self s := by
  obtain ⟨stage, hst⟩ := hi.agrees
  refine ⟨fun k hk => ?_, hi.task.gave_of_signaled, fun c t k hc ht htc => ?_⟩
  · rcases Nat.lt_trichotomy k s.mem.current with hlt | rfl | hlt
    · exact hi.task.earlier k hlt
    · exact h.reaped (hst.completionReaped.trans (hst.joined hk))
    · rw [(hi.delete.later k hlt).2] at hk
      cases hk
  · rw [← hi.task.signaled]
    obtain ⟨⟨m', p'⟩, hstep, rfl⟩ := Option.map_eq_some_iff.mp ht
    rw [Callers.set_call, if_pos rfl] at htc
    subst htc
    rw [hc] at hstep
    cases hb : s.mem.object.deleteBegin with
    | error result => simp [program, Thread.callStep, hb] at hstep
    | ok j =>
      obtain ⟨-, -, hbusy⟩ := Object.test_eq_ok hb
      simp only [Bool.or_eq_false_iff, Bool.not_eq_false'] at hbusy
      exact hbusy.1.2

/-- **Where every task ends before anybody takes its token or deletes it, a thread that has been
joined is finished with its object**, and its next incarnation signals for itself. -/
theorem joined_finished (h : ReachableVia (system backend self) (EndsFirst backend) s) :
    Finished backend self s := by
  have hinv : ThreadInv s ∧ EndedInv s := by
    refine Program.invariant (I := fun s => ThreadInv s ∧ EndedInv s) (fun s hm hcall => ?_)
      (fun s a s' hi hok hs => ?_) h
    · refine ⟨initial_inv hm hcall, fun c _ _ hj => ?_, fun hr => ?_⟩
      · rw [Callers.phase, hcall] at hj
        cases hj
      · rw [hm] at hr
        cases hr
    · exact ⟨hi.1.move (hi.2.createEnded hi.1 hs) hs, hi.2.move hi.1 hok hs⟩
  exact hinv.2.finished hinv.1

end

/-! ## Concrete runs -/

/-- The task ends, is joined, and the next one is deleted when it has signalled. -/
def reusedRun {T : Type} (u : T) : List (Act T Unit) :=
  List.replicate 5 (CallAct.event (Event.task 0)) ++ callSteps (Caller.thread u) (Op.join 0) 5 ++
    [CallAct.event Event.create] ++ List.replicate 5 (CallAct.event (Event.task 1)) ++
    callSteps (Caller.thread u) Op.delete 4

/-- The task is not between its give and its end, or no caller moves. -/
def endsFirst (s : State (Fin 2) Unit) (a : Act (Fin 2) Unit) : Bool :=
  !(a matches .step _) || decide (s.mem.task s.mem.current ≠ .given ∧
    s.mem.task s.mem.current ≠ .signaled)

theorem EndsFirst.of_endsFirst {backend : Backend} {s : State (Fin 2) Unit}
    {a : Act (Fin 2) Unit} (h : endsFirst s a = true) : EndsFirst backend s a := by
  rintro c rfl -
  exact of_decide_eq_true h

theorem joined_finished_reused : ∃ s : State (Fin 2) Unit,
    exec (system .rtThread 0) ⟨.initial, fun _ => .idle⟩ (reusedRun 1) = some s ∧
    s.call (.thread 1) = .done 0 ∧ s.mem.current = 1 ∧ Finished .rtThread 0 s := by
  obtain ⟨s, hs, hu, hc⟩ := exists_of_exec (reusedRun (1 : Fin 2))
    (M := system .rtThread 0) (s := ⟨.initial, fun _ => .idle⟩)
    (P := fun s => s.call (.thread 1) = .done 0 ∧ s.mem.current = 1) (by decide +kernel)
  refine ⟨s, hs, hu, hc, joined_finished ?_⟩
  exact reachableVia_of_execOk (reusedRun 1) (fun _ _ => EndsFirst.of_endsFirst)
    ⟨rfl, fun _ => rfl⟩ (by decide +kernel) hs

/-- A join returns 0 between the give of the task and its end, the object is created again, and the
old task goes on; then the new one completes, and it is deleted before it gives. -/
def overtakenRun {T : Type} (u v : T) : List (Act T Unit) :=
  callSteps (Caller.thread u) (Op.join OS_WAIT_FOREVER) 3 ++
    List.replicate 3 (CallAct.event (Event.task 0)) ++
    List.replicate 3 (CallAct.step (Caller.thread u)) ++
    [CallAct.event Event.create, .event (.task 0)] ++
    List.replicate 2 (CallAct.event (Event.task 1)) ++ callSteps (Caller.thread v) Op.delete 2

/-- The old task has not ended, the flag is set although the new one has not given, and the new one
is reaped. -/
def Overtaken (v : T) (s : State T Unit) : Prop :=
  s.mem.joined 0 = true ∧ s.mem.task 0 = .signaled ∧ s.mem.object.completionSignaled = true ∧
    s.mem.task 1 = .completed ∧ s.call (.thread v) = .reap 1

instance (v : T) (s : State T Unit) : Decidable (Overtaken v s) := by
  unfold Overtaken
  infer_instance

/-- Whatever the backend. -/
theorem not_joined_finished :
    (∃ s : State (Fin 3) Unit, Reachable (system .freeRtos 0) s ∧ Overtaken 2 s ∧
      ¬ Finished .freeRtos 0 s) ∧
    ∃ s : State (Fin 3) Unit, Reachable (system .rtThread 0) s ∧ Overtaken 2 s ∧
      ¬ Finished .rtThread 0 s := by
  have hnot {backend} {s : State (Fin 3) Unit} (ho : Overtaken 2 s) : ¬ Finished backend 0 s := by
    intro hf
    obtain ⟨hjoined, htask, -⟩ := ho
    cases htask.symm.trans (hf.ended 0 hjoined)
  have hrun (backend) : ∃ s : State (Fin 3) Unit,
      exec (system backend 0) ⟨.initial, fun _ => .idle⟩ (overtakenRun 1 2) = some s ∧
        Overtaken 2 s := by
    cases backend <;> exact exists_of_exec (overtakenRun (1 : Fin 3) 2) (by decide +kernel)
  constructor
  · obtain ⟨s, hs, ho⟩ := hrun .freeRtos
    exact ⟨s, reachable_of_exec (overtakenRun 1 2) ⟨rfl, fun _ => rfl⟩ hs, ho, hnot ho⟩
  · obtain ⟨s, hs, ho⟩ := hrun .rtThread
    exact ⟨s, reachable_of_exec (overtakenRun 1 2) ⟨rfl, fun _ => rfl⟩ hs, ho, hnot ho⟩

end HazelOsal.Thread
