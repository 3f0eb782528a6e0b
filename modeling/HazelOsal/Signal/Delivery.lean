import HazelOsal.Library.Parties
import HazelOsal.Signal.System

/-! # A signal is a mailbox, unless a reset overtakes a wait

As long as no reset runs while a wait is between its take and its critical section, the token of the
semaphore, or the wait that has taken it, stands for the result that is raised, and the signal is a
mailbox for one result. A reset in that gap clears the result but not the token that the wait has
taken: the wait returns a result that nobody has raised, or that of a later raise, whose token is
then left over for another wait. -/

namespace HazelOsal.Signal

open TransitionSystem

variable {T N : Type} [DecidableEq T] [DecidableEq N]

/-- What a signal owes its users in a state. -/
structure Delivers (s : State T N) : Prop where
  /-- Each wait that has succeeded returned the result of a raise of its own, before it, which no
  reset had thrown away before the wait began. -/
  delivered : ∃ f, Delivered s.mem.log f
  token : (∀ c, s.call c ≠ .waitCritical) →
    (0 < s.mem.signal.notification.count ↔ s.mem.signal.raised = true)

/-- `os_signal_reset` does not run its critical section while a wait is between its take and its
critical section. -/
def NoResetInGap (s : State T N) (a : Act T N) : Prop :=
  ∀ c, a = .step c → s.call c = .resetCritical → ∀ d, s.call d ≠ .waitCritical

/-- The result that is raised. -/
def OsSignal.pending (signal : OsSignal) : Option Int :=
  if signal.raised then some signal.result else none

/-- The invariant of a signal. -/
structure SignalInv (s : State T N) : Prop where
  handle : s.mem.signal.notification.handle = true
  legal : exec (mailbox (Caller T N) Int) none s.mem.log = some s.mem.signal.pending
  tokens : Conserved s.mem.signal.notification.count (s.phase Pc.gap) ()
    s.mem.signal.raised.toNat

section
variable {s s' : State T N} {c : Caller T N} {m' : Mem T N} {p' : Pc} {a : Act T N}

omit [DecidableEq T] [DecidableEq N] in
theorem initial_inv (hm : s.mem = .initial) (hcall : ∀ c, s.call c = .idle) : SignalInv s where
  handle := by rw [hm]; rfl
  legal := by rw [hm]; rfl
  tokens := by
    rw [hm]
    exact .of_none fun c => by simp [Callers.phase, hcall, Pc.gap]

/-- A caller that is not in the gap, before and after, leaves the accounts alone. -/
theorem SignalInv.other (h : SignalInv s) (hp : s.phase Pc.gap c = none) (hp' : p'.gap = none) :
    SignalInv (s.set c s.mem p') := by
  refine ⟨h.handle, h.legal, ?_⟩
  rw [Callers.set_phase]
  exact h.tokens.other (by simp [hp]) (by simp [hp'])

/-- The wait of a caller in the gap is for the result that is raised. -/
theorem SignalInv.raised_of_gap (h : SignalInv s) (hc : s.phase Pc.gap c = some ()) :
    s.mem.signal.raised = true := by
  have hlt := h.tokens.lt hc
  cases hr : s.mem.signal.raised with
  | true => rfl
  | false => rw [hr] at hlt; cases hlt

/-- **A step of a call keeps the mailbox**, unless it is a reset that overtakes a wait. -/
theorem SignalInv.callStep (h : SignalInv s) (hok : NoResetInGap s (.step c))
    (hs : callStep c s.mem (s.call c) = some (m', p')) : SignalInv (s.set c m' p') := by
  have he := callStep_effect hs
  generalize hp : s.call c = p at he
  have hgap : s.phase Pc.gap c = p.gap := congrArg Pc.gap hp
  have htokens := h.tokens
  cases he with
  | quiet hnone hnone' => exact h.other (hgap.trans hnone) hnone'
  | wait hnone hnone' =>
    obtain ⟨hhandle, hlegal, htokens⟩ := h.other (c := c) (hgap.trans hnone) hnone'
    exact ⟨hhandle, exec_mailbox_snoc hlegal (mailboxStep_wait _), htokens⟩
  | take hnone ht =>
    obtain ⟨hhandle, htaken⟩ := OsSem.tryTake_eq_some ht
    rw [htaken] at htokens
    refine ⟨hhandle.trans h.handle, h.legal, ?_⟩
    rw [Callers.set_phase]
    exact htokens.take (by simp [hgap, hnone])
  | @raise result _ hr =>
    obtain ⟨hraised, hr⟩ := Option.ite_none_left_eq_some.mp hr
    cases hr
    have hnone : s.mem.signal.raised = false := Bool.eq_false_iff.mpr hraised
    rw [hnone] at htokens
    have hzero : s.mem.signal.notification.count = 0 := Nat.le_zero.mp htokens.le
    have hgive : s.mem.signal.notification.give.count = s.mem.signal.notification.count + 1 := by
      rw [OsSem.give_count_of_handle h.handle, hzero]
      rfl
    refine ⟨(OsSem.give_handle _).trans h.handle, exec_mailbox_snoc h.legal ?_, ?_⟩
    · rw [OsSignal.pending, if_neg hraised]
      rfl
    · have hadd := htokens.add
      rw [← hgive] at hadd
      rw [Callers.set_phase]
      exact hadd.other (by simp [hgap, Pc.gap]) (by simp [Pc.gap])
  | receive =>
    have hraised := h.raised_of_gap hgap
    have huse := htokens.use (b := none) hgap (by simp)
    rw [hraised] at huse
    refine ⟨h.handle, exec_mailbox_snoc h.legal ?_, ?_⟩
    · rw [OsSignal.pending, if_pos hraised]
      exact mailboxStep_deliver
    · rw [Callers.set_phase]
      exact huse
  | reset =>
    have hzero := OsSem.drain_count h.handle (Nat.le_refl _)
    refine ⟨OsSem.drain_handle.trans h.handle, exec_mailbox_snoc h.legal (mailboxStep_reset _), ?_⟩
    rw [Callers.set_mem, osSignalResetCritical, Mem.record, hzero]
    refine .of_none fun d hd => ?_
    rw [Callers.set_phase, Function.update_apply] at hd
    split at hd
    case isTrue => cases hd
    case isFalse => exact hok c rfl hp d (Pc.eq_of_gap hd)

theorem SignalInv.move (h : SignalInv s) (hok : NoResetInGap s a) (hs : program.Move s a s') :
    SignalInv s' := by
  cases hs with
  | @call c op hfree =>
    have hp : s.phase Pc.gap c = none := by
      rw [Callers.phase]
      generalize s.call c = p at hfree
      cases p <;> first | rfl | cases hfree
    exact h.other hp (by cases op <;> rfl)
  | step hstep => exact h.callStep hok hstep
  | expire hexpire =>
    obtain ⟨hp, rfl⟩ := callExpire_eq hexpire
    exact h.other hp rfl
  | event hevent => cases hevent

omit [DecidableEq T] [DecidableEq N] in
theorem SignalInv.delivers (h : SignalInv s) : Delivers s := by
  obtain ⟨f, hf, -⟩ := exists_delivered h.legal
  refine ⟨⟨f, hf⟩, fun hnone => ?_⟩
  rw [h.tokens.eq_of_none fun c hc => hnone c (Pc.eq_of_gap hc)]
  cases s.mem.signal.raised <;> decide

/-- **Where no reset overtakes a wait, a signal delivers each raised result at most once**, and only
raised results. -/
theorem signal_delivers (h : ReachableVia system NoResetInGap s) : Delivers s := by
  have hinv : SignalInv s :=
    Program.invariant (fun s hm hcall => initial_inv hm hcall)
      (fun _ _ _ hi hok hs => hi.move hok hs) h
  exact hinv.delivers

end

/-! ## Concrete runs -/

/-- A result is raised and thrown away, and the next one is waited for. -/
def discardRun {T : Type} (t u : T) : List (Act T Empty) :=
  callSteps (Caller.thread t) (Op.raise 7) 2 ++ callSteps (Caller.thread t) Op.reset 2 ++
    callSteps (Caller.thread t) (Op.raise 8) 2 ++ callSteps (Caller.thread u) (Op.wait 0) 3

/-- No thread is in the gap, or none is about to reset. -/
def noResetInGap (s : State (Fin 2) Empty) (_ : Act (Fin 2) Empty) : Bool :=
  decide ((∀ t : Fin 2, s.call (.thread t) ≠ .waitCritical) ∨
    ∀ t : Fin 2, s.call (.thread t) ≠ .resetCritical)

theorem NoResetInGap.of_noResetInGap {s : State (Fin 2) Empty} {a : Act (Fin 2) Empty}
    (h : noResetInGap s a = true) : NoResetInGap s a := by
  intro c _ hc d
  rcases of_decide_eq_true h with h | h
  · cases d with
    | thread t => exact h t
    | task n | isr n => exact n.elim
  · cases c with
    | thread t => exact absurd hc (h t)
    | task n | isr n => exact n.elim

theorem signal_delivers_discard : ∃ s : State (Fin 2) Empty,
    exec system ⟨.initial, fun _ => .idle⟩ (discardRun 0 1) = some s ∧
    s.call (.thread 1) = .received 8 ∧ Delivers s := by
  obtain ⟨s, hs, hc⟩ := exists_of_exec (discardRun (0 : Fin 2) 1)
    (M := system) (s := ⟨.initial, fun _ => .idle⟩)
    (P := fun s => s.call (.thread 1) = .received 8) (by decide +kernel)
  refine ⟨s, hs, hc, signal_delivers ?_⟩
  exact reachableVia_of_execOk (discardRun 0 1) (fun _ _ => NoResetInGap.of_noResetInGap)
    ⟨rfl, fun _ => rfl⟩ (by decide +kernel) hs

/-- A reset runs between the take and the critical section of a wait, and another result is
raised there. -/
def overtakenRun {T : Type} (t u : T) : List (Act T Empty) :=
  callSteps (Caller.thread t) (Op.raise 7) 2 ++ callSteps (Caller.thread u) (Op.wait 0) 2 ++
    callSteps (Caller.thread t) Op.reset 2 ++ callSteps (Caller.thread t) (Op.raise 8) 2 ++
    [CallAct.step (Caller.thread u)] ++ callSteps (Caller.thread t) (Op.wait 0) 3

/-- The second result is returned twice. -/
theorem not_signal_delivers : ∃ s : State (Fin 2) Empty, Reachable system s ∧
    s.call (.thread 0) = .received 8 ∧ s.call (.thread 1) = .received 8 ∧ ¬ Delivers s := by
  obtain ⟨s, hs, hlog, h₀, h₁⟩ := exists_of_exec (overtakenRun (0 : Fin 2) 1)
    (M := system) (s := ⟨.initial, fun _ => .idle⟩)
    (P := fun s => s.mem.log = [.raise 7, .wait (.thread 1), .reset, .raise 8,
      .deliver (.thread 1) 8, .wait (.thread 0), .deliver (.thread 0) 8] ∧
      s.call (.thread 0) = .received 8 ∧ s.call (.thread 1) = .received 8) (by decide +kernel)
  refine ⟨s, reachable_of_exec (overtakenRun 0 1) ⟨rfl, fun _ => rfl⟩ hs, h₀, h₁, fun h => ?_⟩
  obtain ⟨f, hf⟩ := h.delivered
  rw [hlog] at hf
  -- the only raise of 8 is at position 3
  have honly : ∀ k < 6, ([.raise 7, .wait (.thread 1), .reset, .raise 8, .deliver (.thread 1) 8,
      .wait (.thread 0), .deliver (.thread 0) 8] : List (MailEvent (Caller (Fin 2) Empty) Int))[k]?
      = some (.raise 8) → k = 3 := by decide
  obtain ⟨hlt, hraise⟩ := hf.raised 4 _ _ rfl
  obtain ⟨hlt', hraise'⟩ := hf.raised 6 _ _ rfl
  have hfirst := honly _ (by omega) hraise
  have hsecond := honly _ hlt' hraise'
  exact absurd (hf.injective 4 6 _ _ _ _ rfl rfl (hfirst.trans hsecond.symm)) (by decide)

end HazelOsal.Signal
