import HazelOsal.FreeRtos.Notification

/-! # Leftover notifications

All waits of a thread, for mutexes and on plain queues, share its native notification. Where
nothing removes a thread after its native wait has ended, neither a wake nor an unlock
(`WaitGuard`), no notification outlives the wait it was sent to, and a wait ends by a removal from
its own queue or by its own timeout. -/

namespace HazelOsal.FreeRtos

open TransitionSystem Parking

variable {T M Q N : Type}

def Pc.waitPhase : Pc T M Q → Phase Unit
  | .lockNotifyWait .. | .lockWaiting .. | .blockNotifyWait .. | .blockWaiting .. => .waiting
  | .lockFinish _ _ _ notified | .blockFinish _ _ _ notified _ =>
    .ended (if notified then some () else none)
  | _ => .outside

/-- The removal comes with a notification. -/
def Removal.notifies : Removal M Q → Option Unit
  | .unlock _ | .wake .. => some ()
  | .abort => none

/-- Any wait of a thread as a parked thread; the values of notifications do not matter. -/
def anyWait (v : Slot M Q) (p : Pc T M Q) : Wait Unit :=
  ⟨p.waitPhase, v.waitQ.isSome, v.removed.bind Removal.notifies, v.notification.map fun _ => ()⟩

/-- An unlock that releases a mutex removes only a thread whose native wait has not ended. -/
def PromptUnlock (s : State T M Q N) (a : Act T M Q N) : Prop :=
  ∀ t mu u, a = .step (.thread t) → s.call (.thread t) = .unlockLock mu →
    (s.mem.mutex mu).owner = some t → (s.mem.mutex mu).lockCount = 1 →
    (s.mem.queue (.mutex mu)).head? = some u → (s.call (.thread u)).awaits = true

/-- The timeout fits in `TickType_t`. -/
def Port.fits (port : Port) (timeout : UInt32) : Prop :=
  timeout = OS_WAIT_FOREVER ∨ timeout.toNat < 2 ^ port.tickBits

/-- `os_waitq_block` waits with timeouts that fit. -/
def FittingTimeout (port : Port) (s : State T M Q N) (a : Act T M Q N) : Prop :=
  ∀ t q timeout, a = .step (.thread t) → s.call (.thread t) = .blockLock q timeout →
    port.fits timeout

/-- The check of `PromptUnlock`, whether or not the mutex is released. -/
def promptUnlock (s : State T M Q N) : Act T M Q N → Bool
  | .step c =>
    match s.call c with
    | .unlockLock mu => (s.mem.queue (.mutex mu)).head?.all fun t => (s.call (.thread t)).awaits
    | _ => true
  | _ => true

theorem PromptUnlock.of_promptUnlock {s : State T M Q N} {a : Act T M Q N}
    (h : promptUnlock s a = true) : PromptUnlock s a := by
  rintro t mu u rfl hc - - hu
  simpa [promptUnlock, hc, hu] using h

/-- With ticks of 32 bits every timeout fits. -/
theorem FittingTimeout.of_tickBits {port : Port} {s : State T M Q N} {a : Act T M Q N}
    (h : 32 ≤ port.tickBits) : FittingTimeout port s a :=
  fun _ _ timeout _ _ =>
    .inr (timeout.toNat_lt.trans_le (Nat.pow_le_pow_right Nat.two_pos h))

/-- The guard of the runs in which no notification is left over. -/
structure WaitGuard (port : Port) (s : State T M Q N) (a : Act T M Q N) : Prop where
  deinit : SafeDeinit s a
  wake : PromptWake s a
  unlock : PromptUnlock s a
  fits : FittingTimeout port s a

/-- The check of `WaitGuard`, for a run without `os_mutex_deinit`. -/
def waitGuard (s : State T M Q N) (a : Act T M Q N) : Bool :=
  noDeinit s a && promptWake s a && promptUnlock s a

theorem WaitGuard.of_waitGuard {port : Port} {s : State T M Q N} {a : Act T M Q N}
    (hport : 32 ≤ port.tickBits) (h : waitGuard s a = true) : WaitGuard port s a := by
  simp only [waitGuard, Bool.and_eq_true] at h
  exact ⟨.of_noDeinit h.1.1, .of_promptWake h.1.2, .of_promptUnlock h.2, .of_tickBits hport⟩

variable [DecidableEq T] [DecidableEq M] [DecidableEq Q] [DecidableEq N]

section
variable {port : Port} {prio : T → Int} {s s' : State T M Q N} {a : Act T M Q N} {u : T}
  {v : Slot M Q} {p p' : Pc T M Q}

/-! ## Every wait as a parked thread -/

section
omit [DecidableEq T] [DecidableEq M] [DecidableEq Q]

theorem Pc.waitPhase_of_awaits (h : p.awaits = true) : p.waitPhase = .waiting := by
  cases p <;> first | rfl | cases h

theorem Pc.waitPhase_of_waitsOn_none (h : p.waitsOn = none) : p.waitPhase = .outside := by
  cases p <;> first | rfl | cases h

theorem anyWait_wake {r : Removal M Q} {n : UInt32} (hp : p.awaits = true)
    (hw : v.waitQ ≠ none) (hr : r.notifies = some ()) :
    Parking.Step false (anyWait v p) (anyWait ⟨none, some r, some n⟩ p) := by
  have hphase := Pc.waitPhase_of_awaits hp
  have hwoken : anyWait ⟨none, some r, some n⟩ p = ⟨.waiting, false, some (), some ()⟩ := by
    rw [anyWait, hphase]
    simp [hr]
  rw [hwoken]
  exact .wake hphase (Option.isSome_iff_ne_none.mpr hw)

/-- A step of a thread that belongs to its waits. -/
theorem OwnStep.anyWait {m : Mem T M Q} (h : OwnStep port m u p v p') :
    Parking.Step false (anyWait (m.slot u) p) (anyWait v p') := by
  have hpending {value} (hn : m.notification u = some value) :
      (FreeRtos.anyWait (m.slot u) p).pending = some () := by
    simp [FreeRtos.anyWait, Mem.slot, hn]
  cases h with
  | tried => exact .elsewhere rfl rfl fun _ => rfl
  | enqueued | blocked => exact .join rfl
  | lockTaken hn hp =>
    rcases hp with ⟨_, rfl⟩ | ⟨_, rfl⟩
    all_goals exact .consume rfl (hpending hn)
  | blockTaken hn hp =>
    rcases hp with rfl | ⟨_, rfl⟩
    all_goals exact .consume rfl (hpending hn)
  | lockParked | blockParked => exact .stay
  | abandoned | again | unblocked | returned => exact .leave rfl rfl rfl

omit [DecidableEq N] in
/-- A native wait that times out. -/
theorem callExpire_anyWait {m : Mem T M Q}
    (h : callExpire (.thread u : Caller T N) m p = some p') :
    Parking.Step false (anyWait (m.slot u) p) (anyWait (m.slot u) p') := by
  obtain ⟨_, _, ht, hn, -, hp⟩ := callExpire_cases h
  cases ht
  have hpending : (anyWait (m.slot u) p).pending = none := by simp [anyWait, Mem.slot, hn]
  rcases hp with ⟨_, _, _, rfl, rfl⟩ | ⟨_, _, _, rfl, rfl⟩
  all_goals exact .timeout rfl hpending

omit [DecidableEq N] in
/-- **A step of the system is a step of the parked thread**, which shares its notification with
nothing else. -/
theorem SlotStep.anyWait (h : SlotStep port s a u v p') (hi : SyncInv s)
    (hw : WaitOk (s.mem.slot u) (s.call (.thread u))) (hok : WaitGuard port s a) :
    Parking.Step false (anyWait (s.mem.slot u) (s.call (.thread u))) (anyWait v p') := by
  cases h with
  | other hv =>
    rcases hv with rfl | ⟨c, ha, hv⟩
    · exact .stay
    · have hne {q} (hq : (s.mem.thread u).waitQ = some q) : (s.mem.slot u).waitQ ≠ none := by
        simp [Mem.slot, hq]
      cases hv with
      | same => exact .stay
      | unlock hq hc hp ho hn hh =>
        subst hc
        exact anyWait_wake (hok.unlock _ _ _ ha hp ho hn hh) (hne hq) rfl
      | wake hq hp => exact anyWait_wake (hok.wake _ _ _ _ ha (hi.wakes hq hp)) (hne hq) rfl
      | abort hq =>
        have hdropped : FreeRtos.anyWait ⟨none, some .abort, s.mem.notification u⟩
            (s.call (.thread u)) =
            { FreeRtos.anyWait (s.mem.slot u) (s.call (.thread u)) with queued := false } := by
          simp [FreeRtos.anyWait, Mem.slot, Removal.notifies,
            show s.mem.hist.removed u = none from hw.queued hq]
        rw [hdropped]
        exact .drop (Option.isSome_iff_ne_none.mpr hq)
  | outside hp hp' =>
    exact .elsewhere (Pc.waitPhase_of_waitsOn_none (Pc.waitsOn_of_not_parks hp))
      (Pc.waitPhase_of_waitsOn_none hp') fun _ => rfl
  | own _ h => exact h.anyWait
  | expire _ h => exact callExpire_anyWait h

end

/-- **A notification does not outlive its wait.** -/
theorem clean_of_reachable
    (h : ReachableVia (system port prio : System (State T M Q N) _) (WaitGuard port) s) (t : T) :
    Clean (anyWait (s.mem.slot t) (s.call (.thread t))) := by
  refine h.induction (I := fun s => Clean (anyWait (s.mem.slot t) (s.call (.thread t))))
    (fun s (h : Init port prio s) => ?_) fun s a s' hr hc hok hs => ?_
  · refine .of_outside (by rw [h.call]; rfl) ?_
    rw [anyWait, show (s.mem.slot t).notification = none from h.notification t]
    rfl
  · have hi := syncInv_of_reachable (fun _ _ => WaitGuard.deinit) hr
    have hw := waitOk_of_reachable (fun _ _ => WaitGuard.deinit) hr t
    exact ((step_slot hi hs t).anyWait hi hw hok).clean hc

/-! ## Timeouts -/

/-- The call times out only when its own timeout has elapsed. -/
def Pc.Timed (port : Port) (tick : Nat) : Pc T M Q → Prop
  | .lockNotifyWait _ timeout _ remaining =>
    timeout = OS_WAIT_FOREVER → remaining = OS_WAIT_FOREVER
  | .lockWaiting _ timeout _ expiry => timeout = OS_WAIT_FOREVER → expiry = none
  | .lockFinish _ timeout _ notified => notified = false → timeout ≠ OS_WAIT_FOREVER
  | .blockNotifyWait _ timeout began => port.fits timeout ∧ began ≤ tick
  | .blockWaiting _ timeout began expiry =>
    ∀ e, expiry = some e → timeout ≠ OS_WAIT_FOREVER ∧ began + timeout.toNat ≤ e
  | .blockFinish _ timeout began notified _ =>
    notified = false → timeout ≠ OS_WAIT_FOREVER ∧ began + timeout.toNat ≤ tick
  | _ => True

omit [DecidableEq T] [DecidableEq M] [DecidableEq Q] in
theorem Pc.Timed.mono {tick tick' : Nat} (h : p.Timed port tick) (hle : tick ≤ tick') :
    p.Timed port tick' := by
  cases p with
  | blockNotifyWait => exact ⟨h.1, h.2.trans hle⟩
  | blockFinish => exact fun hn => ⟨(h hn).1, (h hn).2.trans hle⟩
  | _ => exact h

omit [DecidableEq T] [DecidableEq M] [DecidableEq Q] in
theorem Pc.Timed.of_waitsOn_none {tick : Nat} (h : p.waitsOn = none) : p.Timed port tick := by
  cases p <;> first | exact trivial | cases h

theorem Port.expiry_forever (tick : Nat) :
    port.expiry tick (port.ticksToWait OS_WAIT_FOREVER) = none := by
  rw [expiry, ticksToWait, if_pos rfl, if_pos rfl]

/-- A native wait with a timeout that fits does not expire early. -/
theorem Port.le_of_expiry {tick e : Nat} {timeout : UInt32} (hf : port.fits timeout)
    (h : port.expiry tick (port.ticksToWait timeout) = some e) :
    timeout ≠ OS_WAIT_FOREVER ∧ tick + timeout.toNat ≤ e := by
  have hne : timeout ≠ OS_WAIT_FOREVER := by
    rintro rfl
    rw [port.expiry_forever] at h
    cases h
  rw [expiry, ticksToWait, if_neg hne, Nat.mod_eq_of_lt (hf.resolve_left hne)] at h
  obtain ⟨-, h⟩ := Option.ite_none_left_eq_some.mp h
  cases h
  exact ⟨hne, le_rfl⟩

omit [DecidableEq T] [DecidableEq M] [DecidableEq Q] in
theorem OwnStep.timed {m : Mem T M Q} (h : OwnStep port m u p v p') (ht : p.Timed port m.tick)
    (hf : ∀ q timeout, p = .blockLock q timeout → port.fits timeout) : p'.Timed port m.tick := by
  cases h with
  | tried | abandoned | again | unblocked | returned => trivial
  | enqueued hr => exact hr
  | lockTaken | blockTaken => exact fun h => by cases h
  | lockParked =>
    intro he
    rw [ht he]
    exact port.expiry_forever m.tick
  | blocked => exact ⟨hf _ _ rfl, le_rfl⟩
  | blockParked =>
    intro e he
    obtain ⟨hne, hle⟩ := port.le_of_expiry ht.1 he
    exact ⟨hne, (Nat.add_le_add_right ht.2 _).trans hle⟩

omit [DecidableEq T] [DecidableEq M] [DecidableEq Q] [DecidableEq N] in
theorem callExpire_timed {c : Caller T N} {m : Mem T M Q} (h : callExpire c m p = some p')
    (ht : p.Timed port m.tick) : p'.Timed port m.tick := by
  obtain ⟨_, e, -, -, he, ⟨_, _, _, rfl, rfl⟩ | ⟨_, _, _, rfl, rfl⟩⟩ := callExpire_cases h
  · exact fun _ hf => by cases ht hf
  · exact fun _ => ⟨(ht e rfl).1, (ht e rfl).2.trans he⟩

omit [DecidableEq T] [DecidableEq M] [DecidableEq Q] [DecidableEq N] in
theorem SlotStep.timed (h : SlotStep port s a u v p') (hok : WaitGuard port s a)
    (ht : (s.call (.thread u)).Timed port s.mem.tick) : p'.Timed port s.mem.tick := by
  cases h with
  | other => exact ht
  | outside _ hp' => exact .of_waitsOn_none hp'
  | own ha h => exact h.timed ht fun q timeout => hok.fits u q timeout ha
  | expire _ h => exact callExpire_timed h ht

theorem step_tick (hs : step port s a = some s') : s.mem.tick ≤ s'.mem.tick := by
  cases step_cases hs with
  | call | expire => exact le_rfl
  | step _ h => exact (callStep_effect h).tick.ge
  | tick => exact Nat.le_succ _

theorem timed_of_reachable
    (h : ReachableVia (system port prio : System (State T M Q N) _) (WaitGuard port) s) (t : T) :
    (s.call (.thread t)).Timed port s.mem.tick := by
  refine h.induction (I := fun s => (s.call (.thread t)).Timed port s.mem.tick)
    (fun s (h : Init port prio s) => ?_) fun s a s' hr ht hok hs => ?_
  · rw [h.call]; trivial
  · have hi := syncInv_of_reachable (fun _ _ => WaitGuard.deinit) hr
    exact ((step_slot hi hs t).timed hok ht).mono (step_tick hs)

/-! ## What ends a wait -/

/-- The call of `os_waitq_block` that is in progress. -/
def Pc.blocking : Pc T M Q → Option (Q × UInt32)
  | .blockEnter q timeout | .blockLock q timeout | .blockNotifyWait q timeout _
  | .blockWaiting q timeout _ _ | .blockFinish q timeout _ _ _ => some (q, timeout)
  | _ => none

/-- The call of `os_mutex_lock` that is in progress. -/
def Pc.acquiring : Pc T M Q → Option (M × UInt32)
  | .lockEnter mu timeout | .lockStart mu timeout | .lockTry mu timeout _
  | .lockNotifyWait mu timeout _ _ | .lockWaiting mu timeout _ _
  | .lockFinish mu timeout _ _ => some (mu, timeout)
  | _ => none

/-- Of the steps of a thread in `os_waitq_block` only the last critical section returns. -/
theorem blockFinish_of_returns {t : T} {q : Q} {timeout : UInt32} {r : Int}
    (hc : (s.call (.thread t)).blocking = some (q, timeout))
    (hs : step port s (.step (.thread t)) = some s') (hret : s'.call (.thread t) = .done r) :
    ∃ began notified notify,
      s.call (.thread t) = .blockFinish q timeout began notified notify := by
  by_cases hp : (s.call (.thread t)).parks = true
  · have hown := step_own hp hs
    rw [hret] at hown
    generalize s.call (.thread t) = p at hc hown
    generalize s'.mem.slot t = v at hown
    cases hown with
    | tried | abandoned => cases hc
    | unblocked | returned => cases hc; exact ⟨_, _, _, rfl⟩
  · cases step_cases hs with
    | step _ hstep =>
      rw [State.setCall_call, if_pos rfl] at hret
      generalize s.call (.thread t) = p at hc hp hstep
      cases p with
      | blockEnter => cases hstep; cases hret
      | blockLock | blockNotifyWait | blockWaiting | blockFinish => exact absurd rfl hp
      | _ => cases hc

/-- A call of `os_waitq_block` returns after a wake has removed the thread from its queue, or after
its own timeout. -/
theorem block_returns
    (h : ReachableVia (system port prio : System (State T M Q N) _) (WaitGuard port) s) {t : T}
    {q : Q} {timeout : UInt32} {r : Int} (hc : (s.call (.thread t)).blocking = some (q, timeout))
    (hs : step port s (.step (.thread t)) = some s') (hret : s'.call (.thread t) = .done r) :
    (∃ reason, s.mem.hist.removed t = some (.wake q reason)) ∨
      ∃ began notify, s.call (.thread t) = .blockFinish q timeout began false notify ∧
        timeout ≠ OS_WAIT_FOREVER ∧ began + timeout.toNat ≤ s.mem.tick := by
  obtain ⟨began, notified, notify, hp⟩ := blockFinish_of_returns hc hs hret
  cases notified with
  | false =>
    have ht := timed_of_reachable h t
    rw [hp] at ht
    exact .inr ⟨began, notify, hp, ht rfl⟩
  | true =>
    have hclean := clean_of_reachable h t
    have hw := waitOk_of_reachable (fun _ _ => WaitGuard.deinit) h t
    rw [hp] at hclean hw
    have hsent := (hclean.ended (some ()) rfl).2
    have hnone : (s.mem.slot t).waitQ = none := by
      by_contra hne
      rw [hclean.queued (fun h => by cases h) (Option.isSome_iff_ne_none.mpr hne)] at hsent
      cases hsent
    obtain ⟨removal, hr, hfrom⟩ := hw.left _ rfl hnone
    have hr : s.mem.hist.removed t = some removal := hr
    cases removal with
    | unlock => cases hfrom
    | wake _ reason => cases hfrom; exact .inl ⟨reason, hr⟩
    | abort =>
      rw [anyWait, show (s.mem.slot t).removed = _ from hr] at hsent
      cases hsent

/-- A call of `os_mutex_lock` that waits forever returns 0 or `-EDEADLK`. -/
theorem lock_returns
    (h : ReachableVia (system port prio : System (State T M Q N) _) (WaitGuard port) s) {t : T}
    {mu : M} {r : Int} (hc : (s.call (.thread t)).acquiring = some (mu, OS_WAIT_FOREVER))
    (hi : (s.mem.mutex mu).initialized = true)
    (hs : step port s (.step (.thread t)) = some s') (hret : s'.call (.thread t) = .done r) :
    r = 0 ∨ r = -EDEADLK := by
  by_cases hp : (s.call (.thread t)).parks = true
  · have hown := step_own hp hs
    have hclean := clean_of_reachable h t
    have ht := timed_of_reachable h t
    rw [hret] at hown
    generalize s.call (.thread t) = p at hc hown hclean ht
    generalize s'.mem.slot t = v at hown
    cases hown with
    | tried hr => cases hc; exact hr rfl
    | @abandoned mu timeout start notified hw =>
      cases hc
      cases notified with
      | false => exact absurd rfl (ht rfl)
      | true =>
        -- still queued, and yet a notification has ended the wait
        have hsent := (hclean.ended (some ()) rfl).2
        rw [hclean.queued (fun h => by cases h) (Option.isSome_iff_ne_none.mpr hw)] at hsent
        cases hsent
    | unblocked | returned => cases hc
  · cases step_cases hs with
    | step _ hstep =>
      rw [State.setCall_call, if_pos rfl] at hret
      generalize s.call (.thread t) = p at hc hp hstep
      cases p with
      | lockEnter =>
        cases hc
        simp only [callStep, hi, Caller.inIsr, Caller.current] at hstep
        cases hstep
        cases hret
      | lockStart => cases hstep; cases hret
      | lockTry | lockNotifyWait | lockWaiting | lockFinish => exact absurd rfl hp
      | _ => cases hc

end

end HazelOsal.FreeRtos
