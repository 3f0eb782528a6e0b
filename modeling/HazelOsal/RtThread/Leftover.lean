import HazelOsal.FreeRtos.Leftover
import HazelOsal.RtThread.Slot

/-! # Leftover tokens

The semaphore `wait_storage` of a thread outlives its waits, as the native notification does in the
FreeRTOS backend. Where no wake removes a thread after its native wait has ended, no token outlives
the wait it was released for. -/

namespace HazelOsal.RtThread

open TransitionSystem Parking

variable {T Q N : Type} [DecidableEq T] [DecidableEq Q] [DecidableEq N]

/-! ## A wait as a parked thread -/

def Pc.waitPhase : Pc T Q → Phase Unit
  | .blockTake .. | .blockWaiting .. => .waiting
  | .blockFinish _ _ _ result => .ended (if result = RT_EOK then some () else none)
  | _ => .outside

/-- The removal comes with a token. -/
def Removal.notifies : Removal Q → Option Unit
  | .wake .. => some ()
  | .abort => none

/-- A token, if there is one. -/
def token (sem : Counting 1) : Option Unit := if sem.count = 0 then none else some ()

/-- The wait of a thread as a parked thread. -/
def blockWait (v : Slot Q) (p : Pc T Q) : Wait Unit :=
  ⟨p.waitPhase, v.waitQ.isSome, v.removed.bind Removal.notifies, token v.waitStorage⟩

/-- `os_waitq_wake_one` and `os_waitq_wake_all` remove only threads whose native wait has not
ended. -/
def PromptWake (s : State T Q N) (a : Act T Q N) : Prop :=
  ∀ c q reason t, a = .step c →
    (s.call c = .wakeOneLock q reason ∧ (s.mem.queue q).head? = some t ∨
      s.call c = .wakeAllLock q reason ∧ t ∈ s.mem.queue q) →
    ∀ q timeout began result, s.call (.thread t) ≠ .blockFinish q timeout began result

/-- The native wait of a thread that is at `p` has ended. -/
def Pc.ended : Pc T Q → Bool
  | .blockFinish .. => true
  | _ => false

/-- The check of `PromptWake`. -/
def promptWake (s : State T Q N) : Act T Q N → Bool
  | .step c =>
    match s.call c with
    | .wakeOneLock q _ => (s.mem.queue q).head?.all fun t => !(s.call (.thread t)).ended
    | .wakeAllLock q _ => (s.mem.queue q).all fun t => !(s.call (.thread t)).ended
    | _ => true
  | _ => true

section
variable {port : Port} {prio : T → Int} {s s' : State T Q N} {a : Act T Q N} {c : Caller T N}
  {m m' : Mem T Q} {p p' : Pc T Q} {t u : T} {v : Slot Q} {tick : Nat} {timeout : UInt32}

omit [DecidableEq T] [DecidableEq Q] [DecidableEq N] in
theorem PromptWake.of_promptWake (h : promptWake s a = true) : PromptWake s a := by
  rintro c q reason t rfl hw q' timeout began result hc
  have hended : (s.call (.thread t)).ended = true := by rw [hc]; rfl
  rcases hw with ⟨hwake, ht⟩ | ⟨hwake, ht⟩
  · simp [promptWake, hwake, ht, hended] at h
  · simp only [promptWake, hwake, List.all_eq_true] at h
    simpa [hended] using h t ht

@[simp] theorem token_give (sem : Counting 1) : token sem.give = some () :=
  if_neg (Nat.ne_of_gt (Counting.give_pos Nat.one_pos sem))

theorem token_take {sem sem' : Counting 1} (h : sem.take? = some sem') :
    token sem = some () ∧ token sem' = none := by
  have hcount := Counting.take?_eq_some h
  have hbound := sem.bounded
  exact ⟨if_neg (by omega), if_pos (by omega)⟩

theorem token_eq_none {sem : Counting 1} (h : sem.take? = none) : token sem = none :=
  if_pos (Counting.take?_eq_none h)

omit [DecidableEq T] [DecidableEq Q] in
theorem Pc.waitPhase_of_waitsOn_none (h : p.waitsOn = none) : p.waitPhase = .outside := by
  cases p <;> first | rfl | cases h

omit [DecidableEq T] [DecidableEq Q] in
theorem Pc.waitPhase_of_waitsOn {q : Q} (h : p.waitsOn = some q)
    (hp : ∀ q timeout began result, p ≠ .blockFinish q timeout began result) :
    p.waitPhase = .waiting := by
  cases p with
  | blockTake | blockWaiting => rfl
  | blockFinish => exact absurd rfl (hp _ _ _ _)
  | _ => cases h

omit [DecidableEq T] [DecidableEq Q] in
theorem OwnStep.blockWait (h : OwnStep m u p v p') :
    Parking.Step false (blockWait (m.slot u) p) (blockWait v p') := by
  cases h with
  | blocked => exact .join rfl
  | @taken sem p q timeout began hn hp =>
    obtain ⟨hv, hv'⟩ := token_take hn
    have htaken : RtThread.blockWait { m.slot u with waitStorage := sem }
        (.blockFinish q timeout began RT_EOK : Pc T Q) =
        ⟨.ended (some ()), (m.slot u).waitQ.isSome, (m.slot u).removed.bind Removal.notifies,
          none⟩ := by
      rw [RtThread.blockWait, hv']; rfl
    rw [htaken]
    rcases hp with rfl | ⟨_, rfl⟩
    all_goals exact .consume rfl hv
  | refused hn => exact .timeout rfl (token_eq_none hn)
  | parked => exact .stay
  | unblocked | returned => exact .leave rfl rfl rfl

omit [DecidableEq T] [DecidableEq Q] [DecidableEq N] in
theorem callExpire_blockWait (h : callExpire (.thread u : Caller T N) m p = some p') :
    Parking.Step false (blockWait (m.slot u) p) (blockWait (m.slot u) p') := by
  obtain ⟨_, _, _, _, _, ht, hn, -, rfl, rfl⟩ := callExpire_cases h
  cases ht
  exact .timeout rfl (if_pos hn)

omit [DecidableEq T] [DecidableEq Q] [DecidableEq N] in
/-- **A step of the system is a step of the parked thread**, which shares its token with nothing
else. -/
theorem SlotStep.blockWait (h : SlotStep s a u v p') (hi : WaitInv s) (hok : PromptWake s a) :
    Parking.Step false (blockWait (s.mem.slot u) (s.call (.thread u))) (blockWait v p') := by
  have hw := hi.waits u
  cases h with
  | other hv =>
    rcases hv with rfl | ⟨c, ha, hv⟩
    · exact .stay
    · cases hv with
      | same => exact .stay
      | @wake q reason hq hp =>
        have hphase := Pc.waitPhase_of_waitsOn (hw.calls q hq) (hok c q reason u ha
          (hp.imp_right fun hp => ⟨hp, (hi.queues.mem u q).mpr hq⟩))
        have hwoken : RtThread.blockWait ⟨none, some (.wake q reason), (s.mem.waitStorage u).give⟩
            (s.call (.thread u)) = ⟨.waiting, false, some (), some ()⟩ := by
          rw [RtThread.blockWait, hphase, token_give]; rfl
        rw [hwoken]
        exact .wake hphase (Option.isSome_iff_ne_none.mpr (by simp [Mem.slot, hq]))
      | abort hq =>
        have hdropped : RtThread.blockWait ⟨none, some .abort, s.mem.waitStorage u⟩
            (s.call (.thread u)) =
            { RtThread.blockWait (s.mem.slot u) (s.call (.thread u)) with queued := false } := by
          simp [RtThread.blockWait, Mem.slot, Removal.notifies,
            show s.mem.removed u = none from hw.queued hq]
        rw [hdropped]
        exact .drop (Option.isSome_iff_ne_none.mpr hq)
  | outside hp hp' =>
    exact .elsewhere (Pc.waitPhase_of_waitsOn_none (Pc.waitsOn_of_not_parks hp))
      (Pc.waitPhase_of_waitsOn_none hp') fun _ => rfl
  | own h => exact h.blockWait
  | expire h => exact callExpire_blockWait h

/-- **A token does not outlive its wait.** -/
theorem clean_of_reachable
    (h : ReachableVia (system port prio : System (State T Q N) _) PromptWake s) (t : T) :
    Clean (blockWait (s.mem.slot t) (s.call (.thread t))) := by
  refine h.induction (I := fun s => Clean (RtThread.blockWait (s.mem.slot t) (s.call (.thread t))))
    (fun s (h : Init port prio s) => ?_) fun s a s' hr hc hok hs => ?_
  · refine .of_outside (by rw [h.call]; rfl) ?_
    rw [blockWait, show (s.mem.slot t).waitStorage = .zero from h.waitStorage t]
    rfl
  · have hi := waitInv_of_reachable hr
    exact ((step_slot hi hs t).blockWait hi hok).clean hc

/-! ## Timeouts -/

/-- The call times out only when its own timeout has elapsed. -/
def Pc.Timed (tick : Nat) : Pc T Q → Prop
  | .blockTake _ _ began => began ≤ tick
  | .blockWaiting _ timeout began expiry =>
    ∀ e, expiry = some e → timeout ≠ OS_WAIT_FOREVER ∧ began + timeout.toNat ≤ e
  | .blockFinish _ timeout began result =>
    result ≠ RT_EOK → timeout ≠ OS_WAIT_FOREVER ∧ began + timeout.toNat ≤ tick
  | _ => True

omit [DecidableEq T] [DecidableEq Q] in
theorem Pc.Timed.mono {tick' : Nat} (h : p.Timed tick) (hle : tick ≤ tick') : p.Timed tick' := by
  cases p with
  | blockTake => exact Nat.le_trans h hle
  | blockFinish => exact fun hn => ⟨(h hn).1, (h hn).2.trans hle⟩
  | _ => exact h

omit [DecidableEq T] [DecidableEq Q] in
theorem Pc.Timed.of_waitsOn_none (h : p.waitsOn = none) : p.Timed tick := by
  cases p <;> first | exact trivial | cases h

/-- Only a timeout of 0 is refused at once. -/
theorem eq_zero_of_osToRtTimeout (h : osToRtTimeout timeout = 0) : timeout = 0 := by
  rw [osToRtTimeout] at h
  split at h
  case isTrue => cases h
  case isFalse => exact congrArg Int32.toUInt32 h

/-- A native wait does not expire early. -/
theorem le_of_expiry {e : Nat} (h : expiry tick (osToRtTimeout timeout) = some e) :
    timeout ≠ OS_WAIT_FOREVER ∧ tick + timeout.toNat ≤ e := by
  obtain ⟨hpos, h⟩ := Option.ite_none_right_eq_some.mp h
  cases h
  rw [osToRtTimeout] at hpos ⊢
  split at hpos
  case isTrue => exact absurd hpos (by decide)
  case isFalse hne =>
    refine ⟨hne, ?_⟩
    rw [if_neg hne]
    have htoInt : timeout.toInt32.toInt = timeout.toNat :=
      BitVec.toInt_eq_toNat_of_lt (BitVec.toInt_pos_iff.mp hpos.le)
    omega

omit [DecidableEq T] [DecidableEq Q] in
theorem OwnStep.timed (h : OwnStep m u p v p') (ht : p.Timed m.tick) : p'.Timed m.tick := by
  cases h with
  | blocked => exact Nat.le_refl _
  | taken => exact fun hr => absurd rfl hr
  | @refused q timeout began hn hz =>
    intro _
    rw [eq_zero_of_osToRtTimeout hz]
    exact ⟨by decide, ht⟩
  | parked =>
    intro e he
    obtain ⟨hne, hle⟩ := le_of_expiry he
    exact ⟨hne, (Nat.add_le_add_right ht _).trans hle⟩
  | unblocked | returned => trivial

omit [DecidableEq T] [DecidableEq Q] [DecidableEq N] in
theorem callExpire_timed (h : callExpire c m p = some p') (ht : p.Timed m.tick) :
    p'.Timed m.tick := by
  obtain ⟨_, _, _, _, e, -, -, he, rfl, rfl⟩ := callExpire_cases h
  exact fun _ => ⟨(ht e rfl).1, (ht e rfl).2.trans he⟩

omit [DecidableEq T] [DecidableEq Q] [DecidableEq N] in
theorem SlotStep.timed (h : SlotStep s a u v p') (ht : (s.call (.thread u)).Timed s.mem.tick) :
    p'.Timed s.mem.tick := by
  cases h with
  | other => exact ht
  | outside _ hp' => exact .of_waitsOn_none hp'
  | own h => exact h.timed ht
  | expire h => exact callExpire_timed h ht

theorem waitqWakeHead_tick {q : Q} {reason : UInt32} :
    (osWaitqWakeHead m q reason).tick = m.tick := by
  rw [osWaitqWakeHead]
  split <;> rfl

omit [DecidableEq Q] in
theorem waitqBlockFinish_tick {result : Int} :
    (osWaitqBlockFinish m t result).1.tick = m.tick := by
  rw [osWaitqBlockFinish]
  split <;> rfl

omit [DecidableEq Q] in
theorem threadAbortCritical_tick : (osThreadAbortCritical m t).1.tick = m.tick := by
  rw [osThreadAbortCritical, osThreadAbortDequeue]
  split
  · rfl
  · split <;> rfl

omit [DecidableEq N] in
/-- The steps of a call take no time. -/
theorem callStep_tick (h : callStep port c m p = some (m', p')) : m'.tick = m.tick := by
  cases p with
  | idle | done => cases h
  | blockEnter | abortEnter | setPriorityEnter =>
    simp only [callStep] at h
    repeat' split at h
    all_goals cases h; rfl
  | blockLock | exitComplete | exitGive | exitSignal | exitNative =>
    obtain ⟨t, -, h⟩ := Option.map_eq_some_iff.mp h
    cases h
    rfl
  | blockTake =>
    obtain ⟨t, -, h⟩ := Option.map_eq_some_iff.mp h
    split at h
    case h_1 => cases h; rfl
    case h_2 => split at h <;> cases h <;> rfl
  | blockWaiting =>
    obtain ⟨t, -, h⟩ := Option.bind_eq_some_iff.mp h
    obtain ⟨sem, -, h⟩ := Option.map_eq_some_iff.mp h
    cases h
    rfl
  | blockFinish =>
    obtain ⟨t, -, h⟩ := Option.map_eq_some_iff.mp h
    cases h
    exact waitqBlockFinish_tick
  | wakeOneLock => cases h; exact waitqWakeHead_tick
  | wakeAllLock q reason =>
    cases h
    exact wakeAll_induction (P := fun m' => m'.tick = m.tick) rfl
      fun _ h => waitqWakeHead_tick.trans h
  | setPriorityLock =>
    cases h
    rw [osThreadSetPriorityRequeue]
    split <;> rfl
  | abortLock =>
    cases h
    exact threadAbortCritical_tick
  | setPriorityBase | setPriorityControl | abortDetach | abortRestore | abortGive
  | abortSignal => cases h; rfl

theorem step_tick (hs : step port s a = some s') : s.mem.tick ≤ s'.mem.tick := by
  cases step_cases hs with
  | call | expire | fail | inherit => exact Nat.le_refl _
  | step h => exact (callStep_tick h).ge
  | tick => exact Nat.le_succ _

theorem timed_of_reachable {ok : State T Q N → Act T Q N → Prop}
    (h : ReachableVia (system port prio : System (State T Q N) _) ok s) (t : T) :
    (s.call (.thread t)).Timed s.mem.tick := by
  refine h.induction (I := fun s => (s.call (.thread t)).Timed s.mem.tick)
    (fun s (h : Init port prio s) => ?_) fun s a s' hr ht _ hs => ?_
  · rw [h.call]; trivial
  · exact ((step_slot (waitInv_of_reachable hr) hs t).timed ht).mono (step_tick hs)

/-! ## What ends a wait -/

/-- The call of `os_waitq_block` that is in progress. -/
def Pc.blocking : Pc T Q → Option (Q × UInt32)
  | .blockEnter q timeout | .blockLock q timeout | .blockTake q timeout _
  | .blockWaiting q timeout _ _ | .blockFinish q timeout _ _ => some (q, timeout)
  | _ => none

/-- Of the steps of a thread in `os_waitq_block` only the last critical section returns. -/
theorem blockFinish_of_returns {q : Q} {r : Int}
    (hc : (s.call (.thread t)).blocking = some (q, timeout))
    (hs : step port s (.step (.thread t)) = some s') (hret : s'.call (.thread t) = .done r) :
    ∃ began result, s.call (.thread t) = .blockFinish q timeout began result := by
  cases step_cases hs with
  | @step _ m' _ hstep =>
    rw [State.setCall_call, if_pos rfl] at hret
    generalize s.call (.thread t) = p at hc hstep
    by_cases hp : p.parks = true
    · have hown := callStep_ownStep hstep hp
      rw [hret] at hown
      generalize m'.slot t = v at hown
      cases hown with
      | unblocked | returned => cases hc; exact ⟨_, _, rfl⟩
    · cases p with
      | blockEnter => cases hstep; cases hret
      | blockLock | blockTake | blockWaiting | blockFinish => exact absurd rfl hp
      | _ => cases hc

/-- A call of `os_waitq_block` returns after a wake has removed the thread from its queue, or after
its own timeout. -/
theorem block_returns
    (h : ReachableVia (system port prio : System (State T Q N) _) PromptWake s) {q : Q} {r : Int}
    (hc : (s.call (.thread t)).blocking = some (q, timeout))
    (hs : step port s (.step (.thread t)) = some s') (hret : s'.call (.thread t) = .done r) :
    (∃ reason, s.mem.removed t = some (.wake q reason)) ∨
      ∃ began result, s.call (.thread t) = .blockFinish q timeout began result ∧
        timeout ≠ OS_WAIT_FOREVER ∧ began + timeout.toNat ≤ s.mem.tick := by
  obtain ⟨began, result, hp⟩ := blockFinish_of_returns hc hs hret
  by_cases hr : result = RT_EOK
  · subst hr
    have hclean := clean_of_reachable h t
    have hw := (waitInv_of_reachable h).waits t
    rw [hp] at hclean hw
    have hsent := (hclean.ended (some ()) rfl).2
    have hnone : (s.mem.slot t).waitQ = none := by
      by_contra hne
      rw [hclean.queued (fun h => by cases h) (Option.isSome_iff_ne_none.mpr hne)] at hsent
      cases hsent
    obtain ⟨removal, hr, hfrom⟩ := hw.left _ rfl hnone
    have hr : s.mem.removed t = some removal := hr
    cases removal with
    | wake _ reason => cases hfrom; exact .inl ⟨reason, hr⟩
    | abort =>
      rw [blockWait, show (s.mem.slot t).removed = _ from hr] at hsent
      cases hsent
  · have ht := timed_of_reachable h t
    rw [hp] at ht
    exact .inr ⟨began, result, hp, ht hr⟩

end

end HazelOsal.RtThread

namespace HazelOsal

open TransitionSystem

section
variable {T M Q N : Type} [DecidableEq T] [DecidableEq M] [DecidableEq Q] [DecidableEq N]
  {port₁ : FreeRtos.Port} {port₂ : RtThread.Port} {prio₁ prio₂ : T → Int}
  {s₁ s₁' : FreeRtos.State T M Q N} {s₂ s₂' : RtThread.State T Q N}

/-- **No wait is ended by a leftover notification**, where nothing removes a thread after its native
wait has ended. In both backends a call of `os_waitq_block` returns after a wake has removed the
thread from its queue or after its own timeout, and in the FreeRTOS backend a call of
`os_mutex_lock` that waits forever returns 0 or `-EDEADLK`. -/
theorem waits_end_by_own_wake
    (h₁ : ReachableVia (FreeRtos.system port₁ prio₁ : System (FreeRtos.State T M Q N) _)
      (FreeRtos.WaitGuard port₁) s₁)
    (h₂ : ReachableVia (RtThread.system port₂ prio₂ : System (RtThread.State T Q N) _)
      RtThread.PromptWake s₂) (t : T) (r : Int) :
    (∀ s', FreeRtos.step port₁ s₁ (.step (.thread t)) = some s' →
      s'.call (.thread t) = .done r →
        (∀ q timeout, (s₁.call (.thread t)).blocking = some (q, timeout) →
          (∃ reason, s₁.mem.hist.removed t = some (.wake q reason)) ∨
            ∃ began notify, s₁.call (.thread t) = .blockFinish q timeout began false notify ∧
              timeout ≠ OS_WAIT_FOREVER ∧ began + timeout.toNat ≤ s₁.mem.tick) ∧
        ∀ mu, (s₁.call (.thread t)).acquiring = some (mu, OS_WAIT_FOREVER) →
          (s₁.mem.mutex mu).initialized = true → r = 0 ∨ r = -EDEADLK) ∧
    ∀ s', RtThread.step port₂ s₂ (.step (.thread t)) = some s' → s'.call (.thread t) = .done r →
      ∀ q timeout, (s₂.call (.thread t)).blocking = some (q, timeout) →
        (∃ reason, s₂.mem.removed t = some (.wake q reason)) ∨
          ∃ began result, s₂.call (.thread t) = .blockFinish q timeout began result ∧
            timeout ≠ OS_WAIT_FOREVER ∧ began + timeout.toNat ≤ s₂.mem.tick :=
  ⟨fun _ hs hret => ⟨fun _ _ hc => FreeRtos.block_returns h₁ hc hs hret,
    fun _ hc hi => FreeRtos.lock_returns h₁ hc hi hs hret⟩,
    fun _ hs hret _ _ hc => RtThread.block_returns h₂ hc hs hret⟩

end

/-! ## Runs after a timed wait -/

namespace FreeRtos

/-- A wait of thread 0 with timeout 1 that has timed out natively; `as` is what happens before its
second critical section. -/
def timedOut (as : List (Act (Fin 2) Unit Unit Unit)) : List (Act (Fin 2) Unit Unit Unit) :=
  callSteps (.thread 0) (.block () 1) 3 ++ [Act.tick, .expire (.thread 0)] ++ as ++
    [Act.step (.thread 0)]

/-- Thread 0 waits again, without a timeout, up to its native wait. -/
def waitAgain : List (Act (Fin 2) Unit Unit Unit) :=
  callSteps (.thread 0) (.block () OS_WAIT_FOREVER) 3

end FreeRtos

namespace RtThread

/-- A wait of thread 0 with timeout 1 that has timed out natively; `as` is what happens before its
second critical section. -/
def timedOut (as : List (Act (Fin 2) Unit Unit)) : List (Act (Fin 2) Unit Unit) :=
  callSteps (.thread 0) (.block () 1) 3 ++ [Act.tick, .expire (.thread 0)] ++ as ++
    [Act.step (.thread 0)]

/-- Thread 0 waits again, without a timeout, up to its native wait. -/
def waitAgain : List (Act (Fin 2) Unit Unit) := callSteps (.thread 0) (.block () OS_WAIT_FOREVER) 3

end RtThread

theorem waits_end_by_own_wake_again :
    ∃ (s₁ : FreeRtos.State (Fin 2) Unit Unit Unit) (s₂ : RtThread.State (Fin 2) Unit Unit),
      exec (FreeRtos.system ⟨8, 32⟩ fun _ => 1) (.initial ⟨8, 32⟩ fun _ => 1)
        (FreeRtos.timedOut [] ++ FreeRtos.waitAgain ++
          FreeRtos.callSteps (.task ()) (.wakeOne () 5) 1 ++ [.step (.thread 0)]) = some s₁ ∧
      exec (RtThread.system ⟨8⟩ fun _ => 1) (.initial ⟨8⟩ fun _ => 1)
        (RtThread.timedOut [] ++ RtThread.waitAgain ++
          RtThread.callSteps (.task ()) (.wakeOne () 5) 1 ++ [.step (.thread 0)]) = some s₂ ∧
      (∃ reason, s₁.mem.hist.removed 0 = some (.wake () reason)) ∧
      ∃ reason, s₂.mem.removed 0 = some (.wake () reason) := by
  obtain ⟨s₁, hs₁, hc₁, hnext₁⟩ := exists_of_exec
    (FreeRtos.timedOut [] ++ FreeRtos.waitAgain ++
      FreeRtos.callSteps (.task ()) (.wakeOne () 5) 1 ++ [.step (.thread 0)])
    (M := FreeRtos.system ⟨8, 32⟩ fun _ => 1) (s := .initial ⟨8, 32⟩ fun _ => 1)
    (P := fun s : FreeRtos.State (Fin 2) Unit Unit Unit =>
      s.call (.thread 0) = .blockFinish () OS_WAIT_FOREVER 1 true 5 ∧
      (FreeRtos.step ⟨8, 32⟩ s (.step (.thread 0))).any fun s' =>
        s'.call (.thread 0) = .done 5) (by decide +kernel)
  obtain ⟨s₂, hs₂, hc₂, hnext₂⟩ := exists_of_exec
    (RtThread.timedOut [] ++ RtThread.waitAgain ++
      RtThread.callSteps (.task ()) (.wakeOne () 5) 1 ++ [.step (.thread 0)])
    (M := RtThread.system ⟨8⟩ fun _ => 1) (s := .initial ⟨8⟩ fun _ => 1)
    (P := fun s : RtThread.State (Fin 2) Unit Unit =>
      s.call (.thread 0) = .blockFinish () OS_WAIT_FOREVER 1 0 ∧
      (RtThread.step ⟨8⟩ s (.step (.thread 0))).any fun s' =>
        s'.call (.thread 0) = .done 5) (by decide +kernel)
  obtain ⟨s₁', hs₁', hret₁⟩ := (Option.any_eq_true ..).mp hnext₁
  obtain ⟨s₂', hs₂', hret₂⟩ := (Option.any_eq_true ..).mp hnext₂
  obtain ⟨hwait₁, hwait₂⟩ := waits_end_by_own_wake
    (reachableVia_of_execOk _ (fun _ _ => FreeRtos.WaitGuard.of_waitGuard (Nat.le_refl 32))
      (FreeRtos.State.init_initial ⟨8, 32⟩ fun _ => 1) (by decide +kernel) hs₁)
    (reachableVia_of_execOk _ (fun _ _ => RtThread.PromptWake.of_promptWake)
      (RtThread.State.init_initial ⟨8⟩ fun _ => 1) (by decide +kernel) hs₂) 0 5
  refine ⟨s₁, s₂, hs₁, hs₂, ?_, ?_⟩
  · obtain hwoken | ⟨_, _, -, hne, -⟩ := (hwait₁ s₁' hs₁' (of_decide_eq_true hret₁)).1 ()
      OS_WAIT_FOREVER (by rw [hc₁]; rfl)
    · exact hwoken
    · exact absurd rfl hne
  · obtain hwoken | ⟨_, _, -, hne, -⟩ := hwait₂ s₂' hs₂' (of_decide_eq_true hret₂) ()
      OS_WAIT_FOREVER (by rw [hc₂]; rfl)
    · exact hwoken
    · exact absurd rfl hne

/-- A wake that removes thread 0 after its native wait has timed out leaves a notification, or a
token. The next wait of the thread, which has no timeout, ends by it at once: `os_waitq_block`
returns although nothing has removed the thread, and `os_mutex_lock` returns `-EAGAIN`. -/
theorem waits_ended_by_leftover :
    (∃ s s' : FreeRtos.State (Fin 2) Unit Unit Unit,
      exec (FreeRtos.system ⟨8, 32⟩ fun _ => 1) (.initial ⟨8, 32⟩ fun _ => 1)
        (FreeRtos.timedOut (FreeRtos.callSteps (.task ()) (.wakeOne () 5) 1) ++
          FreeRtos.waitAgain) = some s ∧
      s.mem.hist.removed 0 = none ∧
      s.call (.thread 0) = .blockFinish () OS_WAIT_FOREVER 1 true 5 ∧
      FreeRtos.step ⟨8, 32⟩ s (.step (.thread 0)) = some s' ∧
      s'.call (.thread 0) = .done (-ETIMEDOUT)) ∧
    (∃ s : FreeRtos.State (Fin 2) Unit Unit Unit,
      exec (FreeRtos.system ⟨8, 32⟩ fun _ => 1) (.initial ⟨8, 32⟩ fun _ => 1)
        (FreeRtos.callSteps (.thread 1) (.lock () OS_WAIT_FOREVER) 3 ++
          FreeRtos.timedOut (FreeRtos.callSteps (.task ()) (.wakeOne () 5) 1) ++
          FreeRtos.callSteps (.thread 0) (.lock () OS_WAIT_FOREVER) 5) = some s ∧
      (s.mem.mutex ()).initialized = true ∧ s.call (.thread 0) = .done (-EAGAIN)) ∧
    ∃ s s' : RtThread.State (Fin 2) Unit Unit,
      exec (RtThread.system ⟨8⟩ fun _ => 1) (.initial ⟨8⟩ fun _ => 1)
        (RtThread.timedOut (RtThread.callSteps (.task ()) (.wakeOne () 5) 1) ++
          RtThread.waitAgain) = some s ∧
      s.mem.removed 0 = none ∧
      s.call (.thread 0) = .blockFinish () OS_WAIT_FOREVER 1 0 ∧
      RtThread.step ⟨8⟩ s (.step (.thread 0)) = some s' ∧
      s'.call (.thread 0) = .done (-EAGAIN) := by
  refine ⟨?_, exists_of_exec _ (by decide +kernel), ?_⟩
  · obtain ⟨s, hs, hr, hc, hnext⟩ := exists_of_exec
      (FreeRtos.timedOut (FreeRtos.callSteps (.task ()) (.wakeOne () 5) 1) ++ FreeRtos.waitAgain)
      (M := FreeRtos.system ⟨8, 32⟩ fun _ => 1) (s := .initial ⟨8, 32⟩ fun _ => 1)
      (P := fun s : FreeRtos.State (Fin 2) Unit Unit Unit => s.mem.hist.removed 0 = none ∧
        s.call (.thread 0) = .blockFinish () OS_WAIT_FOREVER 1 true 5 ∧
        (FreeRtos.step ⟨8, 32⟩ s (.step (.thread 0))).any fun s' =>
          s'.call (.thread 0) = .done (-ETIMEDOUT)) (by decide +kernel)
    obtain ⟨s', hs', hret⟩ := (Option.any_eq_true ..).mp hnext
    exact ⟨s, s', hs, hr, hc, hs', of_decide_eq_true hret⟩
  · obtain ⟨s, hs, hr, hc, hnext⟩ := exists_of_exec
      (RtThread.timedOut (RtThread.callSteps (.task ()) (.wakeOne () 5) 1) ++ RtThread.waitAgain)
      (M := RtThread.system ⟨8⟩ fun _ => 1) (s := .initial ⟨8⟩ fun _ => 1)
      (P := fun s : RtThread.State (Fin 2) Unit Unit => s.mem.removed 0 = none ∧
        s.call (.thread 0) = .blockFinish () OS_WAIT_FOREVER 1 0 ∧
        (RtThread.step ⟨8⟩ s (.step (.thread 0))).any fun s' =>
          s'.call (.thread 0) = .done (-EAGAIN)) (by decide +kernel)
    obtain ⟨s', hs', hret⟩ := (Option.any_eq_true ..).mp hnext
    exact ⟨s, s', hs, hr, hc, hs', of_decide_eq_true hret⟩

end HazelOsal
