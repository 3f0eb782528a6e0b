import HazelOsal.FreeRtos.Leftover

/-! # Timed locks

Each round of `os_mutex_lock` computes what is left of its timeout from the ticks that have elapsed
since the call. The difference is taken in 32 bits: where the tick counter has 16 of them, a call
that finds the mutex taken after the counter has gone round takes its timeout for over. Nothing else
makes it time out early, and it never asks for a longer wait than is left. -/

namespace HazelOsal.FreeRtos

open TransitionSystem

variable {T M Q N : Type} [DecidableEq T] [DecidableEq M] [DecidableEq Q] [DecidableEq N]

/-! ## The elapsed ticks -/

namespace Port

/-- The `elapsed` of `os_mutex_lock`. -/
def elapsed (port : Port) (tick start : Nat) : UInt32 := port.osTickGet tick - port.osTickGet start

/-- A counter of fewer than 32 bits has gone round. -/
def Wrapped (port : Port) (tick start : Nat) : Prop :=
  port.tickBits ≠ 32 ∧ tick / 2 ^ port.tickBits ≠ start / 2 ^ port.tickBits

instance (port : Port) (tick start : Nat) : Decidable (port.Wrapped tick start) :=
  inferInstanceAs (Decidable (_ ∧ _))

variable {port : Port} {tick start : Nat} {timeout : UInt32}

theorem elapsed_toNat (h : port.Supported) (hle : start ≤ tick)
    (hlt : tick < start + 2 ^ port.tickBits) :
    (port.elapsed tick start).toNat =
      if port.Wrapped tick start then 2 ^ 32 - 2 ^ port.tickBits + (tick - start)
      else tick - start := by
  rw [elapsed, osTickGet, osTickGet, UInt32.toNat_sub, UInt32.toNat_ofNat', UInt32.toNat_ofNat']
  split
  all_goals
    rename_i hwrapped
    rw [Wrapped] at hwrapped
    rcases h with h | h
    all_goals
      rw [h] at hlt hwrapped ⊢
      omega

/-- A timeout is over, or is taken to be. -/
theorem le_elapsed_iff (h : port.Supported) (hle : start ≤ tick)
    (hlt : tick < start + 2 ^ port.tickBits) (hfits : timeout.toNat < port.portMAX_DELAY) :
    timeout ≤ port.elapsed tick start ↔
      port.Wrapped tick start ∨ start + timeout.toNat ≤ tick := by
  rw [UInt32.le_iff_toNat_le, elapsed_toNat h hle hlt]
  split
  case isTrue hwrapped =>
    refine iff_of_true ?_ (.inl hwrapped)
    rcases h with h | h
    · rw [portMAX_DELAY, h] at hfits
      rw [h]
      omega
    · exact absurd h hwrapped.1
  case isFalse hwrapped =>
    rw [or_iff_right hwrapped]
    omega

end Port

/-! ## A call -/

/-- The first critical section of a round comes to the test of the timeout. -/
def testsTimeout (m : Mem T M Q) (t : T) (mu : M) : Bool :=
  (m.mutex mu).owner ≠ none && (m.mutex mu).owner ≠ some t &&
    !osMutexWouldDeadlockLocked (m.forget t) t mu

/-- The next step of a call tests its timeout when the counter has gone round and the timeout is not
over. -/
def Misreads (port : Port) (c : Caller T N) (s : State T M Q N) : Prop :=
  ∃ t mu timeout start, c.current = some t ∧ s.call c = .lockTry mu timeout start ∧
    testsTimeout s.mem t mu = true ∧ port.Wrapped s.mem.tick start ∧
    s.mem.tick < start + timeout.toNat

/-- The steps of a run that `c` does not leave for another call: in each round of `os_mutex_lock`
fewer ticks than the counter counts have elapsed, and no test of the timeout misreads it. -/
structure LockGuard (port : Port) (c : Caller T N) (s : State T M Q N) (a : Act T M Q N) :
    Prop where
  own : ∀ op, a ≠ .call c op
  elapsed : ∀ mu timeout start, a = .step c → s.call c = .lockTry mu timeout start →
    s.mem.tick < start + 2 ^ port.tickBits
  reads : a = .step c → ¬ Misreads port c s

/-- What holds at a point of a call of `os_mutex_lock(mutex, timeout)` made at the tick `called`. -/
def Pc.OnTime (mu : M) (timeout : UInt32) (called tick : Nat) : Pc T M Q → Prop
  | .lockEnter mu' timeout' | .lockStart mu' timeout' =>
    (mu' = mu ∧ timeout' = timeout) ∧ called ≤ tick
  | .lockTry mu' timeout' start => (mu' = mu ∧ timeout' = timeout) ∧ called ≤ start ∧ start ≤ tick
  | .lockNotifyWait mu' timeout' start remaining =>
    (mu' = mu ∧ timeout' = timeout) ∧ (called ≤ start ∧ start ≤ tick) ∧
      remaining.toNat ≤ timeout.toNat ∧ start + timeout.toNat ≤ tick + remaining.toNat
  | .lockWaiting mu' timeout' start expiry =>
    (mu' = mu ∧ timeout' = timeout) ∧ (called ≤ start ∧ start ≤ tick) ∧
      ∀ e, expiry = some e → start + timeout.toNat ≤ e
  | .lockFinish mu' timeout' start notified =>
    (mu' = mu ∧ timeout' = timeout) ∧ (called ≤ start ∧ start ≤ tick) ∧
      (notified = false → start + timeout.toNat ≤ tick)
  | .done result => result = -ETIMEDOUT → called + timeout.toNat ≤ tick
  | _ => False

section
variable {port : Port} {prio : T → Int} {s s' s₀ : State T M Q N} {a : Act T M Q N}
  {c : Caller T N} {m m' : Mem T M Q} {p p' : Pc T M Q} {t : T} {mu : M} {timeout : UInt32}
  {start called : Nat}

omit [DecidableEq T] [DecidableEq M] [DecidableEq Q] in
theorem Pc.OnTime.mono {tick tick' : Nat} (h : p.OnTime mu timeout called tick)
    (hle : tick ≤ tick') : p.OnTime mu timeout called tick' := by
  cases p with
  | lockEnter | lockStart => exact ⟨h.1, h.2.trans hle⟩
  | lockTry => exact ⟨h.1, h.2.1, h.2.2.trans hle⟩
  | lockNotifyWait =>
    obtain ⟨hcall, ⟨hcalled, hstart⟩, hle', hleft⟩ := h
    exact ⟨hcall, ⟨hcalled, hstart.trans hle⟩, hle', hleft.trans (Nat.add_le_add_right hle _)⟩
  | lockWaiting => exact ⟨h.1, ⟨h.2.1.1, h.2.1.2.trans hle⟩, h.2.2⟩
  | lockFinish => exact ⟨h.1, ⟨h.2.1.1, h.2.1.2.trans hle⟩, fun hn => (h.2.2 hn).trans hle⟩
  | done => exact fun hr => (h hr).trans hle
  | _ => exact h

omit [DecidableEq N] in
/-- How a round starts: the mutex is taken or the call returns, or it tests its timeout and asks for
a wait of what is left. -/
theorem lockTry_cases (hc : c.current = some t) (hne : timeout ≠ OS_WAIT_FOREVER)
    (h : callStep port c m (.lockTry mu timeout start) = some (m', p')) :
    (∃ r, p' = .done r ∧ r ≠ -ETIMEDOUT) ∨ testsTimeout m t mu = true ∧
      (p' = .done (-ETIMEDOUT) ∧ timeout ≤ port.elapsed m.tick start ∨
        p' = .lockNotifyWait mu timeout start (timeout - port.elapsed m.tick start) ∧
          ¬ timeout ≤ port.elapsed m.tick start) := by
  simp only [callStep, hc, Option.map_some, osMutexLockTry] at h
  split at h
  case isTrue =>
    cases h
    exact .inl ⟨0, rfl, by decide⟩
  case isFalse howner =>
    split at h
    case isTrue =>
      cases h
      exact .inl ⟨0, rfl, by decide⟩
    case isFalse hself =>
      split at h
      case isTrue =>
        cases h
        exact .inl ⟨-EBUSY, rfl, by decide⟩
      case isFalse =>
        split at h
        case isTrue =>
          cases h
          exact .inl ⟨-EDEADLK, rfl, by decide⟩
        case isFalse hdead =>
          have howner : (m.mutex mu).owner ≠ none := howner
          have hself : (m.mutex mu).owner ≠ some t := hself
          have htests : testsTimeout m t mu = true := by simp [testsTimeout, howner, hself, hdead]
          split at h
          all_goals
            rename_i hover
            cases h
          · exact .inr ⟨htests, .inl ⟨rfl, hover⟩⟩
          · exact .inr ⟨htests, .inr ⟨rfl, hover⟩⟩

omit [DecidableEq N] in
theorem lockFinish_cases (hc : c.current = some t) {notified : Bool}
    (h : callStep port c m (.lockFinish mu timeout start notified) = some (m', p')) :
    p' = .done (if notified then -EAGAIN else -ETIMEDOUT) ∨ p' = .lockTry mu timeout start := by
  simp only [callStep, hc, Option.map_some, osMutexLockFinish] at h
  split at h
  all_goals cases h
  · exact .inl rfl
  · exact .inr rfl

/-- What is left of a timeout that is not over, when the counter has not been misread. -/
theorem remaining_toNat {tick : Nat} (hport : port.Supported) (hle : start ≤ tick)
    (hlt : tick < start + 2 ^ port.tickBits) (hfits : timeout.toNat < port.portMAX_DELAY)
    (hleft : ¬ timeout ≤ port.elapsed tick start) :
    start + timeout.toNat = tick + (timeout - port.elapsed tick start).toNat := by
  have hover : port.elapsed tick start ≤ timeout := by
    rw [UInt32.le_iff_toNat_le] at hleft ⊢
    omega
  rw [Port.le_elapsed_iff hport hle hlt hfits, not_or] at hleft
  rw [UInt32.toNat_sub_of_le _ _ hover, Port.elapsed_toNat hport hle hlt, if_neg hleft.1]
  omega

theorem Port.Supported.ne_forever (h : port.Supported)
    (hfits : timeout.toNat < port.portMAX_DELAY) : timeout ≠ OS_WAIT_FOREVER := by
  rintro rfl
  have hforever : OS_WAIT_FOREVER.toNat = 2 ^ 32 - 1 := rfl
  have hle := h.two_pow_le
  rw [Port.portMAX_DELAY, hforever] at hfits
  omega

omit [DecidableEq N] in
/-- **A step keeps the deadline**: what the call asks to wait for is what is left of its timeout. -/
theorem Pc.OnTime.callStep (h : p.OnTime mu timeout called m.tick) (hport : port.Supported)
    (hfits : timeout.toNat < port.portMAX_DELAY)
    (helapsed : ∀ mu timeout start, p = .lockTry mu timeout start →
      m.tick < start + 2 ^ port.tickBits)
    (hreads : ∀ t mu timeout start, c.current = some t → p = .lockTry mu timeout start →
      testsTimeout m t mu = true → port.Wrapped m.tick start → start + timeout.toNat ≤ m.tick)
    (hs : callStep port c m p = some (m', p')) : p'.OnTime mu timeout called m.tick := by
  have hne := hport.ne_forever hfits
  cases p with
  | lockEnter mu' timeout' =>
    simp only [FreeRtos.callStep] at hs
    repeat' split at hs
    all_goals cases hs
    · exact fun hr => absurd hr (by decide)
    · exact fun hr => absurd hr (by decide)
    · exact fun hr => absurd hr (by decide)
    · exact h
  | lockStart mu' timeout' =>
    cases hs
    exact ⟨h.1, h.2, Nat.le_refl _⟩
  | lockTry mu' timeout' start =>
    obtain ⟨⟨rfl, rfl⟩, hcalled, hstart⟩ := h
    obtain ⟨t, hcur, -⟩ := Option.map_eq_some_iff.mp hs
    have hlt := helapsed _ _ _ rfl
    rcases lockTry_cases hcur hne hs with ⟨r, rfl, hr⟩ | ⟨htests, ⟨rfl, hover⟩ | ⟨rfl, hleft⟩⟩
    · exact fun he => absurd he hr
    · intro _
      rcases (Port.le_elapsed_iff hport hstart hlt hfits).mp hover with hwrapped | hover
      · exact (Nat.add_le_add_right hcalled _).trans (hreads t _ _ _ hcur rfl htests hwrapped)
      · exact (Nat.add_le_add_right hcalled _).trans hover
    · have hremaining := remaining_toNat hport hstart hlt hfits hleft
      exact ⟨⟨rfl, rfl⟩, ⟨hcalled, hstart⟩, by omega, hremaining.le⟩
  | lockNotifyWait mu' timeout' start remaining =>
    obtain ⟨hcall, hsince, hle, hleft⟩ := h
    obtain ⟨t, -, hs⟩ := Option.map_eq_some_iff.mp hs
    split at hs
    case h_1 =>
      cases hs
      exact ⟨hcall, hsince, fun he => by cases he⟩
    case h_2 =>
      cases hs
      refine ⟨hcall, hsince, fun e he => ?_⟩
      have hfits' : port.fits remaining := by
        right
        have := Nat.two_pow_pos port.tickBits
        rw [Port.portMAX_DELAY] at hfits
        omega
      exact hleft.trans (port.le_of_expiry hfits' he).2
  | lockWaiting mu' timeout' start expiry =>
    obtain ⟨hcall, hsince, -⟩ := h
    obtain ⟨t, -, hs⟩ := Option.bind_eq_some_iff.mp hs
    obtain ⟨_, -, hs⟩ := Option.map_eq_some_iff.mp hs
    cases hs
    exact ⟨hcall, hsince, fun he => by cases he⟩
  | lockFinish mu' timeout' start notified =>
    obtain ⟨hcall, ⟨hcalled, hstart⟩, hover⟩ := h
    obtain ⟨t, hcur, -⟩ := Option.map_eq_some_iff.mp hs
    rcases lockFinish_cases hcur hs with rfl | rfl
    · cases notified with
      | true => exact fun he => absurd he (by decide)
      | false => exact fun _ => (Nat.add_le_add_right hcalled _).trans (hover rfl)
    · exact ⟨hcall, hcalled, hstart⟩
  | done => cases hs
  | _ => cases h

omit [DecidableEq T] [DecidableEq M] [DecidableEq Q] [DecidableEq N] in
theorem Pc.OnTime.callExpire (h : p.OnTime mu timeout called m.tick)
    (hs : callExpire c m p = some p') : p'.OnTime mu timeout called m.tick := by
  cases p with
  | lockWaiting mu' timeout' start expiry =>
    obtain ⟨hcall, hsince, hover⟩ := h
    cases expiry with
    | none => cases hs
    | some e =>
      obtain ⟨t, -, hs⟩ := Option.bind_eq_some_iff.mp hs
      obtain ⟨⟨-, he⟩, hs⟩ := Option.ite_none_right_eq_some.mp hs
      cases hs
      exact ⟨hcall, hsince, fun _ => (hover e rfl).trans he⟩
  | lockEnter | lockStart | lockTry | lockNotifyWait | lockFinish | done => cases hs
  | _ => cases h

/-- A step of the system keeps the deadline of a call. -/
theorem Pc.OnTime.step (h : (s.call c).OnTime mu timeout called s.mem.tick)
    (hport : port.Supported) (hfits : timeout.toNat < port.portMAX_DELAY)
    (hok : LockGuard port c s a) (hs : step port s a = some s') :
    (s'.call c).OnTime mu timeout called s'.mem.tick := by
  have htick := step_tick hs
  have hother := h.mono htick
  cases step_cases hs with
  | @call d op =>
    rw [State.setCall_call]
    split
    case isTrue he => exact absurd (by rw [he]) (hok.own op)
    case isFalse => exact hother
  | @step d m' p' _ hstep =>
    rw [State.setCall_call]
    split
    case isTrue he =>
      cases he
      refine (Pc.OnTime.callStep h hport hfits (fun mu timeout start hp => ?_)
        (fun t mu timeout start hcur hp htests hwrapped => ?_) hstep).mono htick
      · exact hok.elapsed mu timeout start rfl hp
      · by_contra hearly
        exact hok.reads rfl
          ⟨t, mu, timeout, start, hcur, hp, htests, hwrapped, Nat.not_le.mp hearly⟩
    case isFalse => exact hother
  | @expire d p' _ hexpire =>
    rw [State.setCall_call]
    split
    case isTrue he =>
      cases he
      exact Pc.OnTime.callExpire h hexpire
    case isFalse => exact hother
  | tick => exact hother

/-- The run lemma. -/
theorem onTime_of_run (hport : port.Supported) (hfits : timeout.toNat < port.portMAX_DELAY)
    (hc : s₀.call c = .lockEnter mu timeout)
    (h : Run (system port prio : System (State T M Q N) _) (LockGuard port c) s₀ s) :
    (s.call c).OnTime mu timeout s₀.mem.tick s.mem.tick := by
  induction h with
  | refl =>
    rw [hc]
    exact ⟨⟨rfl, rfl⟩, Nat.le_refl _⟩
  | tail _ hok hs ih => exact ih.step hport hfits hok hs

omit [DecidableEq N] in
/-- Only a round that starts asks for a wait. -/
theorem lockTry_of_request {remaining : UInt32} (h : p.acquiring = some (mu, timeout))
    (hs : callStep port c m p = some (m', .lockNotifyWait mu timeout start remaining)) :
    p = .lockTry mu timeout start := by
  cases p with
  | lockEnter =>
    simp only [callStep] at hs
    repeat' split at hs
    all_goals cases hs
  | lockStart => cases hs
  | lockTry mu' timeout' start' =>
    cases h
    obtain ⟨t, -, hs⟩ := Option.map_eq_some_iff.mp hs
    generalize osMutexLockTry port m t mu timeout start' = next at hs
    rcases next with ⟨m'', result | _⟩
    · cases hs
    · cases hs
      rfl
  | lockNotifyWait =>
    obtain ⟨t, -, hs⟩ := Option.map_eq_some_iff.mp hs
    split at hs <;> cases hs
  | lockWaiting =>
    obtain ⟨t, -, hs⟩ := Option.bind_eq_some_iff.mp hs
    obtain ⟨_, -, hs⟩ := Option.map_eq_some_iff.mp hs
    cases hs
  | lockFinish =>
    obtain ⟨t, hcur, -⟩ := Option.map_eq_some_iff.mp hs
    rcases lockFinish_cases hcur hs with he | he
    all_goals cases he
  | _ => cases h

omit [DecidableEq T] [DecidableEq M] [DecidableEq Q] in
theorem Pc.OnTime.acquiring {tick : Nat} (h : p.OnTime mu timeout called tick) :
    p.acquiring = some (mu, timeout) ∨ ∃ r, p = .done r := by
  cases p with
  | lockEnter | lockStart | lockTry | lockNotifyWait | lockWaiting | lockFinish =>
    obtain ⟨⟨rfl, rfl⟩, -⟩ := h
    exact .inl rfl
  | done r => exact .inr ⟨r, rfl⟩
  | _ => cases h

/-- **A timed lock does not time out early**, and each wait it asks for ends when its timeout does,
where no test of the timeout misreads the counter. -/
theorem lock_never_early (hport : port.Supported) (hfits : timeout.toNat < port.portMAX_DELAY)
    (hc : s₀.call c = .lockEnter mu timeout)
    (h : Run (system port prio : System (State T M Q N) _) (LockGuard port c) s₀ s) :
    (s.call c = .done (-ETIMEDOUT) → s₀.mem.tick + timeout.toNat ≤ s.mem.tick) ∧
    ∀ s' start remaining, LockGuard port c s (.step c) → step port s (.step c) = some s' →
      s'.call c = .lockNotifyWait mu timeout start remaining →
      s₀.mem.tick ≤ start ∧ start ≤ s.mem.tick ∧
        s.mem.tick - start + remaining.toNat = timeout.toNat := by
  have honTime := onTime_of_run hport hfits hc h
  refine ⟨fun hd => ?_, fun s' start remaining hok hs hr => ?_⟩
  · rw [hd] at honTime
    exact honTime rfl
  · cases step_cases hs with
    | @step _ m' p' _ hstep =>
      rw [State.setCall_call, if_pos rfl] at hr
      rw [hr] at hstep
      rcases honTime.acquiring with hacq | ⟨r, hd⟩
      case inr =>
        rw [hd] at hstep
        cases hstep
      have hp := lockTry_of_request hacq hstep
      rw [hp] at hstep honTime
      obtain ⟨-, hcalled, hstart⟩ := honTime
      obtain ⟨t, hcur, -⟩ := Option.map_eq_some_iff.mp hstep
      have hlt := hok.elapsed _ _ _ rfl hp
      have hne := hport.ne_forever hfits
      rcases lockTry_cases hcur hne hstep with ⟨r, he, -⟩ | ⟨-, ⟨he, -⟩ | ⟨he, hleft⟩⟩
      · cases he
      · cases he
      · cases he
        have hremaining := remaining_toNat hport hstart hlt hfits hleft
        exact ⟨hcalled, hstart, by omega⟩

end

/-! ## Concrete runs -/

/-- The check of `LockGuard`. -/
def lockGuard (port : Port) (c : Caller T N) (s : State T M Q N) : Act T M Q N → Bool
  | .call d _ => d ≠ c
  | .step d =>
    d ≠ c ||
      match s.call c, c.current with
      | .lockTry mu timeout start, some t =>
        s.mem.tick < start + 2 ^ port.tickBits &&
          !(testsTimeout s.mem t mu && port.Wrapped s.mem.tick start &&
            s.mem.tick < start + timeout.toNat)
      | _, _ => true
  | _ => true

omit [DecidableEq M] [DecidableEq Q] in
theorem LockGuard.of_lockGuard {port : Port} {t : T} {s : State T M Q N} {a : Act T M Q N}
    (h : lockGuard port (.thread t) s a = true) : LockGuard port (.thread t) s a := by
  constructor
  case own =>
    rintro op rfl
    simp [lockGuard] at h
  case elapsed =>
    rintro mu timeout start rfl hc
    simp only [lockGuard, hc, Caller.current, ne_eq, not_true_eq_false, decide_false,
      Bool.false_or, Bool.and_eq_true, decide_eq_true_eq] at h
    exact h.1
  case reads =>
    rintro rfl ⟨u, mu, timeout, start, hcur, hc, htests, hwrapped, hearly⟩
    cases hcur
    simp [lockGuard, hc, Caller.current, htests, hwrapped, hearly] at h

/-- The initial state when so many ticks have passed. -/
def State.initialAt (port : Port) (prio : T → Int) (tick : Nat) : State T M Q N where
  mem := { (State.initial port prio : State T M Q N).mem with tick }
  call := fun _ => .idle

/-- A thread has locked a mutex, and another one is about to. -/
def lockedRun (timeout : UInt32) : List (Act Bool Unit Unit Unit) :=
  callSteps (.thread true) (.lock () OS_WAIT_FOREVER) 3 ++
    [Act.call (.thread false) (.lock () timeout)]

/-- It waits and is woken, but the first thread locks the mutex again before it runs, and the
counter wraps. -/
def stolenRun : List (Act Bool Unit Unit Unit) :=
  List.replicate 4 (Act.step (.thread false)) ++ callSteps (.thread true) (.unlock ()) 2 ++
    callSteps (.thread true) (.lock () OS_WAIT_FOREVER) 3 ++ [Act.tick]

theorem lock_never_early_stolen : ∃ s₀ s : State Bool Unit Unit Unit,
    exec (system ⟨8, 16⟩ fun _ => 1) (.initialAt ⟨8, 16⟩ (fun _ => 1) 65530) (lockedRun 2) =
      some s₀ ∧
    exec (system ⟨8, 16⟩ fun _ => 1) s₀
      (stolenRun ++ List.replicate 4 (Act.step (.thread false)) ++
        [.tick, .expire (.thread false), .step (.thread false)]) = some s ∧
    s.call (.thread false) = .done (-ETIMEDOUT) ∧ s₀.mem.tick + 2 ≤ s.mem.tick := by
  obtain ⟨s₀, hs₀, hc, hnext⟩ := exists_of_exec (lockedRun 2) (M := system ⟨8, 16⟩ fun _ => 1)
    (s := .initialAt ⟨8, 16⟩ (fun _ => 1) 65530)
    (P := fun s : State Bool Unit Unit Unit => s.call (.thread false) = .lockEnter () 2 ∧
      execOk (system ⟨8, 16⟩ fun _ => 1) (lockGuard ⟨8, 16⟩ (.thread false)) s
        (stolenRun ++ List.replicate 4 (Act.step (.thread false)) ++
          [Act.tick, .expire (.thread false), .step (.thread false)]) = true ∧
      (exec (system ⟨8, 16⟩ fun _ => 1) s
        (stolenRun ++ List.replicate 4 (Act.step (.thread false)) ++
          [Act.tick, .expire (.thread false), .step (.thread false)])).any fun s' =>
        s'.call (.thread false) = .done (-ETIMEDOUT))
    (by decide +kernel)
  obtain ⟨hguard, hrun⟩ := hnext
  obtain ⟨s, hs, hd⟩ := (Option.any_eq_true ..).mp hrun
  have hd := of_decide_eq_true hd
  refine ⟨s₀, s, hs₀, hs, hd, (lock_never_early (.inl rfl) (by decide) hc
    (run_of_execOk _ (fun _ _ => LockGuard.of_lockGuard) hguard hs)).1 hd⟩

/-- With a counter of 16 bits that wraps, a timeout of 10 ticks is over after one. -/
theorem not_lock_never_early : ∃ s₀ s : State Bool Unit Unit Unit,
    exec (system ⟨8, 16⟩ fun _ => 1) (.initialAt ⟨8, 16⟩ (fun _ => 1) 65535) (lockedRun 10) =
      some s₀ ∧
    s₀.call (.thread false) = .lockEnter () 10 ∧
    exec (system ⟨8, 16⟩ fun _ => 1) s₀
      (stolenRun ++ List.replicate 3 (Act.step (.thread false))) = some s ∧
    s.call (.thread false) = .done (-ETIMEDOUT) ∧ s.mem.tick = s₀.mem.tick + 1 := by
  obtain ⟨s₀, hs₀, hc, hnext⟩ := exists_of_exec (lockedRun 10) (M := system ⟨8, 16⟩ fun _ => 1)
    (s := .initialAt ⟨8, 16⟩ (fun _ => 1) 65535)
    (P := fun s : State Bool Unit Unit Unit => s.call (.thread false) = .lockEnter () 10 ∧
      (exec (system ⟨8, 16⟩ fun _ => 1) s
        (stolenRun ++ List.replicate 3 (Act.step (.thread false)))).any fun s' =>
        s'.call (.thread false) = .done (-ETIMEDOUT) ∧ s'.mem.tick = s.mem.tick + 1)
    (by decide +kernel)
  obtain ⟨s, hs, hd⟩ := (Option.any_eq_true ..).mp hnext
  obtain ⟨hd, htick⟩ := of_decide_eq_true hd
  exact ⟨s₀, s, hs₀, hc, hs, hd, htick⟩

end HazelOsal.FreeRtos
