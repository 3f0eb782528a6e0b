import HazelOsal.WorkQueue.Delayed

/-! # When delayed work comes off its list

`os_work_promote_delayed` reads the tick before it enters its critical section, and takes off the
delayed list what is due by that reading. The tick may advance in between, and another thread may
schedule an item that comes due half the range of a tick after the reading: its deadline is then
taken for one that has passed. -/

namespace HazelOsal

open TransitionSystem

variable {Q W T : Type} [DecidableEq Q] [DecidableEq W] [DecidableEq T]

/-! ## The readers -/

/-- `os_work_delayable_expires_get`. -/
def osWorkDelayableExpiresGet (m : Mem Q W) (d : W) : UInt32 :=
  if (m.work d).flags.delayed then (m.dwork d).deadline else osTickGet m

/-- `os_work_delayable_remaining_get`. -/
def osWorkDelayableRemainingGet (m : Mem Q W) (d : W) : UInt32 :=
  if (m.work d).flags.delayed then osWorkDeadlineRemaining (m.dwork d).deadline (osTickGet m)
  else 0

/-- While `d` is delayed and not due, the readers return the time that is left and the tick at which
it comes due. -/
def ReadersExact (m : Mem Q W) (d : W) : Prop :=
  (m.work d).flags.delayed = true → m.tick < m.currentDue d →
    (osWorkDelayableRemainingGet m d).toNat = m.currentDue d - m.tick ∧
    (osWorkDelayableExpiresGet m d).toNat = m.currentDue d % 2 ^ 32

/-! ## The record of promotions -/

/-- `os_work_promote_delayed` took `item` off the delayed list at `tick`; the schedule it was on the
list for comes due at `due`. -/
structure Promoted (W : Type) where
  item : W
  due : Nat
  tick : Nat
  deriving DecidableEq

/-- What the critical section of `os_work_promote_delayed` takes off the list. -/
def promotes (s : State Q W T) : Act Q W T → List (Promoted W)
  | .worker q =>
    match s.worker q with
    | .promoteLock sampled =>
      match (osWorkPromoteDelayedCritical s.mem q (UInt32.ofNat sampled)).2 with
      | .submit d | .notify d => [⟨d, s.mem.currentDue d, s.mem.tick⟩]
      | .ret _ => []
    | _ => []
  | _ => []

/-- The work queues with the record of promotions. -/
abbrev promotionSystem (Q W T : Type) [DecidableEq Q] [DecidableEq W] [DecidableEq T] :
    System (State Q W T × List (Promoted W)) (Act Q W T) :=
  (workQueueSystem Q W T).recording promotes

/-- If the step is a critical section of `os_work_promote_delayed` that finds `d` on its list, `d`
has come due or comes due less than half the range of a tick after the reading of the tick. -/
def sampleInReach (d : W) (s : State Q W T) : Act Q W T → Bool
  | .worker q =>
    match s.worker q with
    | .promoteLock sampled =>
      decide (d ∈ (s.mem.queue q).delayed → s.mem.tick < s.mem.currentDue d →
        s.mem.currentDue d < sampled + 2 ^ 31)
    | _ => true
  | _ => true

/-! ## A schedule comes due within half the range -/

/-- A delayed item comes due within half the range of a tick. -/
def HorizonInv (m : Mem Q W) : Prop :=
  ∀ d, (m.work d).flags.delayed = true → m.currentDue d < m.tick + 2 ^ 31

section
variable {c : Ctx Q T} {m m' : Mem Q W} {q : Q} {d w : W}

omit [DecidableEq Q] [DecidableEq W] in
@[simp] theorem SubmitCont.resume_delay {r : Int} {k : SubmitCont} :
    (k.resume w r : Pc Q W).delay = none := by
  cases k <;> rfl

omit [DecidableEq Q] [DecidableEq W] in
@[simp] theorem DelayableCont.resume_delay {r : Int} {k : DelayableCont} :
    (k.resume w r : Pc Q W).delay = none := by
  cases k <;> rfl

omit [DecidableEq Q] [DecidableEq W] in
@[simp] theorem CancelCont.resume_delay {r : Int} {k : CancelCont Q} :
    (k.resume w r : Pc Q W).delay = none := by
  cases k with
  | delayable q k => exact DelayableCont.resume_delay
  | ret | sync b => rfl

omit [DecidableEq T] in
/-- `os_work_schedule_common` has checked its delay. -/
theorem callStep_delay {p p' : Pc Q W} {delay : UInt32} (h : callStep c m p = some (m', p'))
    (hp : p'.delay = some delay) : delay ≤ INT32_MAX := by
  cases p with
  | scheduleEnter q d delay' reschedule =>
    simp only [callStep] at h
    split at h
    · cases h; cases hp
    case isFalse hb =>
      split at h
      · cases h; cases hp
      · cases h
        cases hp
        exact UInt32.not_lt.mp fun hlt => hb (by simp [hlt])
  | submit p k =>
    obtain ⟨-, ⟨p₁, -, rfl⟩ | ⟨r, -, rfl⟩⟩ := callStep_submit h
    · cases hp
    · simp at hp
  | _ =>
    simp only [callStep] at h
    grind [Pc.delay, Option.map_eq_some_iff, CancelCont.resume_delay, DelayableCont.resume_delay]

omit [DecidableEq Q] [DecidableEq W] in
theorem HorizonInv.scheduleStep {new : Option (W × UInt32)} (h : HorizonInv m)
    (hs : ScheduleStep new m m')
    (hnew : ∀ d delay, new = some (d, delay) → delay ≤ INT32_MAX) : HorizonInv m' := by
  intro d hd
  rw [hs.tick]
  by_cases he : ∃ delay, new = some (d, delay)
  · obtain ⟨delay, he⟩ := he
    have hle : delay.toNat ≤ INT32_MAX.toNat := UInt32.le_iff_toNat_le.mp (hnew d delay he)
    have hmax : INT32_MAX.toNat = 2 ^ 31 - 1 := rfl
    rw [(hs.makes d delay he).2]
    omega
  · obtain ⟨hd', -, hdue⟩ := hs.keeps d (fun delay h => he ⟨delay, h⟩) hd
    rw [hdue]
    exact h d hd'

/-- `os_work_promote_delayed` reads the tick before it enters its critical section. -/
theorem workerStep_promoteLock {p : WorkerPc Q W} {sampled : Nat}
    (h : workerStep m q p = some (m', .promoteLock sampled)) : sampled = m.tick := by
  cases p with
  | promote => cases h; rfl
  | _ =>
    simp only [workerStep] at h
    grind [Option.map_eq_some_iff]

end

/-! ## Every reachable state -/

theorem delay_of_reachable {s : State Q W T} (h : Reachable (workQueueSystem Q W T) s) :
    ∀ c delay, (s.call c).delay = some delay → delay ≤ INT32_MAX := by
  refine ReachableVia.invariant
    (I := fun s => ∀ c delay, (s.call c).delay = some delay → delay ≤ INT32_MAX) ?_ ?_ h
  · intro s hs c delay hd
    rw [hs.call] at hd
    cases hd
  · intro s a t _ hi _ hs c delay hd
    cases step_effect hs with
    | @call c' op _ =>
      rw [State.setCall_call] at hd
      split at hd
      · cases op <;> cases hd
      · exact hi c delay hd
    | @step c' m p hstep _ =>
      rw [State.setCall_call] at hd
      split at hd
      · exact callStep_delay hstep hd
      · exact hi c delay hd
    | @expire c' q timeout expiry _ _ =>
      rw [State.setCall_call] at hd
      split at hd
      · cases hd
      · exact hi c delay hd
    | worker | workerExpire | tick => exact hi c delay hd

theorem horizonInv_of_reachable {s : State Q W T} (h : Reachable (workQueueSystem Q W T) s) :
    HorizonInv s.mem := by
  refine ReachableVia.invariant (I := fun s => HorizonInv s.mem) ?_ ?_ h
  · intro s hs d hd
    rw [hs.flags] at hd
    cases hd
  · intro s a t hr hi _ hs
    cases step_effect hs with
    | call | expire | workerExpire => exact hi
    | @step c m p _ he =>
      obtain ⟨new, hnew, hdelay⟩ := he.schedules (stateInv_of_reachable hr).mem
      exact hi.scheduleStep hnew fun d delay h => delay_of_reachable hr c delay (hdelay d delay h)
    | worker _ _ he => exact hi.scheduleStep he.schedules fun d delay h => by cases h
    | tick =>
      exact fun d hd => Nat.lt_of_lt_of_le (hi d hd) (Nat.add_le_add_right (Nat.le_succ _) _)

/-- A reading of the tick is not ahead of it. -/
theorem sampled_le_tick {s : State Q W T} (h : Reachable (workQueueSystem Q W T) s) :
    ∀ q sampled, s.worker q = .promoteLock sampled → sampled ≤ s.mem.tick := by
  refine ReachableVia.invariant
    (I := fun s => ∀ q sampled, s.worker q = .promoteLock sampled → sampled ≤ s.mem.tick) ?_ ?_ h
  · intro s hs q sampled hp
    rw [hs.worker] at hp
    cases hp
  · intro s a t hr hi _ hs q sampled hp
    cases step_effect hs with
    | call | expire => exact hi q sampled hp
    | @step c m p _ he =>
      obtain ⟨new, hnew, -⟩ := he.schedules (stateInv_of_reachable hr).mem
      rw [State.setCall_mem, hnew.tick]
      exact hi q sampled hp
    | @worker q' m p _ hstep he =>
      rw [State.setWorker_worker] at hp
      rw [State.setWorker_mem, he.schedules.tick]
      split at hp
      case isTrue =>
        subst hp
        exact Nat.le_of_eq (workerStep_promoteLock hstep)
      case isFalse => exact hi q sampled hp
    | @workerExpire q' expiry _ _ =>
      rw [State.setWorker_worker] at hp
      split at hp
      · cases hp
      · exact hi q sampled hp
    | tick => exact Nat.le_succ_of_le (hi q sampled hp)

/-! ## On time -/

theorem readersExact_of_reachable {s : State Q W T} (h : Reachable (workQueueSystem Q W T) s)
    (d : W) : ReadersExact s.mem d := by
  intro hd hlt
  have hdue := horizonInv_of_reachable h d hd
  rw [osWorkDelayableRemainingGet, osWorkDelayableExpiresGet, if_pos hd, if_pos hd,
    deadlineInv_of_reachable h d hd]
  exact ⟨SerialTicks.ahead_of_lt (Nat.le_of_lt hlt) hdue, UInt32.toNat_ofNat'⟩

omit [DecidableEq Q] [DecidableEq T] in
/-- What is taken off the list was on it, and reads as due. -/
theorem mem_promotes {s : State Q W T} {a : Act Q W T} {r : Promoted W} (h : r ∈ promotes s a) :
    ∃ q sampled, a = .worker q ∧ s.worker q = .promoteLock sampled ∧
      r.item ∈ (s.mem.queue q).delayed ∧ r.due = s.mem.currentDue r.item ∧ r.tick = s.mem.tick ∧
      osWorkDeadlineRemaining (s.mem.dwork r.item).deadline (UInt32.ofNat sampled) = 0 := by
  cases a with
  | worker q =>
    simp only [promotes] at h
    split at h
    case h_1 sampled hp =>
      simp only [osWorkPromoteDelayedCritical] at h
      cases hs : promoteScan (fun d => (s.mem.dwork d).deadline) (UInt32.ofNat sampled)
          (s.mem.queue q).delayed OS_WAIT_FOREVER with
      | mk due timeout =>
        rw [hs] at h
        cases due with
        | none => cases h
        | some d =>
          obtain ⟨hd, hz⟩ := promoteScan_some hs
          have hr : r = ⟨d, s.mem.currentDue d, s.mem.tick⟩ := by
            split at h
            case h_1 => grind
            case h_2 => grind
            case h_3 => cases h
          subst hr
          exact ⟨q, sampled, rfl, hp, hd, rfl, rfl, hz⟩
    case h_2 => cases h
  | _ => cases h

/-- An item is not taken off before it is due exactly where it is within reach of the reading. -/
theorem promotes_on_time {s : State Q W T} {a : Act Q W T} {r : Promoted W}
    (h : Reachable (workQueueSystem Q W T) s) (hr : r ∈ promotes s a) :
    r.due ≤ r.tick ↔ sampleInReach r.item s a = true := by
  obtain ⟨q, sampled, rfl, hp, hd, hdue, htick, hz⟩ := mem_promotes hr
  simp only [sampleInReach, hp, decide_eq_true_eq]
  rw [hdue, htick]
  constructor
  · intro hle _ hlt
    exact absurd hle (Nat.not_le.mpr hlt)
  · intro hok
    have hdelayed := ((stateInv_of_reachable h).mem.delay.delayed_of_mem hd).1
    rw [deadlineInv_of_reachable h _ hdelayed] at hz
    refine Nat.not_lt.mp fun hlt => ?_
    have hle := SerialTicks.le_of_ahead_eq_zero hz (hok hd hlt)
    have := sampled_le_tick h q sampled hp
    omega

/-- **Delayed work does not fire early**, in every run in which each reading of the tick by
`os_work_promote_delayed` has the item within reach: it is taken off the list at the tick at which
its schedule comes due, or later. A step that takes it off does so early exactly where it is out of
reach. While the item is delayed and not due, the readers are exact. -/
theorem never_early {r : State Q W T × List (Promoted W)} {d : W}
    (h : ReachableVia (promotionSystem Q W T) (fun r a => sampleInReach d r.1 a = true) r) :
    (∀ p ∈ r.2, p.item = d → p.due ≤ p.tick) ∧
    (∀ a, ∀ p ∈ promotes r.1 a, p.item = d →
      (p.due ≤ p.tick ↔ sampleInReach d r.1 a = true)) ∧
    ReadersExact r.1.mem d := by
  have hr := h.recorded fun s a => sampleInReach d s a = true
  refine ⟨?_, ?_, readersExact_of_reachable hr.reachable d⟩
  · refine h.forall_recorded (P := fun p : Promoted W => p.item = d → p.due ≤ p.tick)
      (fun s a => sampleInReach d s a = true) ?_
    rintro s a t hs hok - p hp rfl
    exact (promotes_on_time hs.reachable hp).mpr hok
  · rintro a p hp rfl
    exact promotes_on_time hr.reachable hp

/-- The initial state at a tick. -/
def State.initialAt (tick : Nat) : State Q W T :=
  { State.initial with mem := { (State.initial : State Q W T).mem with tick } }

omit [DecidableEq Q] [DecidableEq W] [DecidableEq T] in
theorem State.init_initialAt (tick : Nat) : Init (.initialAt tick : State Q W T) :=
  ⟨fun _ => ⟨false, rfl⟩, fun _ => ⟨true, rfl⟩, fun _ => rfl, rfl, fun _ => rfl, fun _ => rfl⟩

/-- A thread schedules item 0 for two ticks, one tick before the counter wraps. -/
def beforeWrapRun : List (Act Unit Nat Nat) :=
  [.call (.thread 0) (.scheduleForQueue () 0 2), .step (.thread 0), .step (.thread 0), .tick]

/-- The item is due one tick later. -/
def afterWrapRun : List (Act Unit Nat Nat) := [.tick, .worker (), .worker ()]

theorem never_early_wrap : ∃ r r' : State Unit Nat Nat × List (Promoted Nat),
    exec (promotionSystem Unit Nat Nat) (.initialAt 4294967295, []) beforeWrapRun = some r ∧
    osWorkDelayableRemainingGet r.1.mem 0 = 1 ∧ osWorkDelayableExpiresGet r.1.mem 0 = 1 ∧
    exec (promotionSystem Unit Nat Nat) r afterWrapRun = some r' ∧
    r'.2 = [⟨0, 4294967297, 4294967297⟩] ∧ (∀ p ∈ r'.2, p.item = 0 → p.due ≤ p.tick) := by
  refine ⟨_, _, rfl, by decide +kernel, by decide +kernel, rfl, rfl, ?_⟩
  exact (never_early (reachableVia_of_execOk (M := promotionSystem Unit Nat Nat)
    (s := (.initialAt 4294967295, [])) (beforeWrapRun ++ afterWrapRun) (fun _ _ h => h)
    ⟨State.init_initialAt 4294967295, rfl⟩
    (by decide +kernel) rfl)).1

/-- The worker reads the tick and is preempted; a tick later a thread schedules item 0 with the
longest delay there is. -/
def earlyRun : List (Act Unit Nat Nat) :=
  [.worker (), .tick, .call (.thread 0) (.scheduleForQueue () 0 INT32_MAX), .step (.thread 0),
    .step (.thread 0), .worker ()]

/-- The item is taken off at the tick at which it was scheduled. -/
theorem fires_early : ∃ r : State Unit Nat Nat × List (Promoted Nat),
    exec (promotionSystem Unit Nat Nat) (.initial, []) earlyRun = some r ∧
    r.2 = [⟨0, 2147483648, 1⟩] ∧ ¬ ∀ p ∈ r.2, p.item = 0 → p.due ≤ p.tick := by
  refine ⟨_, rfl, rfl, fun h => ?_⟩
  exact absurd (h _ List.mem_cons_self rfl) (by decide)

end HazelOsal
