import HazelOsal.FreeRtos.Invariant

/-! # Deinitialization of mutexes

A thread that waits for a mutex is on its wait queue until an unlock or an abort removes it, but
then neither the owner nor the wait queue shows it. `DeinitsApart` says which calls may not overlap
for `os_mutex_deinit` never to come into that gap: a mutex that is free while a thread is in
`os_mutex_lock` is not deinitialized, and none that is being deinitialized gets into that state. -/

namespace HazelOsal.FreeRtos

open TransitionSystem

variable {T M Q N : Type} [DecidableEq T] [DecidableEq M] [DecidableEq Q] [DecidableEq N]

/-- The mutex of a call of `os_mutex_deinit` that has yet to come to its critical section. -/
def Pc.deinits : Pc T M Q → Option M
  | .deinitEnter mu | .deinitLock mu => some mu
  | _ => none

/-- A live thread is in `os_mutex_lock` of the mutex, past the check of the flag. -/
def State.Locks (s : State T M Q N) (t : T) (mu : M) : Prop :=
  s.mem.deleted t = false ∧ (s.call (.thread t)).locking = some mu

/-- The calls of `os_mutex_deinit` keep apart from the gaps of `os_mutex_lock`. -/
structure DeinitsApart (s : State T M Q N) (a : Act T M Q N) : Prop where
  /-- `os_mutex_deinit` is not called on a free mutex that a thread is about to lock. -/
  call : ∀ c mu, a = .call c (.deinit mu) → (s.mem.mutex mu).owner = none → ∀ t, ¬ s.Locks t mu
  /-- Before its critical section, no thread comes past the flag of the mutex while that is free. -/
  enter : ∀ c mu timeout, a = .step c → s.call c = .lockEnter mu timeout →
    (s.mem.mutex mu).owner = none → ∀ d, (s.call d).deinits ≠ some mu
  /-- Before its critical section, the owner does not free the mutex while a thread is in
  `os_mutex_lock` of it. -/
  unlock : ∀ c mu, a = .step c → s.call c = .unlockLock mu →
    c.current = (s.mem.mutex mu).owner → (s.mem.mutex mu).lockCount = 1 →
      ∀ d, (s.call d).deinits = some mu → ∀ t, ¬ s.Locks t mu

section
variable {port : Port} {prio : T → Int} {s s' : State T M Q N} {a : Act T M Q N} {c : Caller T N}
  {m m' : Mem T M Q} {p p' : Pc T M Q} {mu : M}

omit [DecidableEq N] in
theorem callStep_deinits (h : callStep port c m p = some (m', p')) (hp : p'.deinits = some mu) :
    p = .deinitEnter mu := by
  cases p with
  | deinitEnter => grind [callStep, Pc.deinits]
  | _ =>
    simp only [callStep, Option.map_eq_some_iff, Option.bind_eq_some_iff] at h
    grind [Pc.deinits]

omit [DecidableEq N] in
theorem callStep_locking (h : callStep port c m p = some (m', p')) (hp : p'.locking = some mu) :
    p.locking = some mu ∨ ∃ timeout, p = .lockEnter mu timeout := by
  cases p with
  | _ =>
    simp only [callStep, Option.map_eq_some_iff, Option.bind_eq_some_iff] at h
    grind [Pc.locking]

omit [DecidableEq T] [DecidableEq Q] in
private theorem owner_ne_none_of_setMutex {v : OsMutex T} {nu : M}
    (ho : (m.mutex mu).owner ≠ none) (hv : nu = mu → v.owner ≠ none) :
    ((m.setMutex nu v).mutex mu).owner ≠ none := by
  rw [Mem.setMutex_mutex, Function.update_apply]
  split
  case isTrue he => exact hv he.symm
  case isFalse => exact ho

omit [DecidableEq N] in
/-- A mutex gets free by the last unlock of its owner, or in the `memset` of `os_mutex_deinit`. -/
theorem Effect.disowned (he : Effect port c m p m' p') (ho : (m.mutex mu).owner ≠ none)
    (hfree : (m'.mutex mu).owner = none) : p = .deinitZero mu ∨
      p = .unlockLock mu ∧ c.current = (m.mutex mu).owner ∧ (m.mutex mu).lockCount = 1 := by
  have hsame (h : SameCounts m m') : (m'.mutex mu).owner ≠ none := h.mutex ▸ ho
  cases he with
  | same hs => exact absurd (hs.sync.mutex ▸ hfree) ho
  | delete | refuse | awake | block | unblock | exit => exact absurd hfree ho
  | acquire => exact absurd hfree (owner_ne_none_of_setMutex ho fun _ => Option.some_ne_none _)
  | recurse | unlockNested | deinit =>
    exact absurd hfree (owner_ne_none_of_setMutex ho (by rintro rfl; exact ho))
  | @enqueue t nu =>
    have hlink : SameCounts m (osMutexLink (m.forget t) t nu) := ⟨rfl, rfl, rfl⟩
    exact absurd hfree (hsame (hlink.trans (.updatePiChain port _)))
  | @abandon t =>
    have hunlink : SameCounts m (osMutexUnlink m t) := ⟨rfl, rfl, rfl⟩
    exact absurd hfree (hsame (hunlink.trans (.updatePiChain port _)))
  | @release t nu hc hot hn hl =>
    by_cases hmu : nu = mu
    case pos =>
      subst hmu
      have hone : (m.mutex nu).lockCount = 1 := by
        have hle : (m.mutex nu).lockCount - 1 ≤ 0 := UInt32.not_lt.mp hl
        have heq := UInt32.sub_eq_iff_eq_add.mp (UInt32.le_zero_iff.mp hle)
        rwa [UInt32.zero_add] at heq
      exact .inr ⟨rfl, by rw [hc, hot]; rfl, hone⟩
    case neg =>
      have hdisown : SameCounts (m.setMutex nu { m.mutex nu with owner := none, lockCount := 0 })
        (osMutexDisown m nu) := ⟨rfl, rfl, rfl⟩
      have hwake : SameCounts _ (osMutexWakeHead (osMutexDisown m nu) nu) :=
        hdisown.trans .mutexWakeHead
      have hrelease := (hwake.trans (.updatePiChain port (some t))).mutex
      have hkeeps : ((osMutexRelease port m t nu).mutex mu).owner ≠ none := by
        rw [osMutexRelease, hrelease]
        exact owner_ne_none_of_setMutex ho fun he => absurd he hmu
      exact absurd hfree hkeeps
  | @zero nu =>
    by_cases hmu : nu = mu
    case pos => exact .inl (hmu ▸ rfl)
    case neg =>
      exact absurd hfree (owner_ne_none_of_setMutex ho fun he => absurd he hmu)
  | wakeOne => exact absurd hfree (hsame .waitqWakeHead)
  | wakeAll =>
    exact absurd hfree (hsame (wakeAll_induction (.refl m) fun _ h => h.trans .waitqWakeHead))
  | setPriority => exact absurd hfree (hsame .setPriority)
  | @abortWaiting t =>
    have hunlink : SameCounts m (osThreadAbortUnlink m t) := ⟨rfl, rfl, rfl⟩
    have hdequeue := hunlink.trans (.updatePiChain port
      ((m.thread t).waitingMutex.bind fun mu => (m.mutex mu).owner))
    exact absurd hfree (hsame ⟨hdequeue.mutex, hdequeue.locks, hdequeue.unlocks⟩)

/-- A mutex that is being deinitialized has an owner while a thread is in `os_mutex_lock` of it. -/
structure ApartInv (s : State T M Q N) : Prop extends SyncInv s where
  owned : ∀ d mu t, (s.call d).deinits = some mu → s.Locks t mu → (s.mem.mutex mu).owner ≠ none

omit [DecidableEq T] [DecidableEq M] [DecidableEq Q] [DecidableEq N] in
/-- The critical section of `os_mutex_deinit` comes into no gap. -/
theorem ApartInv.safeDeinit (h : ApartInv s) : SafeDeinit s a := by
  intro c mu _ hc ho _ t hd hl
  exact absurd ho (h.owned c mu t (by rw [hc]; rfl) ⟨hd, hl⟩)

theorem ApartInv.step (h : ApartInv s) (hok : DeinitsApart s a) (hs : step port s a = some s') :
    ApartInv s' := by
  refine ⟨h.toSyncInv.step h.safeDeinit hs, fun d mu t hd ht => ?_⟩
  cases step_cases hs with
  | @call c op =>
    obtain ⟨hlive, hl⟩ := ht
    rw [State.setCall_call] at hd hl
    have hlocks : s.Locks t mu := by
      split at hl
      case isTrue => cases hl.symm.trans op.entry_pc.2.1
      case isFalse => exact ⟨hlive, hl⟩
    split at hd
    case isTrue =>
      cases op with
      | deinit => cases hd; exact fun ho => hok.call c _ rfl ho t hlocks
      | _ => cases hd
    case isFalse => exact h.owned d mu t hd hlocks
  | @step c m' p' ha hstep =>
    have he := callStep_effect hstep
    obtain ⟨hlive, hl⟩ := ht
    have hdeinits : (s.call d).deinits = some mu := by
      rw [State.setCall_call] at hd
      split at hd
      case isTrue hc => rw [hc, callStep_deinits hstep hd]; rfl
      case isFalse => exact hd
    rw [State.setCall_call] at hl
    have ho : (s.mem.mutex mu).owner ≠ none := by
      split at hl
      case isTrue hc =>
        rcases callStep_locking hstep hl with hl | ⟨timeout, hp⟩
        · exact h.owned d mu t hdeinits ⟨he.alive hlive, hc ▸ hl⟩
        · exact fun ho => hok.enter c mu timeout rfl hp ho d hdeinits
      case isFalse => exact h.owned d mu t hdeinits ⟨he.alive hlive, hl⟩
    intro hfree
    rcases he.disowned ho hfree with hp | ⟨hp, hc, hcount⟩
    · exact ho (h.idle mu (h.zeroing c mu hp)).1
    · refine hok.unlock c mu rfl hp hc hcount d hdeinits t ⟨he.alive hlive, ?_⟩
      split at hl
      case isTrue hct =>
        rcases callStep_locking hstep hl with hl | ⟨_, hp'⟩
        · rw [hp] at hl; cases hl
        · rw [hp] at hp'; cases hp'
      case isFalse => exact hl
  | @expire c p' ha hexpire =>
    obtain ⟨hlive, hl⟩ := ht
    have hp : p'.deinits = none ∧ p'.locking = (s.call c).locking := by
      obtain ⟨_, _, -, -, -, ⟨_, _, _, hp, rfl⟩ | ⟨_, _, _, hp, rfl⟩⟩ := callExpire_cases hexpire
      all_goals exact ⟨rfl, by rw [hp]; rfl⟩
    rw [State.setCall_call] at hd hl
    split at hd
    case isTrue => rw [hp.1] at hd; cases hd
    case isFalse =>
      refine h.owned d mu t hd ⟨hlive, ?_⟩
      split at hl
      case isTrue hct => rw [hct, ← hp.2, hl]
      case isFalse => exact hl
  | tick => exact h.owned d mu t hd ht

theorem apartInv_of_reachable
    (h : ReachableVia (system port prio : System (State T M Q N) _) DeinitsApart s) :
    ApartInv s := by
  refine h.invariant (fun s (hinit : Init port prio s) => ⟨hinit.syncInv, fun d mu t hd => ?_⟩)
    fun _ _ _ _ hi hok hs => hi.step hok hs
  rw [hinit.call] at hd
  cases hd

omit [DecidableEq T] [DecidableEq Q] in
theorem deinitCritical_busy (h : (m.mutex mu).owner ≠ none ∨ m.queue (.mutex mu) ≠ []) :
    osMutexDeinitCritical m mu = (m, some (-EBUSY)) :=
  if_pos h

omit [DecidableEq T] [DecidableEq M] [DecidableEq Q] [DecidableEq N] in
/-- A call of `os_mutex_lock` returns 0 where it acquires the mutex or counts another lock. -/
theorem initialized_of_lock (h : SyncInv s) {t : T} (ht : s.Locks t mu) :
    (s.mem.mutex mu).initialized = true := by
  by_contra hi
  exact h.unused mu (Bool.eq_false_iff.mpr hi) t ht.1 ht.2

/-- **Deinitialization excludes lockers** where its calls keep apart from the gaps. While a thread
is in `os_mutex_lock`, past the check of the flag, `os_mutex_deinit` fails with `-EBUSY`, and a lock
returns 0 on an initialized mutex only. -/
theorem deinit_excludes_lockers
    (h : ReachableVia (system port prio : System (State T M Q N) _) DeinitsApart s) :
    (∀ t mu, s.Locks t mu → ∀ c s', step port s (.step c) = some s' →
        (s.call c = .deinitEnter mu → c.inIsr = false →
          s'.call c = .deinitLock mu ∧ s'.mem = s.mem) ∧
        (s.call c = .deinitLock mu → s'.call c = .done (-EBUSY) ∧ s'.mem = s.mem)) ∧
    ∀ t mu s', (s.call (.thread t)).locking = some mu →
      step port s (.step (.thread t)) = some s' → s'.call (.thread t) = .done 0 →
        (s'.mem.mutex mu).initialized = true := by
  have hi := apartInv_of_reachable h
  refine ⟨fun t mu ht c s' hs => ⟨fun hc hisr => ?_, fun hc => ?_⟩, fun t mu s' hl hs hret => ?_⟩
  · cases step_cases hs with
    | step _ hstep =>
      rw [hc] at hstep
      simp only [callStep, initialized_of_lock hi.toSyncInv ht, hisr] at hstep
      cases hstep
      exact ⟨by rw [State.setCall_call, if_pos rfl], rfl⟩
  · have hbusy := hi.owned c mu t (by rw [hc]; rfl) ht
    cases step_cases hs with
    | step _ hstep =>
      rw [hc] at hstep
      simp only [callStep, deinitCritical_busy (.inl hbusy)] at hstep
      cases hstep
      exact ⟨by rw [State.setCall_call, if_pos rfl], rfl⟩
  · cases step_cases hs with
    | step ha hstep =>
      have hd : s.mem.deleted t = false := by simpa [State.alive, Caller.current] using ha
      rcases (callStep_effect hstep).mutexes.initialized mu with he | ⟨-, hp | ⟨hp, -⟩⟩
      · exact he.trans (initialized_of_lock hi.toSyncInv ⟨hd, hl⟩)
      all_goals rw [hp] at hl; cases hl

/-- A thread waits for a mutex, the owner unlocks it, and another task deinitializes it. -/
def earlyDeinitRun : List (Act Nat Nat Unit Unit) :=
  callSteps (.thread 0) (.lock 0 OS_WAIT_FOREVER) 3 ++
    callSteps (.thread 1) (.lock 0 OS_WAIT_FOREVER) 3 ++ callSteps (.thread 0) (.unlock 0) 2 ++
    callSteps (.task ()) (.deinit 0) 1

/-- `os_mutex_deinit` succeeds while the thread that the unlock has removed is in `os_mutex_lock`,
and the lock then returns 0 on an uninitialized mutex. -/
theorem deinit_under_locker :
    (∃ s s' : State Nat Nat Unit Unit,
      exec (system ⟨8, 32⟩ fun _ => 1) (.initial ⟨8, 32⟩ fun _ => 1) earlyDeinitRun = some s ∧
      (s.call (.thread 1)).waitsOn = some (.mutex 0) ∧
      s.mem.hist.removed 1 = some (.unlock 0) ∧ s.mem.deleted 1 = false ∧
      s.call (.task ()) = .deinitLock 0 ∧ step ⟨8, 32⟩ s (.step (.task ())) = some s' ∧
      s'.call (.task ()) ≠ .done (-EBUSY)) ∧
    ∃ t : State Nat Nat Unit Unit,
      exec (system ⟨8, 32⟩ fun _ => 1) (.initial ⟨8, 32⟩ fun _ => 1)
        (earlyDeinitRun ++ List.replicate 2 (.step (.task ())) ++
          List.replicate 3 (.step (.thread 1))) = some t ∧
      t.call (.task ()) = .done 0 ∧ t.call (.thread 1) = .done 0 ∧
      (t.mem.mutex 0).initialized = false := by
  refine ⟨?_, exists_of_exec _ (by decide +kernel)⟩
  obtain ⟨s, hs, hw, hr, hd, hc, hnext⟩ := exists_of_exec earlyDeinitRun
    (M := system ⟨8, 32⟩ fun _ => 1) (s := .initial ⟨8, 32⟩ fun _ => 1)
    (P := fun s => (s.call (.thread 1)).waitsOn = some (.mutex 0) ∧
      s.mem.hist.removed 1 = some (.unlock 0) ∧ s.mem.deleted 1 = false ∧
      s.call (.task ()) = .deinitLock 0 ∧
      (step ⟨8, 32⟩ s (.step (.task ()))).any (fun s' => s'.call (.task ()) ≠ .done (-EBUSY)))
    (by decide +kernel)
  obtain ⟨s', hs', hret⟩ := (Option.any_eq_true ..).mp hnext
  exact ⟨s, s', hs, hw, hr, hd, hc, hs', of_decide_eq_true hret⟩

/-- The check of `DeinitsApart`, where `callers` are all there are. -/
def deinitsApart (callers : List (Caller T N)) (s : State T M Q N) : Act T M Q N → Bool
  | .call _ (.deinit mu) =>
    (s.mem.mutex mu).owner.isSome || callers.all fun c => (s.call c).locking ≠ some mu
  | .step c =>
    match s.call c with
    | .lockEnter mu _ =>
      (s.mem.mutex mu).owner.isSome || callers.all fun d => (s.call d).deinits ≠ some mu
    | .unlockLock mu =>
      callers.all (fun d => (s.call d).deinits ≠ some mu) ||
        callers.all fun c => (s.call c).locking ≠ some mu
    | _ => true
  | _ => true

omit [DecidableEq T] [DecidableEq Q] [DecidableEq N] in
theorem DeinitsApart.of_deinitsApart {callers : List (Caller T N)} (hall : ∀ c, c ∈ callers)
    (h : deinitsApart callers s a = true) : DeinitsApart s a := by
  have hnone {P : Caller T N → Prop} [DecidablePred P] (hP : callers.all fun c => ¬ P c) (c) :
      ¬ P c := by simpa using List.all_eq_true.mp hP c (hall c)
  constructor
  case call =>
    rintro c mu rfl ho t ht
    simp only [deinitsApart, ho, Option.isSome_none, Bool.false_or] at h
    exact hnone h (.thread t) ht.2
  case enter =>
    rintro c mu timeout rfl hc ho d
    simp only [deinitsApart, hc, ho, Option.isSome_none, Bool.false_or] at h
    exact hnone h d
  case unlock =>
    rintro c mu rfl hc - - d hd t ht
    simp only [deinitsApart, hc, Bool.or_eq_true] at h
    rcases h with h | h
    · exact hnone h d hd
    · exact hnone h (.thread t) ht.2

/-- A thread waits for a mutex and gets it, and the one that has unlocked it waits in turn when
another task deinitializes the mutex. -/
def lateDeinitRun : List (Act Bool Unit Unit Unit) :=
  callSteps (.thread false) (.lock () OS_WAIT_FOREVER) 3 ++
    callSteps (.thread true) (.lock () OS_WAIT_FOREVER) 3 ++
    callSteps (.thread false) (.unlock ()) 2 ++ List.replicate 3 (.step (.thread true)) ++
    callSteps (.thread false) (.lock () OS_WAIT_FOREVER) 3 ++ callSteps (.task ()) (.deinit ()) 1

theorem deinit_excludes_lockers_waiting : ∃ s s' : State Bool Unit Unit Unit,
    exec (system ⟨8, 32⟩ fun _ => 1) (.initial ⟨8, 32⟩ fun _ => 1) lateDeinitRun = some s ∧
    step ⟨8, 32⟩ s (.step (.task ())) = some s' ∧ s'.call (.task ()) = .done (-EBUSY) := by
  obtain ⟨s, hs, ht, hc, hnext⟩ := exists_of_exec lateDeinitRun
    (M := system ⟨8, 32⟩ fun _ => 1) (s := .initial ⟨8, 32⟩ fun _ => 1)
    (P := fun s => (s.mem.deleted false = false ∧ (s.call (.thread false)).locking = some ()) ∧
      s.call (.task ()) = .deinitLock () ∧ (step ⟨8, 32⟩ s (.step (.task ()))).isSome)
    (by decide +kernel)
  obtain ⟨s', hs'⟩ := Option.isSome_iff_exists.mp hnext
  have hall (c : Caller Bool Unit) :
      c ∈ [.thread false, .thread true, .task (), .isr ()] := by
    cases c with
    | thread t => cases t <;> simp
    | task | isr => simp
  obtain ⟨h, -⟩ := deinit_excludes_lockers (reachableVia_of_execOk lateDeinitRun
    (fun _ _ => DeinitsApart.of_deinitsApart hall) (State.init_initial ⟨8, 32⟩ fun _ => 1)
    (by decide +kernel) hs)
  exact ⟨s, s', hs, hs', ((h false () ht (.task ()) s' hs').2 hc).1⟩

end

end HazelOsal.FreeRtos
