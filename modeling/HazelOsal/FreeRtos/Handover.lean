import HazelOsal.FreeRtos.Slot

/-! # Waiters of a free mutex

An unlock removes one waiter and leaves the mutex free. The others rely on the removed thread to
try again, and to remove the next one when it unlocks. `SafeAbort` excludes that
`os_thread_abort` deletes that thread. -/

namespace HazelOsal.FreeRtos

open TransitionSystem

variable {T M Q N : Type} [DecidableEq T] [DecidableEq M] [DecidableEq Q] [DecidableEq N]

/-- An unlock has removed a thread that is live and has yet to try again. -/
def Carried (m : Mem T M Q) (mu : M) (t : T) : Prop :=
  m.deleted t = false ∧ m.hist.removed t = some (.unlock mu)

/-- `os_thread_abort` does not delete a thread that is on the wait queue of a mutex, nor the last
one that an unlock has removed and that has yet to try again, of a free mutex with waiters. -/
def SafeAbort (s : State T M Q N) (a : Act T M Q N) : Prop :=
  ∀ c t, a = .step c → s.call c = .abortDelete t →
    (∀ mu, (s.mem.thread t).waitQ ≠ some (.mutex mu)) ∧
    ∀ mu, Carried s.mem mu t → (s.mem.mutex mu).owner = none → s.mem.queue (.mutex mu) ≠ [] →
      ∃ u, u ≠ t ∧ Carried s.mem mu u

/-- The action is not a deletion by `os_thread_abort`. -/
def noDelete (s : State T M Q N) : Act T M Q N → Bool
  | .step c =>
    match s.call c with
    | .abortDelete _ => false
    | _ => true
  | _ => true

omit [DecidableEq T] [DecidableEq M] [DecidableEq Q] [DecidableEq N] in
theorem SafeAbort.of_noDelete {s : State T M Q N} {a : Act T M Q N} (h : noDelete s a = true) :
    SafeAbort s a := by
  rintro c t rfl hc
  rw [noDelete, hc] at h
  cases h

/-- Whoever waits for a mutex is live, and where a mutex is free and has waiters a removed thread
carries on. -/
structure HandoverInv (m : Mem T M Q) : Prop where
  live : ∀ t mu, (m.thread t).waitQ = some (.mutex mu) → m.deleted t = false
  carried : ∀ mu, (m.mutex mu).owner = none → m.queue (.mutex mu) ≠ [] → ∃ t, Carried m mu t

section
variable {port : Port} {prio : T → Int} {s s' : State T M Q N} {a : Act T M Q N} {c : Caller T N}
  {m' : Mem T M Q} {p' : Pc T M Q} {t : T} {mu : M}

omit [DecidableEq N] in
/-- The waiters of a mutex stay live. -/
theorem HandoverInv.live_step (h : HandoverInv s.mem) (hi : SyncInv s) (ha : s.alive c)
    (hok : SafeAbort s (.step c)) (he : Effect port c s.mem (s.call c) m' p')
    (ht : (m'.thread t).waitQ = some (.mutex mu)) : m'.deleted t = false := by
  rcases he.tasks with hsame | ⟨u, hp, rfl⟩
  · rw [hsame.deleted]
    rcases he.waits with ⟨hw, -⟩ | ⟨u, q, hc, -, -, -, hw⟩
    · exact h.live t mu (hw t _ ht)
    · rw [hw] at ht
      split at ht
      case isTrue hu =>
        subst hu hc
        simpa [State.alive, Caller.current] using ha
      case isFalse => exact h.live t mu ht
  · rw [Mem.vTaskDelete_thread] at ht
    rw [Mem.vTaskDelete_deleted, Function.update_apply]
    split
    case isTrue htu =>
      subst htu
      rcases hp with hp | ⟨hp, rfl⟩
      · exact absurd ht ((hok c t rfl hp).1 mu)
      · have hcall := hi.calls t _ ht
        rw [hp] at hcall
        cases hcall
    case isFalse => exact h.live t mu ht

omit [DecidableEq N] in
/-- A free mutex is acquired by the thread that tries. -/
theorem callStep_acquire {m : Mem T M Q} {timeout : UInt32} {start : Nat}
    (ho : (m.mutex mu).owner = none)
    (hs : callStep port (.thread t : Caller T N) m (.lockTry mu timeout start) = some (m', p')) :
    (m'.mutex mu).owner = some t := by
  simp only [callStep, Caller.current, Option.map_some, osMutexLockTry, Mem.forget_mutex, ho,
    if_true] at hs
  cases hs
  simp [osMutexAcquire]

/-- A thread that carries on does so as long as the mutex is free, if it is not deleted. -/
theorem Carried.step (h : Carried s.mem mu t) (hi : SyncInv s)
    (hw : WaitOk (s.mem.slot t) (s.call (.thread t)))
    (hs : callStep port c s.mem (s.call c) = some (m', p')) (hd : m'.deleted t = false)
    (ho : (s.mem.mutex mu).owner = none) (ho' : (m'.mutex mu).owner = none) :
    Carried m' mu t := by
  refine ⟨hd, ?_⟩
  have he := callStep_effect hs
  by_cases hown : c = .thread t ∧ (s.call c).parks = true
  · obtain ⟨rfl, hp⟩ := hown
    rcases hw.unlocked mu h.2 with hq | ⟨timeout, start, htry⟩
    · have hremoved := (callStep_ownStep hs hp).removed (by simp [hq])
      exact hremoved.trans h.2
    · -- it acquires the mutex
      rw [htry] at hs
      rw [callStep_acquire ho hs] at ho'
      cases ho'
  · have hnone : (s.mem.thread t).waitQ = none := by
      by_contra hne
      have hr := hw.queued hne
      rw [show (s.mem.slot t).removed = _ from h.2] at hr
      cases hr
    have hslot := (he.slotChange hi.queues hi.handle (u := t) fun hc => by
      simpa using fun hp => hown ⟨hc, hp⟩).eq_of_none hnone
    exact (congrArg Slot.removed hslot).trans h.2

omit [DecidableEq N] in
/-- A free mutex was free before, or its owner has released it. -/
theorem MutexChange.released {m : Mem T M Q} {p : Pc T M Q} (h : MutexChange c m m' p p')
    (hidle : p = .deinitZero mu → (m.mutex mu).owner = none) (ho : (m'.mutex mu).owner = none) :
    (m.mutex mu).owner = none ∨
      ∃ port t, m' = (osMutexRelease port m t mu).recordUnlock t mu := by
  have hkeep {v : OsMutex T} {mu' : M} (hm : m'.mutex = (m.setMutex mu' v).mutex)
      (hv : mu = mu' → v.owner = none → (m.mutex mu').owner = none) :
      (m.mutex mu).owner = none := by
    rw [hm, Mem.setMutex_mutex, Function.update_apply] at ho
    split at ho
    case isTrue he => rw [he]; exact hv he ho
    case isFalse => exact ho
  cases h with
  | same h => rw [h.mutex] at ho; exact .inl ho
  | acquire _ _ _ hfree h => exact .inl (hkeep h.mutex fun _ _ => hfree)
  | recurse _ _ _ h | unlockNested _ _ _ h | deinit _ _ _ _ h =>
    exact .inl (hkeep h.mutex fun _ => id)
  | @release t mu' _ _ _ _ hm h =>
    obtain ⟨port, hm⟩ := hm
    by_cases he : mu = mu'
    · subst he
      exact .inr ⟨port, t, hm⟩
    · exact .inl (hkeep h.mutex fun he' => absurd he' he)
  | zero hp h => exact .inl (hkeep h.mutex fun he _ => he ▸ hidle (he ▸ hp))

omit [DecidableEq N] in
/-- Whoever waits for a mutex after a step waited for it before, or the mutex had an owner. -/
theorem Effect.waited (he : Effect port c s.mem (s.call c) m' p')
    (ho : (m'.mutex mu).owner = none) (ht : (m'.thread t).waitQ = some (.mutex mu)) :
    (s.mem.thread t).waitQ = some (.mutex mu) := by
  rcases he.waits with ⟨hw, -⟩ | ⟨u, q, -, -, hm, hmu, hw⟩
  · exact hw t _ ht
  · rw [hw] at ht
    split at ht
    case isTrue =>
      cases ht
      rw [hm] at ho
      exact absurd ho (hmu mu rfl).2.1
    case isFalse => exact ht

theorem HandoverInv.carried_step (h : HandoverInv s.mem) (hi : SyncInv s)
    (hw : ∀ t, WaitOk (s.mem.slot t) (s.call (.thread t))) (hok : SafeAbort s (.step c))
    (hq' : QueueInv m') (hs : callStep port c s.mem (s.call c) = some (m', p'))
    (ho' : (m'.mutex mu).owner = none) (hne' : m'.queue (.mutex mu) ≠ []) :
    ∃ t, Carried m' mu t := by
  have he := callStep_effect hs
  obtain ⟨u, hu⟩ := List.exists_mem_of_ne_nil _ hne'
  have hwait := he.waited ho' ((hq'.mem u _).mp hu)
  have hne : s.mem.queue (.mutex mu) ≠ [] :=
    List.ne_nil_of_mem ((hi.queues.mem u _).mpr hwait)
  obtain ho | ⟨port, t, rfl⟩ := he.mutexes.released
    (fun hp => (hi.idle mu (hi.zeroing c mu hp)).1) ho'
  · obtain ⟨t, ht⟩ := h.carried mu ho hne
    rcases he.tasks with hsame | ⟨v, hp, rfl⟩
    · exact ⟨t, ht.step hi (hw t) hs (by rw [hsame.deleted]; exact ht.1) ho ho'⟩
    · obtain ⟨w, hwv, hcarried⟩ : ∃ w, w ≠ v ∧ Carried s.mem mu w := by
        by_cases htv : t = v
        · subst htv
          rcases hp with hp | ⟨hp, rfl⟩
          · exact (hok c t rfl hp).2 mu ht ho hne
          · rcases (hw t).unlocked mu ht.2 with hq | ⟨_, _, hq⟩
            · rw [hp] at hq; cases hq
            · rw [hp] at hq; cases hq
        · exact ⟨t, htv, ht⟩
      exact ⟨w, (Function.update_of_ne hwv ..).trans hcarried.1, hcarried.2⟩
  · -- the head of the wait queue is removed
    obtain ⟨w, rest, hl⟩ := List.exists_cons_of_ne_nil hne
    have hmem := (hi.queues.mem w (.mutex mu)).mp (hl ▸ List.mem_cons_self)
    have hslot := mutexRelease_slot port hi.handle t mu w
    rw [hl, List.head?_cons, if_pos rfl] at hslot
    have htasks : SameTasks s.mem (osMutexRelease port s.mem t mu) := .release
    exact ⟨w, (congrFun htasks.deleted w).trans (h.live w mu hmem), congrArg Slot.removed hslot⟩

theorem HandoverInv.step (h : HandoverInv s.mem) (hi : SyncInv s) (hi' : SyncInv s')
    (hw : ∀ t, WaitOk (s.mem.slot t) (s.call (.thread t))) (hok : SafeAbort s a)
    (hs : step port s a = some s') : HandoverInv s'.mem := by
  cases step_cases hs with
  | call | expire | tick => exact ⟨h.live, h.carried⟩
  | step ha hstep =>
    exact ⟨fun t mu => h.live_step hi ha hok (callStep_effect hstep),
      fun mu => h.carried_step hi hw hok hi'.queues hstep⟩

/-- **No waiter is left behind on a free mutex**, where no thread that carries on is deleted. Where
a mutex is free and its wait queue is not empty, an unlock of it has removed a thread that is live
and has yet to try again: it is still in `os_mutex_lock` of this mutex, off the wait queue. -/
theorem no_waiter_left_behind
    (h : ReachableVia (system port prio : System (State T M Q N) _)
      (fun s a => SafeDeinit s a ∧ SafeAbort s a) s)
    (mu : M) (ho : (s.mem.mutex mu).owner = none) (hne : s.mem.queue (.mutex mu) ≠ []) :
    ∃ t, s.mem.deleted t = false ∧ s.mem.hist.removed t = some (.unlock mu) ∧
      (s.mem.thread t).waitQ = none ∧
      ((s.call (.thread t)).waitsOn = some (.mutex mu) ∨
        ∃ timeout start, s.call (.thread t) = .lockTry mu timeout start) := by
  have hguard : ∀ (s : State T M Q N) a, SafeDeinit s a ∧ SafeAbort s a → SafeDeinit s a :=
    fun _ _ => And.left
  have hh : HandoverInv s.mem := by
    refine h.induction (I := fun s => HandoverInv s.mem) (fun s (h : Init port prio s) => ?_)
      fun s a s' hr hh ⟨hd, ha⟩ hs => ?_
    · refine ⟨fun t _ _ => h.deleted t, fun mu _ hne => absurd (h.queue _) hne⟩
    · have hi := syncInv_of_reachable hguard hr
      exact hh.step hi (hi.step hd hs) (waitOk_of_reachable hguard hr) ha hs
  have hw := waitOk_of_reachable hguard h
  obtain ⟨t, hd, hr⟩ := hh.carried mu ho hne
  refine ⟨t, hd, hr, ?_, (hw t).unlocked mu hr⟩
  by_contra hq
  have hnone := (hw t).queued hq
  rw [show (s.mem.slot t).removed = _ from hr] at hnone
  cases hnone

/-- Two threads wait for a mutex, and its owner unlocks it. -/
def handoverRun (owner first second : T) : List (Act T Unit Unit Unit) :=
  twoWaitersRun owner first second ++ [.step (.thread owner)]

theorem no_waiter_left_behind_handover : ∃ s : State (Fin 3) Unit Unit Unit,
    exec (system ⟨8, 32⟩ fun _ => 1) (.initial ⟨8, 32⟩ fun _ => 1) (handoverRun 0 1 2) =
      some s ∧
    (s.mem.mutex ()).owner = none ∧ s.mem.queue (.mutex ()) = [2] ∧
    ∃ t, s.mem.deleted t = false ∧ s.mem.hist.removed t = some (.unlock ()) := by
  obtain ⟨s, hs, ho, hq⟩ := exists_of_exec (handoverRun (0 : Fin 3) 1 2)
    (M := system ⟨8, 32⟩ fun _ => 1) (s := .initial ⟨8, 32⟩ fun _ => 1)
    (P := fun s => (s.mem.mutex ()).owner = none ∧ s.mem.queue (.mutex ()) = [2])
    (by decide +kernel)
  obtain ⟨t, hd, hr, -⟩ := no_waiter_left_behind
    (reachableVia_of_execOk (handoverRun (0 : Fin 3) 1 2)
      (fun s a (h : (noDeinit s a && noDelete s a) = true) =>
        (Bool.and_eq_true_iff.mp h).imp .of_noDeinit .of_noDelete)
      (State.init_initial ⟨8, 32⟩ fun _ => 1) (by decide +kernel) hs) () ho (by simp [hq])
  exact ⟨s, hs, ho, hq, t, hd, hr⟩

/-- The thread that the unlock has removed is aborted, and the mutex stays free with a waiter that
nobody will wake. -/
theorem waiter_left_behind_by_abort : ∃ s : State (Fin 3) Unit Unit Unit,
    exec (system ⟨8, 32⟩ fun _ => 1) (.initial ⟨8, 32⟩ fun _ => 1)
      (handoverRun 0 1 2 ++ callSteps (.task ()) (.abort 1) 5) = some s ∧
    s.call (.task ()) = .done 0 ∧ (s.mem.mutex ()).owner = none ∧
    s.mem.queue (.mutex ()) = [2] ∧
    ∀ t, s.mem.deleted t = false → s.mem.hist.removed t ≠ some (.unlock ()) :=
  exists_of_exec _ (by decide +kernel)

end

end HazelOsal.FreeRtos
