import HazelOsal.FreeRtos.Deadlock
import HazelOsal.Library.SerialTicks

/-! # Ownership of mutexes

What the owner, the lock count, the lists of owned mutexes and the wait queue of a mutex say of
each other in every reachable state. The record counts the calls of `os_mutex_lock` and
`os_mutex_unlock` that return 0. -/

namespace HazelOsal.FreeRtos

open TransitionSystem

variable {T M Q N : Type} [DecidableEq T] [DecidableEq M] [DecidableEq Q]

/-! ## What the record counts -/

/-- The mutex of a call of `os_mutex_lock`. -/
def Pc.lockCall : Pc T M Q → Option M
  | .lockEnter mu _ => some mu
  | p => p.locking

/-- The mutex of a call of `os_mutex_unlock`. -/
def Pc.unlockCall : Pc T M Q → Option M
  | .unlockEnter mu | .unlockLock mu => some mu
  | _ => none

section
variable {port : Port} {c : Caller T N} {m m' : Mem T M Q} {p p' : Pc T M Q} {t : T} {mu : M}

theorem osMutexLockTry_record (port : Port) (m : Mem T M Q) (t : T) (mu : M) (timeout : UInt32)
    (start : Nat) :
    let out := osMutexLockTry port m t mu timeout start
    out.1.hist.unlocks = m.hist.unlocks ∧
      (out.2 = .ret 0 ∧ out.1.hist.locks = (m.recordLock t mu).hist.locks ∨
        out.2 ≠ .ret 0 ∧ out.1.hist.locks = m.hist.locks) := by
  have herror {r : Int} (hr : r ≠ 0) : LockNext.ret r ≠ .ret 0 := fun he => hr (LockNext.ret.inj he)
  have henqueue : SameCounts m (osMutexEnqueue port (m.forget t) t mu) := .enqueue
  simp only [osMutexLockTry]
  split
  case isTrue => exact ⟨rfl, .inl ⟨rfl, rfl⟩⟩
  case isFalse =>
    split
    case isTrue => exact ⟨rfl, .inl ⟨rfl, rfl⟩⟩
    case isFalse =>
      split
      case isTrue => exact ⟨rfl, .inr ⟨herror (by decide), rfl⟩⟩
      case isFalse =>
        split
        case isTrue => exact ⟨rfl, .inr ⟨herror (by decide), rfl⟩⟩
        case isFalse =>
          split
          case isTrue => exact ⟨henqueue.unlocks, .inr ⟨LockNext.noConfusion, henqueue.locks⟩⟩
          case isFalse =>
            split
            case isTrue => exact ⟨rfl, .inr ⟨herror (by decide), rfl⟩⟩
            case isFalse => exact ⟨henqueue.unlocks, .inr ⟨LockNext.noConfusion, henqueue.locks⟩⟩

theorem osMutexUnlockCritical_record (port : Port) (m : Mem T M Q) (t : T) (mu : M) :
    let out := osMutexUnlockCritical port m t mu
    out.1.hist.locks = m.hist.locks ∧
      (out.2 = 0 ∧ out.1.hist.unlocks = (m.recordUnlock t mu).hist.unlocks ∨
        out.2 ≠ 0 ∧ out.1.hist.unlocks = m.hist.unlocks) := by
  have hperm : -EPERM ≠ 0 := by decide
  have hinval : -EINVAL ≠ 0 := by decide
  simp only [osMutexUnlockCritical]
  split
  case isTrue => exact ⟨rfl, .inr ⟨hperm, rfl⟩⟩
  case isFalse =>
    split
    case isTrue => exact ⟨rfl, .inr ⟨hinval, rfl⟩⟩
    case isFalse =>
      split
      case isTrue => exact ⟨rfl, .inl ⟨rfl, rfl⟩⟩
      case isFalse =>
        have hrelease : SameCounts _ (osMutexRelease port m t mu) := .release
        refine ⟨hrelease.locks, .inl ⟨rfl, ?_⟩⟩
        exact hrelease.recordUnlock.unlocks

omit [DecidableEq T] [DecidableEq Q] in
theorem deinitCritical_hist : (osMutexDeinitCritical m mu).1.hist = m.hist := by
  simp only [osMutexDeinitCritical]
  split <;> rfl

/-- A round of `os_mutex_lock` ends the call with 0 where it takes the mutex, and only there. -/
theorem lockTry_record {timeout : UInt32} {start : Nat}
    (h : callStep port c m (.lockTry mu timeout start) = some (m', p')) :
    m'.hist.unlocks = m.hist.unlocks ∧
      (p' = .done 0 ∧ (∃ t, c = .thread t ∧ m'.hist.locks = (m.recordLock t mu).hist.locks) ∨
        p' ≠ .done 0 ∧ m'.hist.locks = m.hist.locks) := by
  obtain ⟨t, hc, he⟩ := Option.map_eq_some_iff.mp h
  have hrecord := osMutexLockTry_record port m t mu timeout start
  dsimp only at he hrecord
  generalize osMutexLockTry port m t mu timeout start = out at he hrecord
  obtain ⟨rfl, rfl⟩ := Prod.mk.inj he
  obtain ⟨hunlocks, ⟨hnext, hlocks⟩ | ⟨hnext, hlocks⟩⟩ := hrecord
  · refine ⟨hunlocks, .inl ⟨?_, t, Caller.current_eq_some hc, hlocks⟩⟩
    rw [hnext]
  · refine ⟨hunlocks, .inr ⟨fun hp => hnext ?_, hlocks⟩⟩
    split at hp
    case h_1 hret => exact hret.trans (congrArg LockNext.ret (Pc.done.inj hp))
    case h_2 => cases hp

theorem unlockLock_record (h : callStep port c m (.unlockLock mu) = some (m', p')) :
    m'.hist.locks = m.hist.locks ∧
      (p' = .done 0 ∧ (∃ t, c = .thread t ∧ m'.hist.unlocks = (m.recordUnlock t mu).hist.unlocks) ∨
        p' ≠ .done 0 ∧ m'.hist.unlocks = m.hist.unlocks) := by
  obtain ⟨t, hc, he⟩ := Option.map_eq_some_iff.mp h
  have hrecord := osMutexUnlockCritical_record port m t mu
  dsimp only at he hrecord
  obtain ⟨rfl, rfl⟩ := Prod.mk.inj he
  obtain ⟨hlocks, ⟨hr, hunlocks⟩ | ⟨hr, hunlocks⟩⟩ := hrecord
  · exact ⟨hlocks, .inl ⟨congrArg Pc.done hr, t, Caller.current_eq_some hc, hunlocks⟩⟩
  · exact ⟨hlocks, .inr ⟨fun hp => hr (Pc.done.inj hp), hunlocks⟩⟩

/-- The other steps of `os_mutex_lock` and `os_mutex_unlock` do not return 0. -/
theorem changesMutex_of_returned (h : callStep port c m p = some (m', .done 0))
    (hp : p.lockCall ≠ none ∨ p.unlockCall ≠ none) : p.changesMutex = true := by
  have hchecks {initialized inIsr noCurrent : Bool} {next : Pc T M Q}
      (he : (if !initialized then some (m, .done (-EINVAL))
        else if inIsr then some (m, .done (-EWOULDBLOCK))
        else if noCurrent then some (m, .done (-EINVAL)) else some (m, next)) =
          some (m', .done 0)) : next = .done 0 := by
    split at he
    case isTrue => cases he
    case isFalse =>
      split at he
      case isTrue => cases he
      case isFalse =>
        split at he
        case isTrue => cases he
        case isFalse => exact congrArg Prod.snd (Option.some.inj he)
  cases p with
  | lockTry | unlockLock => rfl
  | lockEnter | unlockEnter => cases hchecks h
  | lockStart => cases h
  | lockNotifyWait =>
    obtain ⟨t, -, he⟩ := Option.map_eq_some_iff.mp h
    split at he
    all_goals cases he
  | lockWaiting =>
    obtain ⟨t, -, he⟩ := Option.bind_eq_some_iff.mp h
    obtain ⟨value, -, he⟩ := Option.map_eq_some_iff.mp he
    cases he
  | lockFinish mu timeout start notified =>
    obtain ⟨t, -, he⟩ := Option.map_eq_some_iff.mp h
    simp only [osMutexLockFinish] at he
    split at he
    case isTrue => cases notified <;> cases he
    case isFalse => cases he
  | _ => exact absurd rfl (hp.elim id id)

/-- **The record counts the locks and unlocks that succeed**: `hist.locks` grows in the step in
which a call of `os_mutex_lock` returns 0, for its caller and mutex, and in no other step. -/
theorem locks_recorded (h : callStep port c m p = some (m', p')) :
    (∃ t mu, c = .thread t ∧ p.lockCall = some mu ∧ p' = .done 0 ∧
      m'.hist.locks = (m.recordLock t mu).hist.locks) ∨
    ¬ (p.lockCall ≠ none ∧ p' = .done 0) ∧ m'.hist.locks = m.hist.locks := by
  cases hp : p.changesMutex with
  | false =>
    refine .inr ⟨?_, ((callStep_effect h).sameCounts hp).locks⟩
    rintro ⟨hcall, rfl⟩
    rw [changesMutex_of_returned h (.inl hcall)] at hp
    cases hp
  | true =>
    cases p with
    | lockTry mu timeout start =>
      rcases (lockTry_record h).2 with ⟨hp', t, hc, hlocks⟩ | ⟨hp', hlocks⟩
      · exact .inl ⟨t, mu, hc, rfl, hp', hlocks⟩
      · exact .inr ⟨fun hret => hp' hret.2, hlocks⟩
    | unlockLock mu => exact .inr ⟨fun hret => hret.1 rfl, (unlockLock_record h).1⟩
    | deinitLock mu =>
      have he : (osMutexDeinitCritical m mu).1 = m' := congrArg Prod.fst (Option.some.inj h)
      rw [← he, deinitCritical_hist]
      exact .inr ⟨fun hret => hret.1 rfl, rfl⟩
    | deinitZero mu => cases h; exact .inr ⟨fun hret => hret.1 rfl, rfl⟩
    | _ => cases hp

/-- So does `hist.unlocks` for `os_mutex_unlock`. -/
theorem unlocks_recorded (h : callStep port c m p = some (m', p')) :
    (∃ t mu, c = .thread t ∧ p.unlockCall = some mu ∧ p' = .done 0 ∧
      m'.hist.unlocks = (m.recordUnlock t mu).hist.unlocks) ∨
    ¬ (p.unlockCall ≠ none ∧ p' = .done 0) ∧ m'.hist.unlocks = m.hist.unlocks := by
  cases hp : p.changesMutex with
  | false =>
    refine .inr ⟨?_, ((callStep_effect h).sameCounts hp).unlocks⟩
    rintro ⟨hcall, rfl⟩
    rw [changesMutex_of_returned h (.inr hcall)] at hp
    cases hp
  | true =>
    cases p with
    | lockTry mu timeout start => exact .inr ⟨fun hret => hret.1 rfl, (lockTry_record h).1⟩
    | unlockLock mu =>
      rcases (unlockLock_record h).2 with ⟨hp', t, hc, hunlocks⟩ | ⟨hp', hunlocks⟩
      · exact .inl ⟨t, mu, hc, rfl, hp', hunlocks⟩
      · exact .inr ⟨fun hret => hp' hret.2, hunlocks⟩
    | deinitLock mu =>
      have he : (osMutexDeinitCritical m mu).1 = m' := congrArg Prod.fst (Option.some.inj h)
      rw [← he, deinitCritical_hist]
      exact .inr ⟨fun hret => hret.1 rfl, rfl⟩
    | deinitZero mu => cases h; exact .inr ⟨fun hret => hret.1 rfl, rfl⟩
    | _ => cases hp

end

/-! ## Counts and owners -/

/-- How often a thread has locked a mutex more than unlocked it. -/
def OsMutex.heldCount (v : OsMutex T) (t : T) : Nat :=
  if v.owner = some t then v.lockCount.toNat else 0

/-- The lock counts agree with the owners and with what the threads have done. -/
structure CountInv (m : Mem T M Q) : Prop where
  counted : ∀ mu, (m.mutex mu).owner ≠ none ↔ 0 < (m.mutex mu).lockCount.toNat
  balance : ∀ t mu,
    m.hist.locks t mu = m.hist.unlocks t mu + (m.mutex mu).heldCount t

section
variable {m m' : Mem T M Q} {t : T} {mu : M} {v v' : OsMutex T}
omit [DecidableEq Q]

theorem OsMutex.heldCount_owner (h : v.owner = some t) : v.heldCount t = v.lockCount.toNat :=
  if_pos h

theorem OsMutex.heldCount_other (h : v.owner ≠ some t) : v.heldCount t = 0 := if_neg h

/-- The count when `t` locks a mutex that is free or its own. -/
theorem OsMutex.heldCount_lock (hc : v.owner ≠ none ↔ 0 < v.lockCount.toNat)
    (ho : v.owner = none ∨ v.owner = some t) (ho' : v'.owner = some t)
    (hn : v'.lockCount.toNat = v.lockCount.toNat + 1) (u : T) :
    v'.heldCount u = v.heldCount u + if u = t then 1 else 0 := by
  split
  case isTrue hu =>
    rw [hu, heldCount_owner ho', hn]
    rcases ho with ho | ho
    · have hzero : v.lockCount.toNat = 0 := Nat.eq_zero_of_not_pos fun hpos => hc.mpr hpos ho
      rw [heldCount_other (by simp [ho]), hzero]
    · rw [heldCount_owner ho]
  case isFalse hu =>
    have hne {w : OsMutex T} (hw : w.owner = none ∨ w.owner = some t) : w.owner ≠ some u := by
      rcases hw with hw | hw
      · simp [hw]
      · rw [hw]; exact fun he => hu (Option.some.inj he).symm
    rw [heldCount_other (hne (.inr ho')), heldCount_other (hne ho)]

theorem recordLock_locks (u : T) (mu' : M) : (m.recordLock t mu).hist.locks u mu' =
    m.hist.locks u mu' + if mu' = mu then if u = t then 1 else 0 else 0 := by
  simp only [Mem.recordLock, Function.update_apply]
  by_cases hu : u = t
  · subst hu
    by_cases hmu : mu' = mu
    · simp [hmu]
    · simp [hmu]
  · simp [hu]

theorem recordUnlock_unlocks (u : T) (mu' : M) : (m.recordUnlock t mu).hist.unlocks u mu' =
    m.hist.unlocks u mu' + if mu' = mu then if u = t then 1 else 0 else 0 := by
  simp only [Mem.recordUnlock, Function.update_apply]
  by_cases hu : u = t
  · subst hu
    by_cases hmu : mu' = mu
    · simp [hmu]
    · simp [hmu]
  · simp [hu]

omit [DecidableEq M] in
theorem CountInv.congr (h : CountInv m) (hs : SameCounts m m') : CountInv m' := by
  constructor
  case counted => rw [hs.mutex]; exact h.counted
  case balance => rw [hs.mutex, hs.locks, hs.unlocks]; exact h.balance

/-- A thread locks a mutex that is free or its own. -/
theorem CountInv.lock (h : CountInv m)
    (ho : (m.mutex mu).owner = none ∨ (m.mutex mu).owner = some t) (hv : v.owner = some t)
    (hn : v.lockCount.toNat = (m.mutex mu).lockCount.toNat + 1) :
    CountInv ((m.setMutex mu v).recordLock t mu) := by
  refine ⟨fun mu' => ?_, fun u mu' => ?_⟩
  · rw [Mem.recordLock_mutex, Mem.setMutex_mutex, Function.update_apply]
    split
    case isTrue => rw [hn, hv]; simp
    case isFalse => exact h.counted mu'
  · have hb := h.balance u mu'
    rw [recordLock_locks, Mem.recordLock_mutex, Mem.setMutex_mutex, Function.update_apply]
    change m.hist.locks u mu' + _ = m.hist.unlocks u mu' + _
    split
    case isTrue hmu =>
      subst hmu
      rw [OsMutex.heldCount_lock (h.counted mu') ho hv hn, hb, Nat.add_assoc]
    case isFalse => exact hb

/-- The owner unlocks a mutex. -/
theorem CountInv.unlock (h : CountInv m) (ho : (m.mutex mu).owner = some t)
    (hv : v.owner = none ∨ v.owner = some t) (hc : v.owner ≠ none ↔ 0 < v.lockCount.toNat)
    (hn : (m.mutex mu).lockCount.toNat = v.lockCount.toNat + 1) :
    CountInv ((m.setMutex mu v).recordUnlock t mu) := by
  refine ⟨fun mu' => ?_, fun u mu' => ?_⟩
  · rw [Mem.recordUnlock_mutex, Mem.setMutex_mutex, Function.update_apply]
    split
    case isTrue => exact hc
    case isFalse => exact h.counted mu'
  · have hb := h.balance u mu'
    rw [recordUnlock_unlocks, Mem.recordUnlock_mutex, Mem.setMutex_mutex, Function.update_apply]
    change m.hist.locks u mu' = m.hist.unlocks u mu' + _ + _
    split
    case isTrue hmu =>
      subst hmu
      rw [hb, OsMutex.heldCount_lock hc hv ho hn]
      omega
    case isFalse => exact hb

/-- A mutex that is free stays free. -/
theorem CountInv.setMutex (h : CountInv m) (hv : v.owner = (m.mutex mu).owner)
    (hn : v.lockCount = (m.mutex mu).lockCount) : CountInv (m.setMutex mu v) := by
  refine ⟨fun mu' => ?_, fun u mu' => ?_⟩
  all_goals rw [Mem.setMutex_mutex, Function.update_apply]
  · split
    case isTrue => rw [hv, hn]; exact h.counted mu
    case isFalse => exact h.counted mu'
  · change m.hist.locks u mu' = m.hist.unlocks u mu' + _
    split
    case isTrue he =>
      rw [he, h.balance u mu, OsMutex.heldCount, OsMutex.heldCount, hv, hn]
    case isFalse => exact h.balance u mu'

end

variable [DecidableEq N]

section
variable {port : Port} {prio : T → Int} {s s' : State T M Q N} {a : Act T M Q N}

/-- The lock count of a mutex that a thread owns is not at its limit when the thread locks it
again. -/
def ShallowLock (s : State T M Q N) (a : Act T M Q N) : Prop :=
  ∀ t mu timeout start, a = .step (.thread t) → s.call (.thread t) = .lockTry mu timeout start →
    (s.mem.mutex mu).owner = some t → (s.mem.mutex mu).lockCount.toNat + 1 < 2 ^ 32

/-- The check of `ShallowLock`. -/
def shallowLock (s : State T M Q N) : Act T M Q N → Bool
  | .step (.thread t) =>
    match s.call (.thread t) with
    | .lockTry mu _ _ =>
      (s.mem.mutex mu).owner != some t || (s.mem.mutex mu).lockCount.toNat + 1 < 2 ^ 32
    | _ => true
  | _ => true

omit [DecidableEq M] [DecidableEq Q] [DecidableEq N] in
theorem ShallowLock.of_shallowLock (h : shallowLock s a = true) : ShallowLock s a := by
  rintro t mu timeout start rfl hc ho
  simpa [shallowLock, hc, ho] using h

omit [DecidableEq N] in
/-- A step of a call keeps the counts. -/
theorem MutexChange.counts {c : Caller T N} {m' : Mem T M Q} {p' : Pc T M Q}
    (hc : MutexChange c s.mem m' (s.call c) p') (hi : SyncInv s) (hok : ShallowLock s (.step c))
    (h : CountInv s.mem) : CountInv m' := by
  cases hc with
  | same hs => exact h.congr hs
  | @acquire t mu _ _ _ ho hs =>
    have hzero : (s.mem.mutex mu).lockCount.toNat = 0 :=
      Nat.eq_zero_of_not_pos ((h.counted mu).not.mp (not_not.mpr ho))
    refine CountInv.congr ?_ hs
    exact h.lock (.inl ho) rfl (by rw [hzero]; rfl)
  | @recurse t mu timeout start hc hp ho hs =>
    subst hc
    refine CountInv.congr ?_ hs
    exact h.lock (.inr ho) ho (SerialTicks.toNat_succ (hok t mu timeout start rfl hp ho))
  | unlockNested _ ho hgt hs =>
    have hpos := UInt32.lt_iff_toNat_lt.mp hgt
    refine CountInv.congr ?_ hs
    refine h.unlock ho (.inr ho) ⟨fun _ => hpos, fun _ => by simp [ho]⟩ ?_
    have hn := (h.counted _).mp (by rw [ho]; exact Option.some_ne_none _)
    rw [SerialTicks.toNat_pred hn]
    exact (Nat.sub_add_cancel hn).symm
  | release _ ho hn hgt _ hs =>
    refine CountInv.congr ?_ hs
    refine h.unlock ho (.inl rfl) (by simp) ?_
    have hpos := Nat.pos_of_ne_zero (SerialTicks.eq_zero_iff.not.mp hn)
    have hone := SerialTicks.toNat_pred hpos
    have hle := Nat.not_lt.mp (UInt32.lt_iff_toNat_lt.not.mp hgt)
    rw [UInt32.toNat_zero] at hle ⊢
    omega
  | deinit _ _ _ _ hs =>
    refine CountInv.congr ?_ hs
    exact h.setMutex rfl rfl
  | @zero mu hp hs =>
    have ho := (hi.idle mu (hi.zeroing c mu hp)).1
    have hzero : (s.mem.mutex mu).lockCount.toNat = 0 :=
      Nat.eq_zero_of_not_pos ((h.counted mu).not.mp (not_not.mpr ho))
    refine CountInv.congr ?_ hs
    exact h.setMutex ho.symm (UInt32.toNat_inj.mp hzero).symm

/-- **The lock counts agree with the owners in every reachable state.** -/
theorem countInv_of_reachable
    (h : ReachableVia (system port prio : System (State T M Q N) _)
      (fun s a => SafeDeinit s a ∧ ShallowLock s a) s) : CountInv s.mem := by
  refine h.induction (I := fun s => CountInv s.mem)
    (fun s (h : Init port prio s) => ⟨fun mu => ?_, fun t mu => ?_⟩)
    fun s a s' hr hn ⟨hd, hl⟩ hs => ?_
  · obtain ⟨b, hb⟩ := h.mutex mu
    simp [hb, osMutexZero]
  · obtain ⟨b, hb⟩ := h.mutex mu
    simp [hb, osMutexZero, h.hist, History.empty, OsMutex.heldCount]
  · have hi := syncInv_of_reachable (fun _ _ h => h.1) hr
    cases step_cases hs with
    | call | expire | tick => exact ⟨hn.counted, hn.balance⟩
    | step _ hstep => exact (callStep_effect hstep).mutexes.counts hi hl hn

omit [DecidableEq Q] in
theorem OwnerInv.count {m : Mem T M Q} (h : OwnerInv m) (t : T) (mu : M) :
    (m.thread t).ownedMutexes.count mu = if (m.mutex mu).owner = some t then 1 else 0 := by
  split
  case isTrue ho => exact List.count_eq_one_of_mem (h.nodup t) ((h.owned t mu).mpr ho)
  case isFalse ho => exact List.count_eq_zero.mpr fun hmem => ho ((h.owned t mu).mp hmem)

omit [DecidableEq T] [DecidableEq M] [DecidableEq Q] in
theorem OwnerInv.existsUnique {m : Mem T M Q} (h : OwnerInv m) (mu : M) :
    (m.mutex mu).owner ≠ none ↔ ∃! t, mu ∈ (m.thread t).ownedMutexes := by
  refine ⟨fun ho => ?_, fun ⟨t, ht, _⟩ => ?_⟩
  · obtain ⟨t, ht⟩ := Option.ne_none_iff_exists'.mp ho
    exact ⟨t, (h.owned t mu).mpr ht,
      fun u hu => Option.some.inj (((h.owned u mu).mp hu).symm.trans ht)⟩
  · rw [(h.owned t mu).mp ht]
    exact Option.some_ne_none t

omit [DecidableEq T] [DecidableEq M] [DecidableEq Q] in
/-- A thread does not wait for a mutex that it owns: it would wait for itself. -/
theorem owner_not_waiting {m : Mem T M Q} {t : T} {mu : M} (hq : QueueInv m)
    (hn : Acyclic (waitsFor m)) (ht : t ∈ m.queue (.mutex mu)) : (m.mutex mu).owner ≠ some t :=
  fun ho => hn t (.single ((waitsFor_eq hq ((hq.mem t _).mp ht)).trans ho))

/-- **Exclusion and ownership.** A mutex has an owner if and only if its count is at least 1 and if
and only if one list of owned mutexes, that of the owner, links it, once. The count is by how much
the locks of the owner exceed its unlocks, which for other threads are as many. A thread on the
wait queue is there once and is pending for this mutex, which it does not own. An unlock by a
thread that is not the owner fails and changes nothing. -/
theorem mutex_ownership
    (h : ReachableVia (system port prio : System (State T M Q N) _)
      (fun s a => SafeDeinit s a ∧ ShallowLock s a) s) :
    (∀ mu, ((s.mem.mutex mu).owner ≠ none ↔ 1 ≤ (s.mem.mutex mu).lockCount.toNat) ∧
      ((s.mem.mutex mu).owner ≠ none ↔ ∃! t, mu ∈ (s.mem.thread t).ownedMutexes) ∧
      ∀ t, (s.mem.thread t).ownedMutexes.count mu =
        if (s.mem.mutex mu).owner = some t then 1 else 0) ∧
    (∀ t mu, s.mem.hist.locks t mu = s.mem.hist.unlocks t mu +
      if (s.mem.mutex mu).owner = some t then (s.mem.mutex mu).lockCount.toNat else 0) ∧
    (∀ t mu, t ∈ s.mem.queue (.mutex mu) → (s.mem.queue (.mutex mu)).count t = 1 ∧
      (s.mem.thread t).waitQ = some (.mutex mu) ∧ (s.mem.thread t).waitingMutex = some mu ∧
      (s.mem.thread t).state = .pending ∧ (s.mem.mutex mu).owner ≠ some t) ∧
    ∀ t mu s', step port s (.step (.thread t)) = some s' →
      (s.call (.thread t) = .unlockEnter mu → (s.mem.mutex mu).initialized = true →
        s'.call (.thread t) = .unlockLock mu ∧ s'.mem = s.mem) ∧
      (s.call (.thread t) = .unlockLock mu → (s.mem.mutex mu).owner ≠ some t →
        s'.call (.thread t) = .done (-EPERM) ∧ s'.mem = s.mem) := by
  have hi := syncInv_of_reachable (fun _ _ h => h.1) h
  have hn := acyclic_of_reachable (fun _ _ h => h.1) h
  have hc := countInv_of_reachable h
  refine ⟨fun mu => ⟨hc.counted mu, hi.owners.existsUnique mu, fun t => hi.owners.count t mu⟩,
    hc.balance, fun t mu ht => ?_, fun t mu s' hs => ⟨fun hp hinit => ?_, fun hp ho => ?_⟩⟩
  · have hw := (hi.queues.mem t _).mp ht
    exact ⟨List.count_eq_one_of_mem (hi.queues.nodup _) ht, hw, (hi.queues.waiting t mu).mpr hw,
      hi.queues.pending t (by rw [hw]; exact Option.some_ne_none _),
      owner_not_waiting hi.queues hn ht⟩
  · cases step_cases hs with
    | step _ hstep =>
      rw [hp, callStep, hinit] at hstep
      cases hstep
      exact ⟨by rw [State.setCall_call, if_pos rfl], rfl⟩
  · cases step_cases hs with
    | step _ hstep =>
      rw [hp] at hstep
      simp only [callStep, Caller.current, Option.map_some, osMutexUnlockCritical,
        if_pos ho] at hstep
      cases hstep
      exact ⟨by rw [State.setCall_call, if_pos rfl], rfl⟩

/-- A thread locks a mutex twice, another waits for it and has its priority raised, and a third
calls unlock. -/
def contendedRun : List (Act Nat Nat Unit Unit) :=
  callSteps (.thread 0) (.lock 0 OS_WAIT_FOREVER) 3 ++
    callSteps (.thread 0) (.lock 0 OS_WAIT_FOREVER) 3 ++
    callSteps (.thread 1) (.lock 0 OS_WAIT_FOREVER) 3 ++
    callSteps (.task ()) (.setPriority 1 5) 2 ++ callSteps (.thread 2) (.unlock 0) 1

theorem mutex_ownership_contended : ∃ s s' : State Nat Nat Unit Unit,
    exec (system ⟨8, 32⟩ fun _ => 1) (.initial ⟨8, 32⟩ fun _ => 1) contendedRun = some s ∧
    s.mem.hist.locks 0 0 = s.mem.hist.unlocks 0 0 + 2 ∧ (s.mem.thread 1).state = .pending ∧
    step ⟨8, 32⟩ s (.step (.thread 2)) = some s' ∧
    s'.call (.thread 2) = .done (-EPERM) ∧ s'.mem = s.mem := by
  obtain ⟨s, hs, hcall, ho, hcount, hmem, hnext⟩ := exists_of_exec contendedRun
    (M := system ⟨8, 32⟩ fun _ => 1) (s := .initial ⟨8, 32⟩ fun _ => 1)
    (P := fun s => s.call (.thread 2) = .unlockLock 0 ∧ (s.mem.mutex 0).owner = some 0 ∧
      (s.mem.mutex 0).lockCount = 2 ∧ 1 ∈ s.mem.queue (.mutex 0) ∧
      (step ⟨8, 32⟩ s (.step (.thread 2))).isSome) (by decide +kernel)
  obtain ⟨s', hs'⟩ := Option.isSome_iff_exists.mp hnext
  obtain ⟨-, hbalance, hqueue, hunlock⟩ := mutex_ownership
    (reachableVia_of_execOk contendedRun
      (fun s a (h : (noDeinit s a && shallowLock s a) = true) =>
        (Bool.and_eq_true_iff.mp h).imp .of_noDeinit .of_shallowLock)
      (State.init_initial ⟨8, 32⟩ fun _ => 1) (by decide +kernel) hs)
  have hheld := hbalance 0 0
  rw [if_pos ho, hcount] at hheld
  obtain ⟨hdone, hmem'⟩ := (hunlock 2 0 s' hs').2 hcall (by rw [ho]; decide)
  exact ⟨s, s', hs, hheld, (hqueue 1 0 hmem).2.2.2.1, hs', hdone, hmem'⟩

end

end HazelOsal.FreeRtos
