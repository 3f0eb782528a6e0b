import HazelOsal.FreeRtos.Invariant
import HazelOsal.Library.Chains

/-! # Deadlock

The wait-for graph sends a thread to the owner of the mutex it waits for. The walk of
`os_mutex_would_deadlock_locked` follows it from the owner of a mutex. Where the walk finds no
deadlock the caller's new edge closes no cycle, so that the graph is acyclic in every reachable
state. -/

namespace HazelOsal.FreeRtos

open Relation TransitionSystem

variable {T M Q N : Type} [DecidableEq T] [DecidableEq N]

/-- The thread that a thread waits for. -/
def waitsFor (m : Mem T M Q) (t : T) : Option T :=
  (m.thread t).waitingMutex.bind fun mu => (m.mutex mu).owner

section
variable {m m' : Mem T M Q} {t u : T} {mu : M} {owner : Option T} {rounds : Nat}

omit [DecidableEq T] in
theorem waitsFor_eq_some : waitsFor m t = some u ↔
    ∃ mu, (m.thread t).waitingMutex = some mu ∧ (m.mutex mu).owner = some u :=
  Option.bind_eq_some_iff

/-! ## The walk -/

theorem wouldDeadlockFrom_some (h : osMutexWouldDeadlockFrom m t (rounds + 1) (some u) = false) :
    u ≠ t ∧ osMutexWouldDeadlockFrom m t rounds (waitsFor m u) = false := by
  rw [osMutexWouldDeadlockFrom] at h
  split at h
  case isTrue => cases h
  case isFalse hne =>
    refine ⟨hne, ?_⟩
    split at h
    case h_1 hw =>
      rw [waitsFor, hw]
      cases rounds <;> rfl
    case h_2 mu hw => rwa [waitsFor, hw]

/-- **Where the walk finds no deadlock, the owner does not lead to the caller.** -/
theorem not_leads_of_wouldDeadlockFrom
    (h : osMutexWouldDeadlockFrom m t rounds (some u) = false) :
    ¬ ReflTransGen (Leads (waitsFor m)) u t := by
  induction rounds generalizing u with
  | zero => cases h
  | succ rounds ih =>
    obtain ⟨hne, h⟩ := wouldDeadlockFrom_some h
    intro hut
    rcases ReflTransGen.cases_head hut with he | ⟨v, huv, hvt⟩
    · exact hne he
    · rw [huv] at h
      exact ih h hvt

theorem not_leads_of_wouldDeadlock (h : osMutexWouldDeadlockLocked m t mu = false)
    (ho : (m.mutex mu).owner = some u) : ¬ ReflTransGen (Leads (waitsFor m)) u t := by
  rw [osMutexWouldDeadlockLocked, ho] at h
  exact not_leads_of_wouldDeadlockFrom h

/-- **A walk that can see the whole chain finds a deadlock only if the caller is on it.** -/
theorem mem_of_wouldDeadlockFrom {l : List T} (hl : Trail (waitsFor m) owner l)
    (hlen : l.length ≤ rounds) (h : osMutexWouldDeadlockFrom m t rounds owner = true) :
    t ∈ l := by
  induction rounds generalizing owner l with
  | zero =>
    cases hl with
    | nil => cases h
    | cons => cases hlen
  | succ rounds ih =>
    cases hl with
    | nil => cases h
    | @cons u l hl =>
      rw [osMutexWouldDeadlockFrom] at h
      split at h
      case isTrue he => exact he ▸ List.mem_cons_self
      case isFalse =>
        split at h
        case h_1 => cases h
        case h_2 mu hw =>
          rw [waitsFor, hw] at hl
          exact List.mem_cons_of_mem _ (ih hl (Nat.le_of_succ_le_succ hlen) h)

end

/-! ## The wait-for graph is acyclic -/

variable [DecidableEq M] [DecidableEq Q]

section
variable {port : Port} {prio : T → Int} {s s' : State T M Q N} {a : Act T M Q N}

section
omit [DecidableEq T] [DecidableEq M] [DecidableEq Q]

theorem waitsFor_iff {m : Mem T M Q} {t u : T} (hq : QueueInv m) : waitsFor m t = some u ↔
    ∃ mu, (m.thread t).waitQ = some (.mutex mu) ∧ (m.mutex mu).owner = some u := by
  rw [waitsFor_eq_some]
  exact exists_congr fun mu => and_congr_left' (hq.waiting t mu)

theorem waitsFor_eq {m : Mem T M Q} {t : T} {mu : M} (hq : QueueInv m)
    (h : (m.thread t).waitQ = some (.mutex mu)) : waitsFor m t = (m.mutex mu).owner := by
  rw [waitsFor, (hq.waiting t mu).mpr h]
  rfl

/-- A thread on no wait queue of a mutex waits for nobody. -/
theorem waitsFor_none {m : Mem T M Q} {t : T} (hq : QueueInv m)
    (h : ∀ mu, (m.thread t).waitQ ≠ some (.mutex mu)) : waitsFor m t = none := by
  rw [Option.eq_none_iff_forall_ne_some]
  intro u hu
  obtain ⟨mu, hw, -⟩ := (waitsFor_iff hq).mp hu
  exact h mu hw

theorem waitsFor_congr {m m' : Mem T M Q} {t : T} (hq : QueueInv m) (hq' : QueueInv m')
    (hw : (m'.thread t).waitQ = (m.thread t).waitQ) (hm : m'.mutex = m.mutex) :
    waitsFor m' t = waitsFor m t := by
  refine Option.ext fun u => ?_
  rw [waitsFor_iff hq, waitsFor_iff hq', hw, hm]

end

omit [DecidableEq N] in
/-- A step of a call keeps the graph acyclic. -/
theorem Effect.acyclic {c : Caller T N} {m' : Mem T M Q} {p' : Pc T M Q}
    (he : Effect port c s.mem (s.call c) m' p') (h : SyncInv s) (hq' : QueueInv m')
    (hn : Acyclic (waitsFor s.mem)) : Acyclic (waitsFor m') := by
  rcases he.waits with ⟨hw, -⟩ | ⟨t, q, hc, -, hm, hd, hw⟩
  · refine hn.of_edges fun a b hab => ?_
    obtain ⟨mu, ha, ho⟩ := (waitsFor_iff hq').mp hab
    rcases he.mutexes.owner ho with ho | ⟨hc, -, hp, -⟩
    · exact .inl ((waitsFor_eq h.queues (hw a _ ha)).trans ho)
    · -- the new owner of a mutex waits for nobody
      refine .inr (waitsFor_none hq' fun mu hb => ?_)
      have hb := h.calls b _ (hw b _ hb)
      rw [← hc, hp] at hb
      cases hb
  · -- the caller comes to wait for the owner of a mutex, or for nobody
    have ht : (m'.thread t).waitQ = some q := by rw [hw, if_pos rfl]
    have hold {a} (ha : a ≠ t) : waitsFor m' a = waitsFor s.mem a :=
      waitsFor_congr h.queues hq' (by rw [hw, if_neg ha]) hm
    by_cases hnone : waitsFor m' t = none
    · refine hn.of_edges fun a b hab => ?_
      by_cases ha : a = t
      · rw [Leads, ha, hnone] at hab
        cases hab
      · rw [Leads, hold ha] at hab
        exact .inl hab
    · obtain ⟨b, hb⟩ := Option.ne_none_iff_exists'.mp hnone
      obtain ⟨mu, hq, ho⟩ := (waitsFor_iff hq').mp hb
      obtain ⟨-, -, hd⟩ := hd mu (Option.some.inj (ht.symm.trans hq))
      rw [hm] at ho
      have hlink : waitsFor m' = Function.update (waitsFor s.mem) t (some b) := by
        funext a
        rw [Function.update_apply]
        split
        case isTrue ha => rw [ha, hb]
        case isFalse ha => exact hold ha
      rw [hlink]
      exact hn.link (not_leads_of_wouldDeadlock hd ho)

/-- **The wait-for graph is acyclic.** -/
theorem acyclic_of_reachable {ok : State T M Q N → Act T M Q N → Prop}
    (hok : ∀ s a, ok s a → SafeDeinit s a)
    (h : ReachableVia (system port prio : System (State T M Q N) _) ok s) :
    Acyclic (waitsFor s.mem) := by
  refine h.induction (I := fun s => Acyclic (waitsFor s.mem))
    (fun s (h : Init port prio s) t ht => ?_) fun s a s' hr hn ha hs => ?_
  · obtain ⟨u, hu, -⟩ := TransGen.head'_iff.mp ht
    rw [Leads, waitsFor, h.thread] at hu
    cases hu
  · have hi := syncInv_of_reachable hok hr
    have hi' := hi.step (hok _ _ ha) hs
    cases step_cases hs with
    | call | expire | tick => exact hn
    | step _ hstep => exact (callStep_effect hstep).acyclic hi hi'.queues hn

/-! ## The first critical section of `os_mutex_lock` -/

theorem lockTry_deadlk {m : Mem T M Q} {t u : T} {mu : M} {timeout : UInt32} {start : Nat}
    (ho : (m.mutex mu).owner = some u) (hne : u ≠ t) (ht : timeout ≠ 0)
    (hd : osMutexWouldDeadlockLocked m t mu = true) :
    osMutexLockTry port m t mu timeout start = (m.forget t, .ret (-EDEADLK)) := by
  have hd : osMutexWouldDeadlockLocked (m.forget t) t mu = true := wouldDeadlock_forget.trans hd
  simp [osMutexLockTry, ho, hne, ht, hd]

theorem wouldDeadlock_of_lockTry {m : Mem T M Q} {t : T} {mu : M} {timeout : UInt32} {start : Nat}
    (h : (osMutexLockTry port m t mu timeout start).2 = .ret (-EDEADLK)) :
    osMutexWouldDeadlockLocked m t mu = true := by
  by_contra hd
  have hd : ¬ osMutexWouldDeadlockLocked (m.forget t) t mu = true := by
    rwa [wouldDeadlock_forget]
  simp only [osMutexLockTry] at h
  rw [if_neg hd] at h
  split_ifs at h <;> cases h

/-- A step of a thread at the first critical section. -/
theorem step_lockTry {t : T} {mu : M} {timeout : UInt32} {start : Nat}
    (hc : s.call (.thread t) = .lockTry mu timeout start)
    (hs : step port s (.step (.thread t)) = some s') :
    s'.mem = (osMutexLockTry port s.mem t mu timeout start).1 ∧
      s'.call (.thread t) =
        match (osMutexLockTry port s.mem t mu timeout start).2 with
        | .ret result => .done result
        | .wait remaining => .lockNotifyWait mu timeout start remaining := by
  cases step_cases hs with
  | step _ h =>
    rw [hc] at h
    cases h
    exact ⟨rfl, by rw [State.setCall_call, if_pos rfl]; rfl⟩

/-- **No deadlock is formed, and deadlock is reported exactly.** -/
theorem deadlock_excluded
    (h : ReachableVia (system port prio : System (State T M Q N) _) SafeDeinit s) :
    Acyclic (waitsFor s.mem) ∧
      ∀ t mu timeout start, s.call (.thread t) = .lockTry mu timeout start → timeout ≠ 0 →
        ∀ s', step port s (.step (.thread t)) = some s' →
          (∀ u, (s.mem.mutex mu).owner = some u → u ≠ t →
            ReflTransGen (Leads (waitsFor s.mem)) u t →
              s'.call (.thread t) = .done (-EDEADLK) ∧ s'.mem.queue = s.mem.queue ∧
                s'.mem.mutex = s.mem.mutex ∧ s'.mem.thread = s.mem.thread ∧
                s'.mem.uxPriority = s.mem.uxPriority) ∧
          ∀ l, Trail (waitsFor s.mem) (s.mem.mutex mu).owner l →
            l.length ≤ OS_PI_MAX_CHAIN_DEPTH → s'.call (.thread t) = .done (-EDEADLK) → t ∈ l := by
  refine ⟨acyclic_of_reachable (fun _ _ => id) h, fun t mu timeout start hc ht s' hs => ?_⟩
  obtain ⟨hmem, hcall⟩ := step_lockTry hc hs
  refine ⟨fun u ho hne hut => ?_, fun l hl hlen hr => ?_⟩
  · have hd : osMutexWouldDeadlockLocked s.mem t mu = true := by
      by_contra hd
      exact not_leads_of_wouldDeadlock (Bool.eq_false_iff.mpr hd) ho hut
    rw [lockTry_deadlk ho hne ht hd] at hmem hcall
    rw [hmem]
    exact ⟨hcall, rfl, rfl, rfl, rfl⟩
  · have hres : (osMutexLockTry port s.mem t mu timeout start).2 = .ret (-EDEADLK) := by
      rw [hr] at hcall
      split at hcall
      case h_1 result hres => cases hcall; exact hres
      case h_2 => cases hcall
    exact mem_of_wouldDeadlockFrom hl hlen (wouldDeadlock_of_lockTry hres)

/-- Each of two threads locks a mutex, one waits for the other's, and the other tries its. -/
def crossingRun : List (Act Nat Nat Unit Unit) :=
  callSteps (.thread 0) (.lock 0 OS_WAIT_FOREVER) 3 ++
    callSteps (.thread 1) (.lock 1 OS_WAIT_FOREVER) 3 ++
    callSteps (.thread 0) (.lock 1 OS_WAIT_FOREVER) 3 ++
    callSteps (.thread 1) (.lock 0 OS_WAIT_FOREVER) 2

theorem deadlock_excluded_crossing : ∃ s s' : State Nat Nat Unit Unit,
    exec (system ⟨8, 32⟩ fun _ => 1) (.initial ⟨8, 32⟩ fun _ => 1) crossingRun = some s ∧
    step ⟨8, 32⟩ s (.step (.thread 1)) = some s' ∧
    s'.call (.thread 1) = .done (-EDEADLK) ∧ s'.mem.queue = s.mem.queue := by
  obtain ⟨s, hs, hc, ho, hw, hnext⟩ := exists_of_exec crossingRun
    (M := system ⟨8, 32⟩ fun _ => 1) (s := .initial ⟨8, 32⟩ fun _ => 1)
    (P := fun s => s.call (.thread 1) = .lockTry 0 OS_WAIT_FOREVER 0 ∧
      (s.mem.mutex 0).owner = some 0 ∧ waitsFor s.mem 0 = some 1 ∧
      (step ⟨8, 32⟩ s (.step (.thread 1))).isSome) (by decide +kernel)
  obtain ⟨s', hs'⟩ := Option.isSome_iff_exists.mp hnext
  obtain ⟨-, h⟩ := deadlock_excluded
    (reachableVia_of_execOk crossingRun (fun _ _ => SafeDeinit.of_noDeinit)
      (State.init_initial ⟨8, 32⟩ fun _ => 1) (by decide +kernel) hs)
  obtain ⟨h, -⟩ := h 1 0 OS_WAIT_FOREVER 0 hc (by decide) s' hs'
  obtain ⟨hcall, hqueue, -⟩ := h 0 ho (by decide) (.single hw)
  exact ⟨s, s', hs, hs', hcall, hqueue⟩

end

end HazelOsal.FreeRtos
