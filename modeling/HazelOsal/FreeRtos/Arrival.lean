import HazelOsal.FreeRtos.Order

/-! # Waiters of equal priority

A thread that starts to wait for a mutex gets behind the waiters of its own priority, and a step
changes the wait queue of a mutex by moves that keep it in the order of the priorities. A waiter
keeps its turn as long as no walk of `os_mutex_update_pi_chain_locked` comes to it: a walk takes
every thread it comes to out of its wait queue and puts it behind those of its priority, whether its
priority has changed or not. -/

namespace HazelOsal.FreeRtos

open TransitionSystem

variable {T M Q N : Type} [DecidableEq T] [DecidableEq M] [DecidableEq Q] [DecidableEq N]

/-- The threads that the loop of `os_mutex_update_pi_chain_locked` comes to with `rounds` rounds
left: the walk changes neither the owners nor what a thread waits for. -/
def piChainFrom (m : Mem T M Q) : Nat → List T → Option T → List T
  | 0, _, _ => []
  | _ + 1, _, none => []
  | rounds + 1, visited, some t =>
    if t ∈ visited then []
    else
      t ::
        match (m.thread t).waitingMutex with
        | none => []
        | some upstream => piChainFrom m rounds (t :: visited) (m.mutex upstream).owner

/-- The threads that `os_mutex_update_pi_chain_locked` comes to. -/
def piChain (m : Mem T M Q) (start : Option T) : List T :=
  piChainFrom m OS_PI_MAX_CHAIN_DEPTH [] start

/-- The threads that a step puts in their place on the wait queue of a mutex: the one that starts to
wait, and those the walk comes to. -/
def walked (port : Port) (s : State T M Q N) : Act T M Q N → List T
  | .step c =>
    match s.call c, c.current with
    | .lockTry mu timeout start, some t =>
      match (osMutexLockTry port s.mem t mu timeout start).2 with
      | .ret _ => []
      | .wait _ => t :: piChain (osMutexLink (s.mem.forget t) t mu) (s.mem.mutex mu).owner
    | .lockFinish mu .., some t =>
      if (s.mem.thread t).waitQ = none then []
      else piChain (osMutexUnlink s.mem t) (s.mem.mutex mu).owner
    | .setPriorityLock t _, _ => piChain s.mem (some t)
    | .abortLock t, _ =>
      if (s.mem.thread t).completed ∨ (s.mem.thread t).ownedMutexes ≠ [] ∨
        (s.mem.thread t).waitQ = none then []
      else
        piChain (osThreadAbortUnlink s.mem t)
          ((s.mem.thread t).waitingMutex.bind fun mu => (s.mem.mutex mu).owner)
    | _, _ => []
  | _ => []

/-- The wait queue of a mutex, with the priorities. -/
def Mem.line (m : Mem T M Q) (mu : M) : (T → Int) × List T :=
  (osThreadGetPriority m, m.queue (.mutex mu))

/-- Moves on the wait queue of a mutex. -/
abbrev Moves (placed : T → Int → Prop) : (T → Int) × List T → (T → Int) × List T → Prop :=
  Relation.ReflTransGen (Move placed)

section
variable {port : Port} {m m' : Mem T M Q} {t u : T} {mu mu' : M} {q : WaitQ M Q}
  {placed : T → Int → Prop}

/-! ## The operations -/

omit [DecidableEq T] [DecidableEq M] [DecidableEq Q] in
theorem line_congr (hq : m'.queue (.mutex mu) = m.queue (.mutex mu))
    (hu : m'.uxPriority = m.uxPriority)
    (hh : ∀ t, (m'.thread t).handle = (m.thread t).handle) : m'.line mu = m.line mu := by
  rw [Mem.line, Mem.line, hq, getPriority_congr hu hh]

omit [DecidableEq T] [DecidableEq M] [DecidableEq Q] in
theorem SameSync.line (h : SameSync m m') (mu : M) : m'.line mu = m.line mu :=
  line_congr (congrFun h.queue _) h.uxPriority h.handle

omit [DecidableEq M] [DecidableEq Q] in
theorem getPriority_setThread {v : OsThread M Q} (hv : v.handle = (m.thread t).handle) :
    osThreadGetPriority (m.setThread t v) = osThreadGetPriority m := by
  refine getPriority_congr rfl fun u => ?_
  rw [Mem.setThread_thread, Function.update_apply]
  split
  case isTrue he => rw [hv, he]
  case isFalse => rfl

omit [DecidableEq M] [DecidableEq Q] in
theorem unlinkWait_of_not_mem (h : ∀ q, t ∉ m.queue q) : m.unlinkWait t = m := by
  have hqueue : (fun q => (m.queue q).erase t) = m.queue :=
    funext fun q => List.erase_of_not_mem (h q)
  rw [Mem.unlinkWait, hqueue]

omit [DecidableEq M] [DecidableEq Q] in
/-- A thread leaves its wait queue. -/
theorem leave_moves {v : OsThread M Q} (hv : v.handle = (m.thread t).handle) (mu : M) :
    Moves placed (m.line mu) (((m.unlinkWait t).setThread t v).line mu) := by
  have hkey : osThreadGetPriority ((m.unlinkWait t).setThread t v) = osThreadGetPriority m :=
    getPriority_setThread (m := m.unlinkWait t) hv
  have hline : ((m.unlinkWait t).setThread t v).line mu =
      (osThreadGetPriority m, (m.queue (.mutex mu)).erase t) := by
    rw [Mem.line, hkey]
    rfl
  rw [hline]
  exact .single (.leave t)

/-- A thread whose priority is `m'`'s is put in its place. -/
theorem place_moves (hp : placed t (osThreadGetPriority m' t)) (hq : m'.queue = m.queue)
    (hk : ∀ u, u ≠ t → osThreadGetPriority m' u = osThreadGetPriority m u)
    (hother : q ≠ .mutex mu → t ∉ m.queue (.mutex mu)) :
    Moves placed (m.line mu) ((osWaitqInsertPriorityLocked (m'.unlinkWait t) q t).line mu) := by
  have hline : (osWaitqInsertPriorityLocked (m'.unlinkWait t) q t).line mu =
      (osThreadGetPriority m', if q = .mutex mu then
        ((m.queue (.mutex mu)).erase t).orderedInsert
          (fun a b => osThreadGetPriority m' b < osThreadGetPriority m' a) t
        else (m.queue (.mutex mu)).erase t) := by
    rw [Mem.line, osWaitqInsertPriorityLocked, Mem.setQueue_queue, Function.update_apply]
    simp only [Mem.unlinkWait_queue, hq, eq_comm (a := q)]
    congr 1
    split
    case isTrue he => rw [← he]; rfl
    case isFalse => rfl
  rw [hline]
  split
  case isTrue => exact .single (.place hp hk)
  case isFalse hne =>
    rw [List.erase_of_not_mem (hother hne)]
    exact .single (.rekey (hother hne) hk)

/-! ## The walk -/

omit [DecidableEq M] [DecidableEq Q] in
theorem piChainFrom_congr (hw : ∀ t, (m'.thread t).waitingMutex = (m.thread t).waitingMutex)
    (hm : m'.mutex = m.mutex) {rounds : Nat} {visited : List T} {start : Option T} :
    piChainFrom m' rounds visited start = piChainFrom m rounds visited start := by
  induction rounds generalizing visited start with
  | zero => rfl
  | succ rounds ih =>
    cases start with
    | none => rfl
    | some t => simp only [piChainFrom, hw, hm, ih]

omit [DecidableEq M] [DecidableEq Q] in
theorem updatePriority_mutex : (osMutexUpdatePriority port m t).mutex = m.mutex := by
  obtain ⟨uxPriority, he⟩ := updatePriority_eq port m t
  rw [he]

/-- A walk changes the priority of a thread once at most. -/
theorem updatePiChainFrom_priority_of_visited {rounds : Nat} {visited : List T}
    {start : Option T} (hu : u ∈ visited) :
    osThreadGetPriority (osMutexUpdatePiChainFrom port rounds visited m start) u =
      osThreadGetPriority m u := by
  induction rounds generalizing visited m start with
  | zero => rfl
  | succ rounds ih =>
    cases start with
    | none => rfl
    | some t =>
      rw [osMutexUpdatePiChainFrom]
      split
      case isTrue => rfl
      case isFalse hv =>
        have hne : u ≠ t := fun he => hv (he ▸ hu)
        dsimp only
        split
        case h_1 => exact updatePriority_getPriority_of_ne hne
        case h_2 =>
          exact (ih (List.mem_cons_of_mem t hu)).trans (updatePriority_getPriority_of_ne hne)

omit [DecidableEq M] [DecidableEq Q] in
/-- A thread that waits for no mutex gets another priority. -/
theorem QueueInv.rekey_moves (h : QueueInv m) (port : Port)
    (ht : (m.thread t).waitingMutex = none) (mu : M) :
    Moves placed (m.line mu) ((osMutexUpdatePriority port m t).line mu) := by
  have hnot : t ∉ m.queue (.mutex mu) := fun hmem => by
    cases ht.symm.trans (h.waiting_mem.mpr hmem)
  rw [Mem.line, Mem.line, updatePriority_queue]
  exact .single (.rekey hnot fun u hu => updatePriority_getPriority_of_ne hu)

/-- **A walk moves the threads it comes to.** -/
theorem QueueInv.walkFrom_moves {rounds : Nat} {visited : List T} {start : Option T}
    (h : QueueInv m) (hp : ∀ u ∈ piChainFrom m rounds visited start,
      placed u (osThreadGetPriority (osMutexUpdatePiChainFrom port rounds visited m start) u))
    (mu : M) :
    Moves placed (m.line mu)
      ((osMutexUpdatePiChainFrom port rounds visited m start).line mu) := by
  induction rounds generalizing visited m start with
  | zero => exact .refl
  | succ rounds ih =>
    cases start with
    | none => exact .refl
    | some t =>
      rw [piChainFrom, osMutexUpdatePiChainFrom] at hp
      rw [osMutexUpdatePiChainFrom]
      split
      case isTrue => exact .refl
      case isFalse hv =>
        simp only [hv, if_false, updatePriority_thread] at hp ⊢
        split
        case h_1 hw => exact h.rekey_moves port hw mu
        case h_2 upstream hw =>
          simp only [hw] at hp
          have hround := h.round port hw
          generalize hm : osMutexUpdatePriority port m t = m₁ at hp hround ⊢
          have hthread : m₁.thread = m.thread := hm ▸ updatePriority_thread
          have hmutex : m₁.mutex = m.mutex := hm ▸ updatePriority_mutex
          rw [hmutex] at hp ⊢
          have hlast := hp t List.mem_cons_self
          rw [updatePiChainFrom_priority_of_visited List.mem_cons_self] at hlast
          have hplace : Moves placed (m.line mu) ((osMutexRequeue m₁ t upstream).line mu) := by
            refine place_moves (q := .mutex upstream) hlast (hm ▸ updatePriority_queue)
              (fun u hu => hm ▸ updatePriority_getPriority_of_ne hu) fun hne hmem => hne ?_
            cases hw.symm.trans (h.waiting_mem.mpr hmem)
            rfl
          refine hplace.trans (ih hround fun u hu => ?_)
          have hwaiting (v) : ((osMutexRequeue m₁ t upstream).thread v).waitingMutex =
              (m.thread v).waitingMutex := congrArg _ (congrFun hthread v)
          have hmutex : (osMutexRequeue m₁ t upstream).mutex = m.mutex := hmutex
          rw [piChainFrom_congr hwaiting hmutex] at hu
          exact hp u (List.mem_cons_of_mem t hu)

theorem QueueInv.walk_moves {start : Option T} (h : QueueInv m)
    (hp : ∀ u ∈ piChain m start,
      placed u (osThreadGetPriority (osMutexUpdatePiChainLocked port m start) u)) (mu : M) :
    Moves placed (m.line mu) ((osMutexUpdatePiChainLocked port m start).line mu) :=
  h.walkFrom_moves hp mu

omit [DecidableEq T] in
theorem setQueue_plain_queue (q : Q) (l : List T) :
    (m.setQueue (.plain q) l).queue (.mutex mu) = m.queue (.mutex mu) := by
  rw [Mem.setQueue_queue, Function.update_of_ne (fun h => by cases h)]

/-- What happens on a plain wait queue does not concern the mutexes. -/
theorem waitqWakeHead_line {q : Q} {reason : UInt32} :
    (osWaitqWakeHead m q reason).line mu = m.line mu := by
  rcases waitqWakeHead_cases m q reason with he | ⟨t, rest, -, hwake⟩
  · rw [he]
  · rw [hwake.line]
    rw [Mem.line, Mem.line, getPriority_setThread (m := m.setQueue (.plain q) rest) (by rfl)]
    exact Prod.ext rfl (setQueue_plain_queue q rest)

theorem mutexWakeHead_moves (mu : M) :
    Moves placed (m.line mu) ((osMutexWakeHead m mu').line mu) := by
  rcases mutexWakeHead_cases m mu' with he | ⟨t, rest, hl, hwake⟩
  · rw [he]
  · rw [hwake.line]
    have hkey : osThreadGetPriority ((m.setQueue (.mutex mu') rest).setThread t
        { m.thread t with waitQ := none, waitingMutex := none, waitResult := 0, state := .ready }) =
        osThreadGetPriority m :=
      getPriority_setThread (m := m.setQueue (.mutex mu') rest) rfl
    rw [Mem.line, Mem.line, hkey, Mem.setThread_queue, Mem.setQueue_queue, Function.update_apply]
    split
    case isTrue he =>
      rw [he, hl]
      have hpop : rest = (t :: rest).erase t := (List.erase_cons_head ..).symm
      conv_rhs => rw [hpop]
      exact .single (.leave t)
    case isFalse => exact .refl

/-- `os_thread_set_priority` walks; on the wait queue of a mutex it does nothing else. -/
theorem setPriority_line {priority : Int} (h : QueueInv m) (mu : M) :
    (osThreadSetPriorityCritical port m t priority).line mu =
      (osMutexUpdatePiChainLocked port
        (m.setThread t { m.thread t with basePriority := priority }) (some t)).line mu := by
  have hbase := h.setBase t priority
  rw [osThreadSetPriorityCritical]
  generalize m.setThread t { m.thread t with basePriority := priority } = base at hbase ⊢
  have hwalk : QueueInv (osMutexUpdatePiChainLocked port base (some t)) :=
    hbase.perm (fun q => updatePiChain_perm hbase (some t) q) updatePiChain_thread
  generalize osMutexUpdatePiChainLocked port base (some t) = m₁ at hwalk ⊢
  split
  case h_1 q hq hw =>
    have hnot (mu : M) : t ∉ m₁.queue (.mutex mu) := fun hmem => by
      cases hw.symm.trans (hwalk.waiting_mem.mpr hmem)
    have hne : WaitQ.mutex mu ≠ q := by
      rintro rfl
      exact hnot mu ((hwalk.mem t _).mpr hq)
    refine Prod.ext rfl ?_
    show Function.update _ q _ (.mutex mu) = _
    rw [Function.update_of_ne hne]
    exact List.erase_of_not_mem (hnot mu)
  case h_2 => rfl

theorem setPriority_moves {priority : Int} (h : QueueInv m)
    (hp : ∀ u ∈ piChain m (some t),
      placed u (osThreadGetPriority (osThreadSetPriorityCritical port m t priority) u)) (mu : M) :
    Moves placed (m.line mu) ((osThreadSetPriorityCritical port m t priority).line mu) := by
  have hkey : osThreadGetPriority (osThreadSetPriorityCritical port m t priority) = _ :=
    congrArg Prod.fst (setPriority_line h mu)
  have hbase : (m.setThread t { m.thread t with basePriority := priority }).line mu = m.line mu :=
    Prod.ext (getPriority_setThread rfl) rfl
  have hwaiting (u) : ((m.setThread t { m.thread t with basePriority := priority }).thread
      u).waitingMutex = (m.thread u).waitingMutex := by
    rw [Mem.setThread_thread, Function.update_apply]
    split
    case isTrue he => rw [he]
    case isFalse => rfl
  rw [setPriority_line h, ← hbase]
  rw [hkey] at hp
  refine (h.setBase t priority).walk_moves (fun u hu => hp u ?_) mu
  rwa [piChain, piChainFrom_congr hwaiting rfl] at hu

end

/-! ## Steps -/

section
variable {port : Port} {prio : T → Int} {s s' : State T M Q N} {a : Act T M Q N} {c : Caller T N}
  {m' : Mem T M Q} {p' : Pc T M Q} {placed : T → Int → Prop}

omit [DecidableEq N] in
/-- **A step moves the threads that it puts in their place.** -/
theorem callStep_moves (hi : SyncInv s)
    (hstep : callStep port c s.mem (s.call c) = some (m', p'))
    (hp : ∀ u ∈ walked port s (.step c), placed u (osThreadGetPriority s.mem u) ∧
      placed u (osThreadGetPriority m' u)) (mu : M) :
    Moves placed (s.mem.line mu) (m'.line mu) := by
  have he := callStep_effect hstep
  have hhandle := he.handle
  have hsame (hq : m'.queue (.mutex mu) = s.mem.queue (.mutex mu))
      (hu : m'.uxPriority = s.mem.uxPriority) :
      Moves placed (s.mem.line mu) (m'.line mu) := by
    rw [line_congr hq hu hhandle]
  generalize hpc : s.call c = p at he hstep
  cases he with
  | same hs => exact hsame (congrFun hs.sync.queue _) hs.sync.uxPriority
  | delete | refuse | acquire | recurse | awake | unlockNested | deinit | exit =>
    exact hsame rfl rfl
  | @zero mu' =>
    have hnil := hi.queue_nil (hi.zeroing c mu' hpc)
    refine hsame ?_ rfl
    show Function.update s.mem.queue _ [] _ = _
    rw [← hnil, Function.update_eq_self]
  | @enqueue t mu' timeout start remaining hc ho =>
    subst hc
    have hnone : (s.mem.thread t).waitQ = none := hi.waitQ_eq_none (by rw [hpc]; rfl)
    have hnot : ∀ q, t ∉ s.mem.queue q := fun q hmem => by
      cases hnone.symm.trans ((hi.queues.mem t q).mp hmem)
    simp only [walked, hpc, Caller.current] at hp
    split at hp
    case h_1 hr => simp [callStep, Caller.current, hr] at hstep
    case h_2 =>
      have hplace : Moves placed (s.mem.line mu)
          ((osMutexLink (s.mem.forget t) t mu').line mu) := by
        have hkey : osThreadGetPriority ((s.mem.forget t).setThread t
            { s.mem.thread t with
              waitQ := some (.mutex mu')
              waitingMutex := some mu'
              waitResult := 0
              state := .pending }) = osThreadGetPriority s.mem :=
          getPriority_setThread (m := s.mem.forget t) rfl
        have hplaced : placed t (osThreadGetPriority s.mem t) := (hp t List.mem_cons_self).1
        rw [← hkey] at hplaced
        have hmoves : Moves placed (s.mem.line mu) _ :=
          place_moves (q := .mutex mu') hplaced rfl (fun u _ => congrFun hkey u) fun _ => hnot _
        rwa [unlinkWait_of_not_mem] at hmoves
        exact hnot
      exact hplace.trans ((hi.queues.mutexLink hnone mu').walk_moves
        (fun u hu => (hp u (List.mem_cons_of_mem t hu)).2) mu)
  | @abandon t mu' _ _ _ _ hc hw =>
    subst hc
    simp only [walked, hpc, Caller.current, hw, if_false] at hp
    have hleave : Moves placed (s.mem.line mu) ((osMutexUnlink s.mem t).line mu) := by
      refine leave_moves ?_ mu
      rfl
    exact hleave.trans ((hi.queues.mutexUnlink t).walk_moves (fun u hu => (hp u hu).2) mu)
  | @release t mu' hc ho =>
    subst hc
    have hnone : (s.mem.thread t).waitQ = none := hi.waitQ_eq_none (by rw [hpc]; rfl)
    obtain ⟨hnone', hround⟩ := hi.queues.release port mu' hnone
    have hqueues : QueueInv (osMutexWakeHead (osMutexDisown s.mem mu') mu') :=
      (hi.queues.disown mu').mutexWakeHead
    have hwake : Moves placed (s.mem.line mu)
        ((osMutexWakeHead (osMutexDisown s.mem mu') mu').line mu) :=
      mutexWakeHead_moves (m := osMutexDisown s.mem mu') mu
    rw [SameSync.recordUnlock.line, hround]
    exact hwake.trans (hqueues.rekey_moves port (hqueues.not_waiting_of_none hnone') mu)
  | block => exact hsame (setQueue_plain_queue ..) rfl
  | unblock =>
    refine leave_moves ?_ mu
    rfl
  | wakeOne => rw [waitqWakeHead_line]
  | wakeAll =>
    exact wakeAll_induction (P := fun m => Moves placed (s.mem.line mu) (m.line mu)) .refl
      fun m h => by rwa [waitqWakeHead_line]
  | @setPriority t priority =>
    simp only [walked, hpc] at hp
    exact setPriority_moves hi.queues (fun u hu => (hp u hu).2) mu
  | @abortWaiting t _ ho hw =>
    have hleave : Moves placed (s.mem.line mu) ((osThreadAbortUnlink s.mem t).line mu) := by
      rw [osThreadAbortUnlink, SameSync.remove.line]
      refine leave_moves ?_ mu
      rfl
    simp only [walked, hpc, ho, hw, ne_eq, not_true, or_false] at hp
    split at hp
    case isTrue hdone =>
      simp only [callStep, osThreadAbortCritical, if_pos hdone, Option.some.injEq,
        Prod.mk.injEq] at hstep
      rw [← hstep.1]
    case isFalse =>
      have hmark : (osThreadAbortMark (osThreadAbortDequeue port s.mem t) t).line mu =
          (osThreadAbortDequeue port s.mem t).line mu := by
        rw [Mem.line, osThreadAbortMark, getPriority_setThread (by rfl)]
        rfl
      have hkey : osThreadGetPriority (osThreadAbortMark (osThreadAbortDequeue port s.mem t) t) =
          osThreadGetPriority (osThreadAbortDequeue port s.mem t) := congrArg Prod.fst hmark
      rw [hkey] at hp
      rw [hmark]
      exact hleave.trans
        ((hi.queues.abortUnlink t).walk_moves (fun u hu => (hp u hu).2) mu)

theorem step_moves (hi : SyncInv s) (hs : step port s a = some s')
    (hp : ∀ u ∈ walked port s a, placed u (osThreadGetPriority s.mem u) ∧
      placed u (osThreadGetPriority s'.mem u)) (mu : M) :
    Moves placed (s.mem.line mu) (s'.mem.line mu) := by
  cases step_cases hs with
  | call | expire => exact .refl
  | tick => exact .refl
  | step _ hstep => exact callStep_moves hi hstep hp mu

/-- **The wait queue of a mutex is in the order of the priorities** in every reachable state. -/
theorem inOrder_of_reachable
    (h : ReachableVia (system port prio : System (State T M Q N) _) SafeDeinit s) (mu : M) :
    InOrder (s.mem.line mu) := by
  refine h.induction (I := fun s => InOrder (s.mem.line mu))
    (fun s (h : Init port prio s) => ?_) fun s a s' hr ho _ hs => ?_
  · rw [Mem.line, h.queue]
    exact ⟨List.nodup_nil, List.Pairwise.nil⟩
  · have hi := syncInv_of_reachable (fun _ _ h => h) hr
    have hmoves : Moves (fun _ _ => True) (s.mem.line mu) (s'.mem.line mu) :=
      step_moves hi hs (fun _ _ => ⟨trivial, trivial⟩) mu
    exact ho.moves hmoves

/-! ## Turns -/

/-- The steps out of a state in which `t` waits for `mu` and has the priority of `u`: no walk comes
to `t`. -/
structure TurnGuard (port : Port) (mu : M) (t u : T) (priority : Nat) (s : State T M Q N)
    (a : Act T M Q N) : Prop where
  deinit : SafeDeinit s a
  waits : t ∈ s.mem.queue (.mutex mu)
  first : s.mem.uxPriority t = priority
  second : s.mem.uxPriority u = priority
  turn : t ∉ walked port s a

/-- The run lemma. -/
theorem inTurn_of_run {mu : M} {t u : T} {priority : Nat}
    (h : ReachableVia (system port prio : System (State T M Q N) _) SafeDeinit s)
    (hu : u ∉ s.mem.queue (.mutex mu))
    (hrun : Run (system port prio) (TurnGuard port mu t u priority) s s')
    (ht' : s'.mem.uxPriority t = priority) (hu' : s'.mem.uxPriority u = priority) :
    InTurn (priority : Int) t u (s'.mem.line mu) := by
  induction hrun with
  | refl =>
    have hi := syncInv_of_reachable (fun _ _ h => h) h
    refine fun _ => ⟨?_, fun hmem => absurd hmem hu⟩
    rw [Mem.line, getPriority_eq hi.handle]
    exact congrArg _ ht'
  | @tail s₁ a s₂ hr hok hs ih =>
    have hr := hr.mono fun _ _ hok => hok.deinit
    have hi := syncInv_of_reachable (fun _ _ h => h) (h.run hr)
    have hi' := hi.step hok.deinit hs
    have hmoves : Moves (fun v p => v ≠ t ∧ (v = u → p ≤ (priority : Int))) (s₁.mem.line mu)
        (s₂.mem.line mu) := by
      refine step_moves hi hs (fun v hv => ?_) mu
      have hne : v ≠ t := fun he => hok.turn (he ▸ hv)
      rw [getPriority_eq hi.handle, getPriority_eq hi'.handle]
      refine ⟨⟨hne, ?_⟩, hne, ?_⟩
      · rintro rfl
        exact (congrArg _ hok.second).le
      · rintro rfl
        exact (congrArg _ hu').le
    exact (ih hok.first hok.second).moves (inOrder_of_reachable (h.run hr) mu)
      (fun _ hp => hp.1 rfl) (fun _ hp => hp.2 rfl) hmoves

/-- **Waiters of equal priority are served in the order of their arrival**, where no walk comes to
the one that waits longer. -/
theorem equal_waiters_in_turn {mu : M} {t u : T} {priority : Nat}
    (h : ReachableVia (system port prio : System (State T M Q N) _) SafeDeinit s)
    (hu : u ∉ s.mem.queue (.mutex mu))
    (hrun : Run (system port prio) (TurnGuard port mu t u priority) s s')
    (ht' : t ∈ s'.mem.queue (.mutex mu)) (hu' : u ∈ s'.mem.queue (.mutex mu))
    (hfirst : s'.mem.uxPriority t = priority) (hsecond : s'.mem.uxPriority u = priority) :
    [t, u].Sublist (s'.mem.queue (.mutex mu)) ∧
    ∀ c s'', Releases s' c (.mutex mu) → step port s' (.step c) = some s'' →
      u ∈ s''.mem.queue (.mutex mu) := by
  have hturn := (inTurn_of_run h hu hrun hfirst hsecond ht').2 hu'
  refine ⟨hturn, fun c s'' hrel hs => ?_⟩
  have hr := h.run (hrun.mono fun _ _ hok => hok.deinit)
  have hi := syncInv_of_reachable (fun _ _ h => h) hr
  obtain ⟨v, rest, hl⟩ := List.exists_cons_of_ne_nil (List.ne_nil_of_mem hu')
  rw [(releases_head hi hrel hl hs).1]
  have hturn : [t, u].Sublist (v :: rest) := hl ▸ hturn
  cases hturn with
  | cons _ hturn => exact hturn.subset (List.mem_cons_of_mem t List.mem_cons_self)
  | cons_cons _ hturn => exact List.singleton_sublist.mp hturn

/-- A walk that comes to a waiter puts it behind those of its priority, also where that has not
changed. -/
theorem requeue_behind {m : Mem T M Q} {mu : M} {t u : T} (h : InOrder (m.line mu))
    (hu : u ∈ m.queue (.mutex mu)) (hne : u ≠ t)
    (hk : osThreadGetPriority m t ≤ osThreadGetPriority m u) :
    [u, t].Sublist ((osMutexRequeue m t mu).queue (.mutex mu)) := by
  rw [osMutexRequeue, osWaitqInsertPriorityLocked, Mem.setQueue_queue, Function.update_self]
  exact (h.ordered.erase t).sublist_orderedInsert ((List.mem_erase_of_ne hne).mpr hu) hk

end

/-! ## Concrete runs -/

/-- The check of `TurnGuard`. -/
def turnGuard (port : Port) (mu : M) (t u : T) (priority : Nat) (s : State T M Q N)
    (a : Act T M Q N) : Bool :=
  noDeinit s a && t ∈ s.mem.queue (.mutex mu) && s.mem.uxPriority t = priority &&
    s.mem.uxPriority u = priority && t ∉ walked port s a

omit [DecidableEq N] in
theorem TurnGuard.of_turnGuard {port : Port} {mu : M} {t u : T} {priority : Nat}
    {s : State T M Q N} {a : Act T M Q N} (h : turnGuard port mu t u priority s a = true) :
    TurnGuard port mu t u priority s a := by
  simp only [turnGuard, Bool.and_eq_true, decide_eq_true_eq] at h
  obtain ⟨⟨⟨⟨hdeinit, hwaits⟩, hfirst⟩, hsecond⟩, hturn⟩ := h
  exact ⟨.of_noDeinit hdeinit, hwaits, hfirst, hsecond, hturn⟩

/-- Thread 2 has locked the mutex `true`, and thread 0, which has locked the mutex `false`, waits
for it. -/
def firstWaits : List (Act (Fin 4) Bool Unit Unit) :=
  callSteps (.thread 2) (.lock true OS_WAIT_FOREVER) 3 ++
    callSteps (.thread 0) (.lock false OS_WAIT_FOREVER) 3 ++
    callSteps (.thread 0) (.lock true OS_WAIT_FOREVER) 3

/-- Thread 1 waits as well. -/
def secondWaits : List (Act (Fin 4) Bool Unit Unit) :=
  callSteps (.thread 1) (.lock true OS_WAIT_FOREVER) 3

theorem equal_waiters_in_turn_two : ∃ s s' : State (Fin 4) Bool Unit Unit,
    exec (system ⟨8, 32⟩ fun _ => 1) (.initial ⟨8, 32⟩ fun _ => 1) firstWaits = some s ∧
    exec (system ⟨8, 32⟩ fun _ => 1) s secondWaits = some s' ∧
    [0, 1].Sublist (s'.mem.queue (.mutex true)) := by
  obtain ⟨s, hs, hu, hguard, hnext⟩ := exists_of_exec firstWaits
    (M := system ⟨8, 32⟩ fun _ => 1) (s := .initial ⟨8, 32⟩ fun _ => 1)
    (P := fun s : State (Fin 4) Bool Unit Unit => 1 ∉ s.mem.queue (.mutex true) ∧
      execOk (system ⟨8, 32⟩ fun _ => 1) (turnGuard ⟨8, 32⟩ true 0 1 1) s secondWaits = true ∧
      (exec (system ⟨8, 32⟩ fun _ => 1) s secondWaits).any fun s' =>
        0 ∈ s'.mem.queue (.mutex true) ∧ 1 ∈ s'.mem.queue (.mutex true) ∧
        s'.mem.uxPriority 0 = 1 ∧ s'.mem.uxPriority 1 = 1)
    (by decide +kernel)
  obtain ⟨s', hs', hafter⟩ := (Option.any_eq_true ..).mp hnext
  obtain ⟨ht', hu', hfirst, hsecond⟩ := of_decide_eq_true hafter
  have hreach : ReachableVia (system ⟨8, 32⟩ fun _ => 1) SafeDeinit s :=
    reachableVia_of_execOk firstWaits (fun _ _ => SafeDeinit.of_noDeinit)
      (State.init_initial ⟨8, 32⟩ fun _ => 1) (by decide +kernel) hs
  have hrun := run_of_execOk secondWaits (fun _ _ => TurnGuard.of_turnGuard) hguard hs'
  exact ⟨s, s', hs, hs', (equal_waiters_in_turn hreach hu hrun ht' hu' hfirst hsecond).1⟩

/-- Thread 3 waits for the mutex of thread 0. The walk changes no priority, but takes thread 0 out
of the wait queue and puts it behind thread 1, which is served first. -/
theorem not_equal_waiters_in_turn : ∃ s s' s'' : State (Fin 4) Bool Unit Unit,
    exec (system ⟨8, 32⟩ fun _ => 1) (.initial ⟨8, 32⟩ fun _ => 1) (firstWaits ++ secondWaits) =
      some s ∧
    s.mem.queue (.mutex true) = [0, 1] ∧
    execOk (system ⟨8, 32⟩ fun _ => 1)
      (fun s _ => s.mem.uxPriority 0 = 1 && s.mem.uxPriority 1 = 1) s
      (callSteps (.thread 3) (.lock false OS_WAIT_FOREVER) 3 ++
        callSteps (.thread 2) (.unlock true) 2) = true ∧
    exec (system ⟨8, 32⟩ fun _ => 1) s (callSteps (.thread 3) (.lock false OS_WAIT_FOREVER) 3) =
      some s' ∧
    s'.mem.queue (.mutex true) = [1, 0] ∧
    exec (system ⟨8, 32⟩ fun _ => 1) s' (callSteps (.thread 2) (.unlock true) 2) = some s'' ∧
    s''.mem.queue (.mutex true) = [0] := by
  obtain ⟨s, hs, hqueue, hequal, hnext⟩ := exists_of_exec (firstWaits ++ secondWaits)
    (M := system ⟨8, 32⟩ fun _ => 1) (s := .initial ⟨8, 32⟩ fun _ => 1)
    (P := fun s : State (Fin 4) Bool Unit Unit => s.mem.queue (.mutex true) = [0, 1] ∧
      execOk (system ⟨8, 32⟩ fun _ => 1)
        (fun s _ => s.mem.uxPriority 0 = 1 && s.mem.uxPriority 1 = 1) s
        (callSteps (.thread 3) (.lock false OS_WAIT_FOREVER) 3 ++
          callSteps (.thread 2) (.unlock true) 2) = true ∧
      (exec (system ⟨8, 32⟩ fun _ => 1) s
        (callSteps (.thread 3) (.lock false OS_WAIT_FOREVER) 3)).any fun s' =>
        s'.mem.queue (.mutex true) = [1, 0] ∧
        (exec (system ⟨8, 32⟩ fun _ => 1) s' (callSteps (.thread 2) (.unlock true) 2)).any
          fun s'' => s''.mem.queue (.mutex true) = [0])
    (by decide +kernel)
  obtain ⟨s', hs', hafter⟩ := (Option.any_eq_true ..).mp hnext
  obtain ⟨hqueue', hlast⟩ := of_decide_eq_true hafter
  obtain ⟨s'', hs'', hqueue''⟩ := (Option.any_eq_true ..).mp hlast
  exact ⟨s, s', s'', hs, hqueue, hequal, hs', hqueue', hs'', of_decide_eq_true hqueue''⟩

end HazelOsal.FreeRtos
