import HazelOsal.Thread.System

/-! # A thread is reaped exactly once

`Stage` is the life of an incarnation as its joiners and deleters see it: at most one of them at a
time has the turn, and whoever reaps the thread keeps it. The object, the semaphore and the points
of the callers agree with the stage, as long as the object is created again only when the task of
the incarnation before has ended. -/

namespace HazelOsal.Thread

open TransitionSystem

variable {T N : Type} [DecidableEq T] [DecidableEq N]

/-- What the users of one incarnation of a thread may rely on in a state. -/
structure ReapedOnce (backend : Backend) (target : T) (s : State T N) : Prop where
  reap_once : s.mem.reaps s.mem.current ≤ 1
  /-- The semaphore is there when a join takes it, … -/
  take_alive : ∀ c k timeout, s.call c = .joinTake k timeout ∨ s.call c = .joinWaiting k timeout →
    (s.mem.completion (joinSem backend s.mem k)).handle = true
  /-- … when the thread gives it, … -/
  give_alive : ∀ k, s.mem.task k = .completed →
    ∃ j, s.mem.object.completionHandle = some j ∧ (s.mem.completion j).handle = true
  /-- … and when it is detached or deleted. -/
  detach_alive : ∀ c k, s.call c = .reap k → (s.mem.completion s.mem.current).handle = true
  delete_alive : ∀ c k, s.call c = .reapDelete k → (s.mem.completion k).handle = true
  one_turn : ∀ c d, (s.call c).phase ≠ none → (s.call d).phase ≠ none → c = d
  turn_iff : s.mem.object.joinActive = true ↔ ∃ c, (s.call c).phase ≠ none
  /-- Where a join or a delete has returned 0 the entry function has returned. -/
  after_entry : ∀ k, s.mem.joined k = true → (s.mem.task k).completes = true
  /-- Once the thread has signalled and nobody has the turn, every call returns 0. -/
  reapable : s.mem.object.completionSignaled = true → (∀ c, (s.call c).phase = none) →
    ∀ c op, (s.call c).free = true → c.inIsr = false → c.current ≠ some target →
    ∃ n t, exec (system backend target) s (callSteps c op n) = some t ∧ t.call c = .done 0
  /-- Whoever has the turn then goes on with it, and the thread goes on to signal. -/
  goes_on : ∀ c, (s.call c).phase ≠ none → s.mem.object.completionSignaled = true →
    ((program backend target).act s (.step c)).isSome = true
  exits : s.mem.object.completionSignaled = false →
    ((program backend target).act s (.event (.task s.mem.current))).isSome = true

/-- The object is not created again. -/
def NoCreate (_ : State T N) (a : Act T N) : Prop := a ≠ .event .create

/-- Who has the turn to join or delete. -/
inductive Stage (C : Type) where
  | free
  | held (c : C) (phase : Phase)
  | reaped

namespace Stage

variable {C : Type} [DecidableEq C]

def phase (stage : Stage C) (c : C) : Option Phase :=
  match stage with
  | .held d phase => if c = d then some phase else none
  | _ => none

/-- `join_active` is set. -/
def active : Stage C → Bool
  | .held _ _ => true
  | _ => false

/-- The thread has been reaped. -/
def isReaped : Stage C → Bool
  | .reaped => true
  | _ => false

/-- The caller whose turn it is goes on to reap, or somebody has reaped. -/
def settled : Stage C → Bool
  | .held _ .joining | .free => false
  | _ => true

/-- The reap function has taken its first step. -/
def reaping : Stage C → Bool
  | .held _ .detached | .reaped => true
  | _ => false

omit [DecidableEq C] in
/-- Nobody reaps before the thread has given the semaphore. -/
theorem not_reaping {stage : Stage C} (h : stage.settled = false) :
    stage.reaping = false ∧ stage.isReaped = false := by
  cases stage with
  | free => exact ⟨rfl, rfl⟩
  | held c phase => cases phase <;> first | exact ⟨rfl, rfl⟩ | cases h
  | reaped => cases h

theorem phase_eq_some {stage : Stage C} {c : C} {phase : Phase} (h : stage.phase c = some phase) :
    stage = .held c phase := by
  cases stage with
  | free | reaped => cases h
  | held d p =>
    obtain ⟨rfl, hp⟩ := Option.ite_none_right_eq_some.mp h
    rw [Option.some.inj hp]

end Stage

/-- The incarnations before the present one are over, and the flags that its task sets are its
own. -/
structure TaskInv (m : Mem) : Prop where
  completed : m.object.completed = (m.task m.current).completes
  signaled : m.object.completionSignaled = (m.task m.current).signals
  born : m.task m.current ≠ .unborn
  later : ∀ k, m.current < k → m.task k = .unborn
  earlier : ∀ k < m.current, m.task k = .ended

/-- The object, the semaphore and the callers agree with the stage of the present incarnation. -/
structure Agrees (s : State T N) (stage : Stage (Caller T N)) : Prop where
  phase : ∀ c, s.phase Pc.phase c = (stage.phase c).map (·, s.mem.current)
  joinActive : s.mem.object.joinActive = stage.active
  completionReaped : s.mem.object.completionReaped = stage.isReaped
  handle : s.mem.object.completionHandle = if stage.isReaped then none else some s.mem.current
  reaps : s.mem.reaps s.mem.current = stage.reaping.toNat
  joined : s.mem.joined s.mem.current = true → stage.isReaped = true
  alive : stage.reaping = false → (s.mem.completion s.mem.current).handle = true
  count : stage.settled = false →
    (s.mem.completion s.mem.current).count = (s.mem.task s.mem.current).gave.toNat
  gave : stage.settled = true → (s.mem.task s.mem.current).gave = true

/-- The semaphores that are still to be deleted, and the records of the other incarnations. -/
structure DeleteInv (s : State T N) : Prop where
  alive : ∀ c k, s.phase Pc.deleting c = some k → (s.mem.completion k).handle = true
  le : ∀ c k, s.phase Pc.deleting c = some k →
    k < s.mem.current ∨ k = s.mem.current ∧ s.mem.object.completionReaped = true
  unique : ∀ c d k, s.phase Pc.deleting c = some k → s.phase Pc.deleting d = some k → c = d
  reaps : ∀ k, s.mem.reaps k ≤ 1
  later : ∀ k, s.mem.current < k → s.mem.reaps k = 0 ∧ s.mem.joined k = false

/-- The invariant of a thread object. -/
structure ThreadInv (s : State T N) : Prop where
  task : TaskInv s.mem
  agrees : ∃ stage, Agrees s stage
  delete : DeleteInv s

/-- The object is created again only when the task of the present incarnation has ended. -/
def CreateEnded (s : State T N) (a : Act T N) : Prop :=
  a = .event .create → s.mem.task s.mem.current = .ended

section
variable {backend : Backend} {self : T} {s s' : State T N} {c : Caller T N} {m m' : Mem}
  {p' : Pc} {a : Act T N} {k : Nat} {stage stage' : Stage (Caller T N)} {phase : Phase}

theorem initial_inv (hm : s.mem = .initial) (hcall : ∀ c, s.call c = .idle) : ThreadInv s where
  task := by
    rw [hm]
    refine ⟨rfl, rfl, by decide, fun k hk => ?_, fun k hk => absurd hk (Nat.not_lt_zero _)⟩
    exact if_neg (Nat.ne_of_gt hk)
  agrees := by
    refine ⟨.free, fun c => ?_, ?_, ?_, ?_, ?_, fun h => ?_, ?_, ?_, fun h => ?_⟩
    · rw [Callers.phase, hcall]; rfl
    all_goals rw [hm] at *
    · rfl
    · rfl
    · rfl
    · rfl
    · cases h
    · exact fun _ => rfl
    · exact fun _ => rfl
    · cases h
  delete := by
    have hnone (c k) : s.phase Pc.deleting c ≠ some k := by
      rw [Callers.phase, hcall]
      exact fun h => by cases h
    refine ⟨fun c k h => absurd h (hnone c k), fun c k h => absurd h (hnone c k),
      fun c d k h => absurd h (hnone c k), ?_, ?_⟩
    all_goals rw [hm]
    · exact fun _ => Nat.zero_le _
    · exact fun _ _ => ⟨rfl, rfl⟩

theorem TaskInv.call (h : TaskInv m) {p : Pc} (he : Effect backend m p m' p') : TaskInv m' := by
  obtain ⟨htask, hcurrent, hcompleted, hsignaled⟩ := he.frame
  constructor
  · rw [hcompleted, htask, hcurrent]; exact h.completed
  · rw [hsignaled, htask, hcurrent]; exact h.signaled
  · rw [htask, hcurrent]; exact h.born
  · rw [htask, hcurrent]; exact h.later
  · rw [htask, hcurrent]; exact h.earlier

theorem TaskInv.gave_of_signaled (h : TaskInv m) (hs : m.object.completionSignaled = true) :
    (m.task m.current).gave = true := by
  rw [h.signaled] at hs
  generalize m.task m.current = task at hs
  cases task <;> first | rfl | cases hs

theorem joinSem_current : joinSem backend m m.current = m.current := by
  cases backend <;> rfl

/-! ## Whose turn it is -/

/-- The caller whose turn it is, and its incarnation. -/
theorem Agrees.eq_held (h : Agrees s stage) (hc : s.phase Pc.phase c = some (phase, k)) :
    stage = .held c phase ∧ k = s.mem.current := by
  rw [h.phase] at hc
  obtain ⟨phase', hphase, he⟩ := Option.map_eq_some_iff.mp hc
  cases he
  exact ⟨Stage.phase_eq_some hphase, rfl⟩

theorem Agrees.eq_held_of_ne (h : Agrees s stage) (hc : (s.call c).phase ≠ none) :
    ∃ phase, stage = .held c phase := by
  obtain ⟨⟨phase, k⟩, hphase⟩ := Option.ne_none_iff_exists'.mp hc
  exact ⟨phase, (h.eq_held hphase).1⟩

/-- Where the tests of a join succeed nobody has the turn. -/
theorem Agrees.eq_free (h : Agrees s stage) (hr : s.mem.object.completionReaped = false)
    (hk : s.mem.object.completionHandle = some k) (ha : s.mem.object.joinActive = false) :
    stage = .free ∧ k = s.mem.current := by
  rw [h.completionReaped] at hr
  rw [h.joinActive] at ha
  rw [h.handle, hr] at hk
  refine ⟨?_, (Option.some.inj hk).symm⟩
  cases stage with
  | free => rfl
  | held => cases ha
  | reaped => cases hr

/-- The turn changes hands: nobody but `c` has it before or after. -/
theorem Agrees.phase_set (h : Agrees s stage) (hm : m'.current = s.mem.current)
    (ho : ∀ d, d ≠ c → stage.phase d = none) (ho' : ∀ d, d ≠ c → stage'.phase d = none)
    (hp' : p'.phase = (stage'.phase c).map (·, s.mem.current)) (d : Caller T N) :
    (s.set c m' p').phase Pc.phase d =
      (stage'.phase d).map (·, (s.set c m' p').mem.current) := by
  rw [Callers.set_phase, Function.update_apply, Callers.set_mem, hm]
  split
  case isTrue hd => rw [hp', hd]
  case isFalse hd => rw [h.phase, ho d hd, ho' d hd]

theorem Stage.phase_held_ne {d : Caller T N} (hd : d ≠ c) : (Stage.held c phase).phase d = none :=
  if_neg hd

theorem Stage.phase_held : (Stage.held c phase).phase c = some phase := if_pos rfl

/-! ## The steps of the callers -/

/-- A step that leaves the turn where it is, and the object and the semaphore alone. -/
theorem Agrees.quiet (h : Agrees s stage) (hp' : p'.phase = s.phase Pc.phase c) :
    Agrees (s.set c s.mem p') stage :=
  { h with phase := by rw [Callers.set_phase_same _ _ _ _ _ hp']; exact h.phase }

theorem DeleteInv.quiet (h : DeleteInv s) (hm : m'.current = s.mem.current)
    (hd : s.phase Pc.deleting c = none) (hd' : p'.deleting = none)
    (halive : ∀ j, (∃ d, s.phase Pc.deleting d = some j) →
      (m'.completion j).handle = (s.mem.completion j).handle)
    (hr : s.mem.object.completionReaped = true → m'.object.completionReaped = true)
    (hreaps : m'.reaps = s.mem.reaps) (hj : ∀ k, m'.current < k → m'.joined k = s.mem.joined k) :
    DeleteInv (s.set c m' p') := by
  have hsame : (s.set c m' p').phase Pc.deleting = s.phase Pc.deleting :=
    Callers.set_phase_same _ _ _ _ _ (hd'.trans hd.symm)
  constructor
  · intro d k hk
    rw [hsame] at hk
    exact (halive k ⟨d, hk⟩).trans (h.alive d k hk)
  · intro d k hk
    rw [hsame] at hk
    exact hm ▸ (h.le d k hk).imp_right fun ⟨he, hreaped⟩ => ⟨he, hr hreaped⟩
  · intro d e k hk he
    rw [hsame] at hk he
    exact h.unique d e k hk he
  · exact hreaps ▸ h.reaps
  · intro k hk
    obtain ⟨hzero, hfalse⟩ := h.later k (hm ▸ hk)
    exact ⟨(congrFun hreaps k).trans hzero, (hj k hk).trans hfalse⟩

/-- A caller takes the turn that nobody has. -/
theorem Agrees.activate (h : Agrees s .free) (hp' : p'.phase = some (phase, s.mem.current))
    (hg : phase ≠ .joining → (s.mem.task s.mem.current).gave = true) (hd : phase ≠ .detached) :
    Agrees (s.set c { s.mem with object := s.mem.object.activate } p') (.held c phase) where
  phase := by
    refine h.phase_set rfl (fun _ _ => rfl) (fun _ hd => Stage.phase_held_ne hd) ?_
    rw [hp', Stage.phase_held]
    rfl
  joinActive := rfl
  completionReaped := h.completionReaped
  handle := h.handle
  reaps := by cases phase <;> first | exact h.reaps | exact absurd rfl hd
  joined hj := absurd (h.joined hj) Bool.false_ne_true
  alive _ := h.alive rfl
  count _ := h.count rfl
  gave hs := hg fun he => by rw [he] at hs; cases hs

/-- A join gives the turn back. -/
theorem Agrees.abandon (h : Agrees s (.held c .joining)) (hp' : p'.phase = none) :
    Agrees (s.set c { s.mem with object := s.mem.object.abandon } p') .free where
  phase := by
    refine h.phase_set rfl (fun _ hd => Stage.phase_held_ne hd) (fun _ _ => rfl) ?_
    rw [hp']
    rfl
  joinActive := rfl
  completionReaped := h.completionReaped
  handle := h.handle
  reaps := h.reaps
  joined := h.joined
  alive _ := h.alive rfl
  count _ := h.count rfl
  gave hs := by cases hs

/-- A join takes the token, which is there because the task has given it. -/
theorem Agrees.take (h : Agrees s (.held c .joining)) {sem : OsSem 1}
    (ht : (s.mem.completion s.mem.current).tryTake = some sem)
    (hp' : p'.phase = some (.reaping, s.mem.current)) :
    Agrees (s.set c (s.mem.setCompletion s.mem.current sem) p') (.held c .reaping) := by
  obtain ⟨hhandle, hcount⟩ := OsSem.tryTake_eq_some ht
  refine ⟨?_, h.joinActive, h.completionReaped, h.handle, h.reaps,
    fun hj => absurd (h.joined hj) Bool.false_ne_true, fun _ => ?_, fun hs => (by cases hs),
    fun _ => ?_⟩
  · refine h.phase_set rfl (fun _ hd => Stage.phase_held_ne hd)
      (fun _ hd => Stage.phase_held_ne hd) ?_
    rw [hp', Stage.phase_held]
    rfl
  · have hself : (s.mem.setCompletion s.mem.current sem).completion s.mem.current = sem :=
      Function.update_self ..
    exact (congrArg OsSem.handle hself).trans (hhandle.trans (h.alive rfl))
  · have hgave := h.count rfl
    rw [hcount] at hgave
    cases hg : (s.mem.task s.mem.current).gave with
    | true => exact hg
    | false => rw [hg] at hgave; cases hgave

/-- On FreeRTOS the critical section comes first. -/
theorem reapStep_freeRtos (h : Agrees s (.held c .reaping)) :
    reapStep .freeRtos s.mem s.mem.current =
      ({ s.mem.countReap s.mem.current with object := s.mem.object.reap },
        .reapDelete s.mem.current) := by
  have hhandle : (s.mem.countReap s.mem.current).object.completionHandle = some s.mem.current :=
    h.handle
  simp only [reapStep, hhandle]
  rfl

/-- The incarnation is reaped. -/
theorem Agrees.reap (h : Agrees s (.held c .reaping)) (hp' : p'.phase = none) :
    Agrees (s.set c { s.mem.countReap s.mem.current with object := s.mem.object.reap } p')
      .reaped where
  phase := by
    refine h.phase_set rfl (fun _ hd => Stage.phase_held_ne hd) (fun _ _ => rfl) ?_
    rw [hp']
    rfl
  joinActive := rfl
  completionReaped := rfl
  handle := rfl
  reaps := (Function.update_self ..).trans (congrArg (· + 1) h.reaps)
  joined _ := rfl
  alive hr := by cases hr
  count hs := by cases hs
  gave _ := h.gave rfl

/-- On RT-Thread the semaphore goes first. -/
theorem Agrees.detach (h : Agrees s (.held c .reaping))
    (hp' : p'.phase = some (.detached, s.mem.current)) :
    Agrees (s.set c ((s.mem.countReap s.mem.current).setCompletion s.mem.current
      (s.mem.completion s.mem.current).deinit) p') (.held c .detached) where
  phase := by
    refine h.phase_set rfl (fun _ hd => Stage.phase_held_ne hd)
      (fun _ hd => Stage.phase_held_ne hd) ?_
    rw [hp', Stage.phase_held]
    rfl
  joinActive := h.joinActive
  completionReaped := h.completionReaped
  handle := h.handle
  reaps := (Function.update_self ..).trans (congrArg (· + 1) h.reaps)
  joined := h.joined
  alive hr := by cases hr
  count hs := by cases hs
  gave _ := h.gave rfl

theorem Agrees.reapCritical (h : Agrees s (.held c .detached)) (hp' : p'.phase = none) :
    Agrees (s.set c ({ s.mem with object := s.mem.object.reap }.setJoined s.mem.current) p')
      .reaped where
  phase := by
    refine h.phase_set rfl (fun _ hd => Stage.phase_held_ne hd) (fun _ _ => rfl) ?_
    rw [hp']
    rfl
  joinActive := rfl
  completionReaped := rfl
  handle := rfl
  reaps := h.reaps
  joined _ := rfl
  alive hr := by cases hr
  count hs := by cases hs
  gave _ := h.gave rfl

/-- The semaphore of a reaped incarnation is deleted. -/
theorem Agrees.reapDelete (h : Agrees s stage)
    (hk : k < s.mem.current ∨ k = s.mem.current ∧ s.mem.object.completionReaped = true)
    (hp : s.phase Pc.phase c = none) :
    Agrees (s.set c ((s.mem.setCompletion k (s.mem.completion k).deinit).setJoined k) (.done 0))
      stage := by
  have hquiet : Agrees (s.set c s.mem (.done 0)) stage := h.quiet hp.symm
  have hother (hr : stage.isReaped = false) : s.mem.current ≠ k := by
    rintro rfl
    rcases hk with hlt | ⟨-, hreaped⟩
    · exact Nat.lt_irrefl _ hlt
    · rw [h.completionReaped, hr] at hreaped
      cases hreaped
  have hsame (hr : stage.isReaped = false) : (s.mem.setCompletion k
      (s.mem.completion k).deinit).completion s.mem.current = s.mem.completion s.mem.current :=
    Function.update_of_ne (hother hr) ..
  refine { hquiet with joined := fun hj => ?_, alive := fun hr => ?_, count := fun hs => ?_ }
  · cases hr : stage.isReaped with
    | true => rfl
    | false =>
      rw [← h.joined ((Function.update_of_ne (hother hr) ..).symm.trans hj)]
      exact hr.symm
  · have hr' : stage.isReaped = false := by cases stage <;> first | rfl | cases hr
    exact (congrArg OsSem.handle (hsame hr')).trans (h.alive hr)
  · have hr' : stage.isReaped = false := by cases stage <;> first | rfl | cases hs
    exact (congrArg OsSem.count (hsame hr')).trans (h.count hs)

/-- Nobody has still to delete the semaphore of an incarnation that has not been reaped. -/
theorem DeleteInv.ne_current (h : DeleteInv s) (hst : Agrees s stage)
    (hr : stage.isReaped = false) (d : Caller T N) :
    s.phase Pc.deleting d ≠ some s.mem.current := by
  intro hd
  rcases h.le d _ hd with hlt | ⟨-, hreaped⟩
  · exact Nat.lt_irrefl _ hlt
  · rw [hst.completionReaped, hr] at hreaped
    cases hreaped

/-- The present incarnation is reaped for the first time. -/
theorem DeleteInv.countReap (h : DeleteInv s) (hst : Agrees s stage)
    (hr : stage.reaping = false) (k : Nat) :
    (s.mem.countReap s.mem.current).reaps k ≤ 1 ∧
      (s.mem.current < k → (s.mem.countReap s.mem.current).reaps k = 0) := by
  rw [Mem.countReap_reaps]
  have hzero := hst.reaps
  rw [hr] at hzero
  split
  case isTrue hk => exact ⟨Nat.le_of_eq (congrArg (· + 1) hzero), fun hlt => by omega⟩
  case isFalse => exact ⟨h.reaps k, fun hlt => (h.later k hlt).1⟩

/-- A caller that has reaped the incarnation has still to delete its semaphore. -/
theorem DeleteInv.reap (h : DeleteInv s) (hst : Agrees s (.held c .reaping)) :
    DeleteInv (s.set c { s.mem.countReap s.mem.current with object := s.mem.object.reap }
      (.reapDelete s.mem.current)) := by
  have hne := h.ne_current hst rfl
  have hcount := h.countReap hst rfl
  have hset (d : Caller T N) (m : Mem) :
      (s.set c m (.reapDelete s.mem.current)).phase Pc.deleting d =
        if d = c then some s.mem.current else s.phase Pc.deleting d := by
    rw [Callers.set_phase]
    exact Function.update_apply ..
  constructor
  · intro d k hd
    rw [hset] at hd
    split at hd
    case isTrue =>
      cases hd
      exact hst.alive rfl
    case isFalse => exact h.alive d k hd
  · intro d k hd
    rw [hset] at hd
    split at hd
    case isTrue =>
      cases hd
      exact .inr ⟨rfl, rfl⟩
    case isFalse => exact (h.le d k hd).imp_right fun ⟨he, _⟩ => ⟨he, rfl⟩
  · intro d e k hd he
    rw [hset] at hd he
    split at hd
    case isTrue hdc =>
      split at he
      case isTrue hec => rw [hdc, hec]
      case isFalse => exact absurd (he.trans hd.symm) (hne e)
    case isFalse =>
      split at he
      case isTrue => exact absurd (hd.trans he.symm) (hne d)
      case isFalse => exact h.unique d e k hd he
  · exact fun k => (hcount k).1
  · exact fun k hk => ⟨(hcount k).2 hk, (h.later k hk).2⟩

theorem DeleteInv.detach (h : DeleteInv s) (hst : Agrees s (.held c .reaping))
    (hd : s.phase Pc.deleting c = none) :
    DeleteInv (s.set c ((s.mem.countReap s.mem.current).setCompletion s.mem.current
      (s.mem.completion s.mem.current).deinit) (.reapCritical s.mem.current)) := by
  have hcount := h.countReap hst rfl
  have hquiet : DeleteInv (s.set c (s.mem.setCompletion s.mem.current
      (s.mem.completion s.mem.current).deinit) (.reapCritical s.mem.current)) := by
    refine h.quiet rfl hd rfl (fun j ⟨d, hj⟩ => ?_) id rfl fun _ _ => rfl
    rw [Mem.setCompletion_completion, if_neg]
    rintro rfl
    exact h.ne_current hst rfl d hj
  exact
    { hquiet with
      reaps := fun k => (hcount k).1
      later := fun k hk => ⟨(hcount k).2 hk, (h.later k hk).2⟩ }

theorem DeleteInv.reapDelete (h : DeleteInv s) (hd : s.phase Pc.deleting c = some k) :
    DeleteInv (s.set c ((s.mem.setCompletion k (s.mem.completion k).deinit).setJoined k)
      (.done 0)) := by
  have hset {d : Caller T N} {m : Mem} {j : Nat}
      (hj : (s.set c m (.done 0)).phase Pc.deleting d = some j) :
      d ≠ c ∧ s.phase Pc.deleting d = some j := by
    rw [Callers.set_phase, Function.update_apply] at hj
    split at hj
    case isTrue => cases hj
    case isFalse hdc => exact ⟨hdc, hj⟩
  constructor
  · intro d j hj
    obtain ⟨hdc, hj⟩ := hset hj
    have hjk : j ≠ k := fun he => hdc (h.unique d c k (he ▸ hj) hd)
    have hsame : (s.mem.setCompletion k (s.mem.completion k).deinit).completion j =
        s.mem.completion j := Function.update_of_ne hjk ..
    exact (congrArg OsSem.handle hsame).trans (h.alive d j hj)
  · exact fun d j hj => h.le d j (hset hj).2
  · exact fun d e j hj he => h.unique d e j (hset hj).2 (hset he).2
  · exact h.reaps
  · intro j hj
    have hjk : j ≠ k := by
      rintro rfl
      have hlt : s.mem.current < j := hj
      rcases h.le c j hd with hk | ⟨rfl, -⟩
      · exact Nat.lt_asymm hlt hk
      · exact Nat.lt_irrefl _ hlt
    exact ⟨(h.later j hj).1, (Function.update_of_ne hjk ..).trans (h.later j hj).2⟩

theorem ThreadInv.callStep (h : ThreadInv s)
    (hs : callStep backend self c s.mem (s.call c) = some (m', p')) :
    ThreadInv (s.set c m' p') := by
  have he := callStep_effect hs
  obtain ⟨stage, hst⟩ := h.agrees
  have ht := h.task
  have hdel := h.delete
  generalize hp : s.call c = p at he
  have ht' : TaskInv (s.set c m' p').mem := ht.call he
  have hphase : s.phase Pc.phase c = p.phase := congrArg Pc.phase hp
  have hdeleting : s.phase Pc.deleting c = p.deleting := congrArg Pc.deleting hp
  cases he with
  | quiet hp' hd hd' =>
    exact ⟨ht', ⟨stage, hst.quiet (hp'.trans hphase.symm)⟩,
      hdel.quiet rfl (hdeleting.trans hd) hd' (fun _ _ => rfl) id rfl fun _ _ => rfl⟩
  | zero hp' hd hr =>
    refine ⟨ht', ⟨stage, ?_⟩, hdel.quiet rfl (hdeleting.trans hd) rfl (fun _ _ => rfl) id rfl ?_⟩
    · have hquiet : Agrees (s.set c s.mem (.done 0)) stage := hst.quiet (hp'.symm.trans hphase.symm)
      exact { hquiet with joined := fun _ => hst.completionReaped ▸ hr }
    · exact fun k hk => Function.update_of_ne (Nat.ne_of_gt hk) ..
  | @joinBegin k timeout hb =>
    obtain ⟨hreaped, hhandle, hactive⟩ := Object.test_eq_ok hb
    obtain ⟨rfl, rfl⟩ := hst.eq_free hreaped hhandle hactive
    refine ⟨ht', ⟨_, hst.activate rfl (fun hne => absurd rfl hne) (by decide)⟩, ?_⟩
    exact hdel.quiet rfl hdeleting rfl (fun _ _ => rfl) id rfl fun _ _ => rfl
  | @deleteBegin k hb =>
    obtain ⟨hreaped, hhandle, hbusy⟩ := Object.test_eq_ok hb
    simp only [Bool.or_eq_false_iff, Bool.not_eq_false'] at hbusy
    obtain ⟨⟨-, hsignaled⟩, hactive⟩ := hbusy
    obtain ⟨rfl, rfl⟩ := hst.eq_free hreaped hhandle hactive
    refine ⟨ht', ⟨_, hst.activate rfl (fun _ => ht.gave_of_signaled hsignaled) (by decide)⟩, ?_⟩
    exact hdel.quiet rfl hdeleting rfl (fun _ _ => rfl) id rfl fun _ _ => rfl
  | @take p k sem hp' hd _ htake =>
    obtain ⟨rfl, rfl⟩ := hst.eq_held (hphase.trans hp')
    rw [joinSem_current] at htake ht' ⊢
    refine ⟨ht', ⟨_, hst.take htake rfl⟩, hdel.quiet rfl (hdeleting.trans hd) rfl
      (fun j _ => ?_) id rfl fun _ _ => rfl⟩
    have hhandle := (OsSem.tryTake_eq_some htake).1
    rw [Mem.setCompletion_completion]
    split
    case isTrue hj => rw [hhandle, hj]
    case isFalse => rfl
  | abandon =>
    obtain ⟨rfl, -⟩ := hst.eq_held hphase
    refine ⟨ht', ⟨_, hst.abandon rfl⟩, ?_⟩
    exact hdel.quiet rfl hdeleting rfl (fun _ _ => rfl) id rfl fun _ _ => rfl
  | reap k =>
    obtain ⟨rfl, rfl⟩ := hst.eq_held hphase
    cases backend with
    | freeRtos =>
      rw [reapStep_freeRtos hst] at ht' ⊢
      exact ⟨ht', ⟨_, hst.reap rfl⟩, hdel.reap hst⟩
    | rtThread => exact ⟨ht', ⟨_, hst.detach rfl⟩, hdel.detach hst hdeleting⟩
  | reapDelete k => exact ⟨ht', ⟨_, hst.reapDelete (hdel.le c k hdeleting) hphase⟩,
      hdel.reapDelete hdeleting⟩
  | reapCritical k =>
    obtain ⟨rfl, rfl⟩ := hst.eq_held hphase
    refine ⟨ht', ⟨_, hst.reapCritical rfl⟩, ?_⟩
    exact hdel.quiet rfl hdeleting rfl (fun _ _ => rfl) (fun _ => rfl) rfl fun k hk =>
      Function.update_of_ne (Nat.ne_of_gt hk) ..

/-! ## The steps of the task -/

/-- What the task leaves alone. -/
structure TaskFrame (m m' : Mem) : Prop where
  current : m'.current = m.current
  joinActive : m'.object.joinActive = m.object.joinActive
  completionReaped : m'.object.completionReaped = m.object.completionReaped
  handle : m'.object.completionHandle = m.object.completionHandle
  reaps : m'.reaps = m.reaps
  joined : m'.joined = m.joined
  alive : ∀ k, (m'.completion k).handle = (m.completion k).handle

theorem taskStep_frame (h : m.taskStep k = some m') : TaskFrame m m' := by
  simp only [Mem.taskStep] at h
  split at h
  case h_5 =>
    split at h
    case h_1 j hj =>
      cases h
      refine ⟨rfl, rfl, rfl, rfl, rfl, rfl, fun i => ?_⟩
      rw [Mem.setTask, Mem.setCompletion_completion]
      split
      case isTrue hi => rw [OsSem.give_handle, hi]
      case isFalse => rfl
    case h_2 => cases h; exact ⟨rfl, rfl, rfl, rfl, rfl, rfl, fun _ => rfl⟩
  all_goals cases h
  all_goals exact ⟨rfl, rfl, rfl, rfl, rfl, rfl, fun _ => rfl⟩

theorem Agrees.task (h : Agrees s stage) (hf : TaskFrame s.mem m')
    (hcount : stage.settled = false →
      (m'.completion m'.current).count = (m'.task m'.current).gave.toNat)
    (hgave : stage.settled = true → (m'.task m'.current).gave = true) :
    Agrees { s with mem := m' } stage where
  phase c := by rw [hf.current]; exact h.phase c
  joinActive := hf.joinActive.trans h.joinActive
  completionReaped := hf.completionReaped.trans h.completionReaped
  handle := by rw [hf.current]; exact hf.handle.trans h.handle
  reaps := by rw [hf.reaps, hf.current]; exact h.reaps
  joined hj := by rw [hf.joined, hf.current] at hj; exact h.joined hj
  alive hr := by rw [hf.alive, hf.current]; exact h.alive hr
  count := hcount
  gave := hgave

omit [DecidableEq T] [DecidableEq N] in
theorem DeleteInv.task (h : DeleteInv s) (hf : TaskFrame s.mem m') :
    DeleteInv { s with mem := m' } where
  alive c k hk := (hf.alive k).trans (h.alive c k hk)
  le c k hk := by rw [hf.current, hf.completionReaped]; exact h.le c k hk
  unique := h.unique
  reaps := by rw [hf.reaps]; exact h.reaps
  later k hk := by
    rw [hf.current] at hk
    rw [hf.reaps, hf.joined]
    exact h.later k hk

/-- The task of the present incarnation moves on. -/
theorem TaskInv.set (h : TaskInv m) {task : Task} (hcurrent : m'.current = m.current)
    (htask : m'.task = Function.update m.task m.current task) (hne : task ≠ .unborn)
    (hc : m'.object.completed = task.completes)
    (hs : m'.object.completionSignaled = task.signals) : TaskInv m' := by
  have hself : m'.task m'.current = task := by rw [htask, hcurrent, Function.update_self]
  have hother {k} (hk : k ≠ m.current) : m'.task k = m.task k := by
    rw [htask, Function.update_of_ne hk]
  refine ⟨hc.trans (congrArg _ hself.symm), hs.trans (congrArg _ hself.symm),
    fun he => hne (hself.symm.trans he), fun k hk => ?_, fun k hk => ?_⟩
  · rw [hcurrent] at hk
    exact (hother (Nat.ne_of_gt hk)).trans (h.later k hk)
  · rw [hcurrent] at hk
    exact (hother (Nat.ne_of_lt hk)).trans (h.earlier k hk)

/-- Only the task of the present incarnation has anything left to do. -/
theorem TaskInv.eq_current (h : TaskInv m) (hs : m.taskStep k = some m') : k = m.current := by
  rcases Nat.lt_trichotomy k m.current with hk | hk | hk
  · rw [Mem.taskStep, h.earlier k hk] at hs
    cases hs
  · exact hk
  · rw [Mem.taskStep, h.later k hk] at hs
    cases hs

theorem ThreadInv.taskStep (h : ThreadInv s) (hs : s.mem.taskStep k = some m') :
    ThreadInv { s with mem := m' } := by
  have hf := taskStep_frame hs
  obtain ⟨stage, hst⟩ := h.agrees
  have ht := h.task
  obtain rfl := ht.eq_current hs
  have hcompleted := ht.completed
  have hsignaled := ht.signaled
  -- a step that neither gives nor takes back what has been given
  have hkeep {task : Task} (htask : m'.task = Function.update s.mem.task s.mem.current task)
      (hgave : task.gave = (s.mem.task s.mem.current).gave)
      (hc : m'.completion = s.mem.completion) : Agrees { s with mem := m' } stage := by
    have hself : (m'.task m'.current).gave = (s.mem.task s.mem.current).gave := by
      rw [htask, hf.current, Function.update_self, hgave]
    refine hst.task hf (fun hset => ?_) fun hset => ?_
    · rw [hself, hc, hf.current]; exact hst.count hset
    · rw [hself]; exact hst.gave hset
  simp only [Mem.taskStep] at hs
  split at hs
  case h_1 | h_2 => cases hs
  case h_3 hcur =>
    rw [hcur] at hcompleted hsignaled
    cases hs
    refine ⟨ht.set rfl rfl (by decide) hcompleted hsignaled, ⟨stage, hkeep rfl ?_ rfl⟩,
      h.delete.task hf⟩
    rw [hcur]; rfl
  case h_4 hcur =>
    rw [hcur] at hsignaled
    cases hs
    refine ⟨ht.set rfl rfl (by decide) rfl hsignaled, ⟨stage, hkeep rfl ?_ rfl⟩, h.delete.task hf⟩
    rw [hcur]; rfl
  case h_5 hcur =>
    rw [hcur] at hcompleted hsignaled
    have hset : stage.settled = false := by
      by_contra hset
      have hgave := hst.gave (Bool.not_eq_false _ ▸ hset)
      rw [hcur] at hgave
      cases hgave
    obtain ⟨hr, hreaped⟩ := Stage.not_reaping hset
    have hhandle : s.mem.object.completionHandle = some s.mem.current := by
      rw [hst.handle, hreaped]; rfl
    simp only [hhandle] at hs
    cases hs
    refine ⟨ht.set rfl rfl (by decide) hcompleted hsignaled,
      ⟨stage, hst.task hf (fun _ => ?_) fun hgave => ?_⟩, h.delete.task hf⟩
    · have hzero := hst.count hset
      rw [hcur] at hzero
      have hgive : ((s.mem.completion s.mem.current).give).count = 1 := by
        rw [OsSem.give_count_of_handle (hst.alive hr), hzero]; rfl
      have htask : Function.update s.mem.task s.mem.current .given s.mem.current = .given :=
        Function.update_self ..
      have hself : Function.update s.mem.completion s.mem.current
          (s.mem.completion s.mem.current).give s.mem.current =
          (s.mem.completion s.mem.current).give := Function.update_self ..
      exact (congrArg OsSem.count hself).trans
        (hgive.trans (congrArg (fun task => task.gave.toNat) htask.symm))
    · rw [hset] at hgave
      cases hgave
  case h_6 hcur =>
    rw [hcur] at hcompleted
    cases hs
    refine ⟨ht.set rfl rfl (by decide) hcompleted rfl, ⟨stage, hkeep rfl ?_ rfl⟩, h.delete.task hf⟩
    rw [hcur]; rfl
  case h_7 hcur =>
    rw [hcur] at hcompleted hsignaled
    cases hs
    refine ⟨ht.set rfl rfl (by decide) hcompleted hsignaled, ⟨stage, hkeep rfl ?_ rfl⟩,
      h.delete.task hf⟩
    rw [hcur]; rfl

/-! ## A new incarnation -/

theorem ThreadInv.create (h : ThreadInv s) (hj : s.mem.joined s.mem.current = true)
    (he : s.mem.task s.mem.current = .ended) : ThreadInv { s with mem := s.mem.create } := by
  obtain ⟨stage, hst⟩ := h.agrees
  have hreaped := hst.joined hj
  have hnone (c : Caller T N) : s.phase Pc.phase c = none := by
    rw [hst.phase]
    cases stage <;> first | rfl | cases hreaped
  have hlater := h.delete.later (s.mem.current + 1) (Nat.lt_succ_self _)
  have htask : s.mem.create.task (s.mem.current + 1) = .entry := Function.update_self ..
  have hsem : s.mem.create.completion (s.mem.current + 1) = .init := Function.update_self ..
  have hother {k} (hk : k ≠ s.mem.current + 1) : s.mem.create.task k = s.mem.task k ∧
      s.mem.create.completion k = s.mem.completion k :=
    ⟨Function.update_of_ne hk .., Function.update_of_ne hk ..⟩
  have hle {c k} (hk : s.phase Pc.deleting c = some k) : k < s.mem.current + 1 := by
    rcases h.delete.le c k hk with hlt | ⟨rfl, -⟩
    · exact Nat.lt_succ_of_lt hlt
    · exact Nat.lt_succ_self _
  refine ⟨⟨?_, ?_, ?_, fun k hk => ?_, fun k hk => ?_⟩, ⟨.free, ?_⟩, ?_⟩
  case refine_1 => exact (congrArg Task.completes htask).symm
  case refine_2 => exact (congrArg Task.signals htask).symm
  case refine_3 => exact fun hu => Task.noConfusion (htask.symm.trans hu)
  case refine_4 =>
    rw [(hother (Nat.ne_of_gt hk)).1]
    exact h.task.later k (Nat.lt_of_succ_lt hk)
  case refine_5 =>
    rw [(hother (Nat.ne_of_lt hk)).1]
    rcases Nat.lt_or_eq_of_le (Nat.le_of_lt_succ hk) with hlt | rfl
    · exact h.task.earlier k hlt
    · exact he
  case refine_6 =>
    refine ⟨fun c => hnone c, rfl, rfl, rfl, hlater.1, fun hj' => ?_, fun _ => ?_, fun _ => ?_,
      fun hs => by cases hs⟩
    · exact absurd (hlater.2.symm.trans hj') Bool.false_ne_true
    · exact congrArg OsSem.handle hsem
    · exact (congrArg OsSem.count hsem).trans (congrArg (fun task => task.gave.toNat) htask).symm
  case refine_7 =>
    refine ⟨fun c k hk => ?_, fun c k hk => .inl (hle hk), h.delete.unique, h.delete.reaps,
      fun k hk => h.delete.later k (Nat.lt_of_succ_lt hk)⟩
    exact (congrArg OsSem.handle (hother (Nat.ne_of_lt (hle hk))).2).trans (h.delete.alive c k hk)

/-- **Every step keeps the lifecycle**, if the object is not created again too early. -/
theorem ThreadInv.move (h : ThreadInv s) (hok : CreateEnded s a)
    (hs : (program backend self).Move s a s') : ThreadInv s' := by
  have hmove {c p'} (hp' : p'.phase = s.phase Pc.phase c) (hd : s.phase Pc.deleting c = none)
      (hd' : p'.deleting = none) : ThreadInv (s.set c s.mem p') := by
    obtain ⟨stage, hst⟩ := h.agrees
    exact ⟨h.task, ⟨stage, hst.quiet hp'⟩,
      h.delete.quiet rfl hd hd' (fun _ _ => rfl) id rfl fun _ _ => rfl⟩
  cases hs with
  | @call c op hfree =>
    have hp : (s.call c).phase = none ∧ (s.call c).deleting = none := by
      generalize s.call c = p at hfree
      cases p <;> first | exact ⟨rfl, rfl⟩ | cases hfree
    refine hmove ?_ hp.2 (by cases op <;> rfl)
    rw [Callers.phase, hp.1]
    cases op <;> rfl
  | step hstep => exact h.callStep hstep
  | expire hexpire =>
    obtain ⟨hp', hd, hd'⟩ := callExpire_eq hexpire
    exact hmove hp' hd hd'
  | @event e m hevent =>
    cases e with
    | task k => exact h.taskStep hevent
    | create =>
      obtain ⟨hj, hm⟩ := Option.ite_none_right_eq_some.mp hevent
      cases hm
      exact h.create hj (hok rfl)

theorem inv_of_reachableVia {ok : State T N → Act T N → Prop}
    (hle : ∀ s a, ok s a → CreateEnded s a) (h : ReachableVia (system backend self) ok s) :
    ThreadInv s :=
  Program.invariant (fun _ hm hcall => initial_inv hm hcall)
    (fun s a _ hi hok hs => hi.move (hle s a hok) hs) h

/-! ## Calls that run alone -/

theorem Agrees.joinBegin_free (h : Agrees s .free) :
    s.mem.object.joinBegin = .ok s.mem.current := by
  simp [Object.joinBegin, Object.test, h.completionReaped, h.handle, h.joinActive, Stage.isReaped,
    Stage.active]

section
omit [DecidableEq N]

theorem solo_reap (hk : m.object.completionHandle = some k) :
    ∃ m', (program (N := N) backend self).solo c 2 m (.reap k) = some (m', .done 0) := by
  cases backend with
  | freeRtos =>
    have hhandle : (m.countReap k).object.completionHandle = some k := hk
    simp [Program.solo, program, Thread.callStep, reapStep, hhandle]
  | rtThread => simp [Program.solo, program, Thread.callStep, reapStep]

theorem solo_join {sem : OsSem 1} {timeout : UInt32} (hi : c.inIsr = false)
    (hs : c.current ≠ some self) (hb : m.object.joinBegin = .ok m.current)
    (ht : (m.completion m.current).tryTake = some sem) :
    ∃ m', (program backend self).solo c 5 m (.joinEnter timeout) = some (m', .done 0) := by
  obtain ⟨-, hk, -⟩ := Object.test_eq_ok hb
  let m₁ : Mem := { m with object := m.object.activate }.setCompletion m.current sem
  obtain ⟨m', hr⟩ : ∃ m', (program backend self).solo c 2 m₁ (.reap m.current) =
      some (m', .done 0) := solo_reap hk
  have henter : (program backend self).step c m (.joinEnter timeout) =
      some (m, .joinBegin timeout) := by
    simp [program, Thread.callStep, hi, hs]
  have hbegin : (program backend self).step c m (.joinBegin timeout) =
      some ({ m with object := m.object.activate }, .joinTake m.current timeout) := by
    simp [program, Thread.callStep, hb]
  have htake : (program backend self).step c { m with object := m.object.activate }
      (.joinTake m.current timeout) =
      some ({ m with object := m.object.activate }.setCompletion m.current sem,
        .reap m.current) := by
    cases backend <;> simp [program, Thread.callStep, joinSem, ht]
  refine ⟨m', (Program.solo_succ henter).trans ((Program.solo_succ hbegin).trans ?_)⟩
  exact (Program.solo_succ htake).trans hr

theorem solo_delete (hi : c.inIsr = false) (hb : m.object.deleteBegin = .ok k) :
    ∃ m', (program backend self).solo c 4 m .deleteEnter = some (m', .done 0) := by
  obtain ⟨-, hk, -⟩ := Object.test_eq_ok hb
  obtain ⟨m', hr⟩ : ∃ m', (program backend self).solo c 2 { m with object := m.object.activate }
      (.reap k) = some (m', .done 0) := solo_reap hk
  have henter : (program backend self).step c m .deleteEnter = some (m, .deleteBegin) := by
    simp [program, Thread.callStep, hi]
  have hbegin : (program backend self).step c m .deleteBegin =
      some ({ m with object := m.object.activate }, .reap k) := by
    simp [program, Thread.callStep, hb]
  exact ⟨m', (Program.solo_succ henter).trans ((Program.solo_succ hbegin).trans hr)⟩

/-- Where the thread has been reaped every call returns 0 at once. -/
theorem solo_reaped (hi : c.inIsr = false) (hs : c.current ≠ some self)
    (hr : m.object.completionReaped = true) (op : Op) :
    ∃ m', (program backend self).solo c 2 m op.entry = some (m', .done 0) := by
  cases op with
  | join timeout =>
    simp [Program.solo, program, Op.entry, Thread.callStep, hi, hs, Object.joinBegin, Object.test,
      hr]
  | delete =>
    simp [Program.solo, program, Op.entry, Thread.callStep, hi, Object.deleteBegin, Object.test, hr]

end

/-- The token of a thread that has signalled is there for whoever has the turn. -/
theorem Agrees.exists_token (h : Agrees s stage) (ht : TaskInv s.mem)
    (hset : stage.settled = false) (hsignaled : s.mem.object.completionSignaled = true) :
    ∃ sem, (s.mem.completion s.mem.current).tryTake = some sem := by
  have hcount := h.count hset
  rw [ht.gave_of_signaled hsignaled] at hcount
  cases htake : (s.mem.completion s.mem.current).tryTake with
  | some sem => exact ⟨sem, rfl⟩
  | none =>
    rw [OsSem.tryTake_eq_none (h.alive (Stage.not_reaping hset).1) htake] at hcount
    cases hcount

theorem ThreadInv.reapable (h : ThreadInv s) (hsignaled : s.mem.object.completionSignaled = true)
    (hfree : ∀ c, (s.call c).phase = none) (c : Caller T N) (op : Op)
    (hc : (s.call c).free = true) (hi : c.inIsr = false) (hs : c.current ≠ some self) :
    ∃ n t, exec (system backend self) s (callSteps c op n) = some t ∧ t.call c = .done 0 := by
  obtain ⟨stage, hst⟩ := h.agrees
  suffices hsolo : ∃ n m', (program backend self).solo c n s.mem op.entry = some (m', .done 0) by
    obtain ⟨n, m', hsolo⟩ := hsolo
    refine ⟨n, _, Program.exec_callSteps hc hsolo, ?_⟩
    rw [Callers.set_call, if_pos rfl]
  cases stage with
  | held d phase =>
    have hd := hst.phase d
    rw [Stage.phase_held] at hd
    cases (hfree d).symm.trans hd
  | reaped => exact ⟨2, solo_reaped hi hs hst.completionReaped op⟩
  | free =>
    have hb := hst.joinBegin_free
    cases op with
    | join timeout =>
      obtain ⟨sem, ht⟩ := hst.exists_token h.task rfl hsignaled
      exact ⟨5, solo_join hi hs hb ht⟩
    | delete =>
      have hcompleted : s.mem.object.completed = true := by
        rw [h.task.completed]
        exact Task.completes_of_gave (h.task.gave_of_signaled hsignaled)
      have hdelete : s.mem.object.deleteBegin = .ok s.mem.current := by
        rw [Object.deleteBegin, hcompleted, hsignaled]
        exact hb
      exact ⟨4, solo_delete hi hdelete⟩

theorem ThreadInv.goes_on (h : ThreadInv s) (hc : (s.call c).phase ≠ none)
    (hsignaled : s.mem.object.completionSignaled = true) :
    ((program backend self).act s (.step c)).isSome = true := by
  obtain ⟨stage, hst⟩ := h.agrees
  rw [Program.act, Option.isSome_map]
  have hphase : s.phase Pc.phase c = (s.call c).phase := rfl
  generalize hp : s.call c = p at hc hphase ⊢
  cases p with
  | idle | done | joinEnter | joinBegin | deleteEnter | deleteBegin | reapDelete =>
    exact absurd rfl hc
  | joinTake k timeout =>
    simp only [program, Thread.callStep]
    split <;> rfl
  | joinWaiting k timeout =>
    obtain ⟨rfl, rfl⟩ := hst.eq_held hphase
    obtain ⟨sem, ht⟩ := hst.exists_token h.task rfl hsignaled
    simp only [program, Thread.callStep, joinSem_current, ht]
    rfl
  | joinAbandon | reap | reapCritical => rfl

theorem TaskInv.exits (h : TaskInv m) (hs : m.object.completionSignaled = false) :
    (m.taskStep m.current).isSome = true := by
  have hborn := h.born
  rw [h.signaled] at hs
  rw [Mem.taskStep]
  generalize m.task m.current = task at hborn hs
  cases task with
  | unborn => exact absurd rfl hborn
  | completed => dsimp only; split <;> rfl
  | entry | returned | given => rfl
  | signaled | ended => cases hs

theorem ThreadInv.reapedOnce (h : ThreadInv s) : ReapedOnce backend self s := by
  obtain ⟨stage, hst⟩ := h.agrees
  -- whoever has the turn finds the semaphore there before the reap function deletes it
  have halive {c phase k} (hc : s.phase Pc.phase c = some (phase, k)) (hp : phase ≠ .detached) :
      k = s.mem.current ∧ (s.mem.completion s.mem.current).handle = true := by
    obtain ⟨rfl, hk⟩ := hst.eq_held hc
    exact ⟨hk, hst.alive (by cases phase <;> first | rfl | exact absurd rfl hp)⟩
  constructor
  case reap_once => exact h.delete.reaps _
  case take_alive =>
    intro c k timeout hc
    have hphase : s.phase Pc.phase c = some (.joining, k) := by
      obtain hc | hc := hc <;> exact congrArg Pc.phase hc
    obtain ⟨rfl, hhandle⟩ := halive hphase (by decide)
    rw [joinSem_current]
    exact hhandle
  case give_alive =>
    intro k hk
    obtain rfl : k = s.mem.current := by
      rcases Nat.lt_trichotomy k s.mem.current with hlt | he | hlt
      · cases hk.symm.trans (h.task.earlier k hlt)
      · exact he
      · cases hk.symm.trans (h.task.later k hlt)
    have hset : stage.settled = false := by
      by_contra hset
      have hgave := hst.gave (Bool.not_eq_false _ ▸ hset)
      rw [hk] at hgave
      cases hgave
    obtain ⟨hr, hreaped⟩ := Stage.not_reaping hset
    exact ⟨_, hst.handle.trans (by rw [hreaped]; rfl), hst.alive hr⟩
  case detach_alive => exact fun c k hc => (halive (congrArg Pc.phase hc) (by decide)).2
  case delete_alive => exact fun c k hc => h.delete.alive c k (congrArg Pc.deleting hc)
  case one_turn =>
    intro c d hc hd
    obtain ⟨phase, hc⟩ := hst.eq_held_of_ne hc
    obtain ⟨phase', hd⟩ := hst.eq_held_of_ne hd
    cases hc.symm.trans hd
    rfl
  case turn_iff =>
    rw [hst.joinActive]
    constructor
    · intro ha
      cases stage with
      | held c phase =>
        have hphase := hst.phase c
        rw [Stage.phase_held] at hphase
        exact ⟨c, fun hnone => by cases hnone.symm.trans hphase⟩
      | free | reaped => cases ha
    · rintro ⟨c, hc⟩
      obtain ⟨phase, rfl⟩ := hst.eq_held_of_ne hc
      rfl
  case after_entry =>
    intro k hk
    rcases Nat.lt_trichotomy k s.mem.current with hlt | rfl | hlt
    · rw [h.task.earlier k hlt]
      rfl
    · have hset : stage.settled = true := by
        have hr := hst.joined hk
        cases stage <;> first | rfl | cases hr
      exact Task.completes_of_gave (hst.gave hset)
    · rw [(h.delete.later k hlt).2] at hk
      cases hk
  case reapable => exact h.reapable
  case goes_on => exact fun c hc hs => h.goes_on hc hs
  case exits =>
    intro hs
    rw [Program.act, Option.isSome_map]
    exact h.task.exits hs

/-- **One incarnation of a thread is reaped exactly once**, whoever joins or deletes it. -/
theorem thread_reaped_once (h : ReachableVia (system backend self) NoCreate s) :
    ReapedOnce backend self s :=
  (inv_of_reachableVia (fun _ _ hno he => absurd he hno) h).reapedOnce

end

/-! ## A concrete run -/

/-- A join times out, and a delete is refused while it waits; the thread exits, and another join
reaps it. -/
def joinedRun {T : Type} (u v : T) : List (Act T Unit) :=
  callSteps (Caller.thread u) (Op.join 5) 3 ++ callSteps (Caller.thread v) Op.delete 2 ++
    [CallAct.expire (Caller.thread u), .step (.thread u)] ++
    List.replicate 4 (CallAct.event (Event.task 0)) ++
    callSteps (Caller.thread v) (Op.join 0) 5 ++ callSteps (Caller.thread u) Op.delete 2

theorem thread_reaped_once_joined : ∃ s : State (Fin 3) Unit,
    exec (system .freeRtos 0) ⟨.initial, fun _ => .idle⟩ (joinedRun 1 2) = some s ∧
    s.call (.thread 1) = .done 0 ∧ s.call (.thread 2) = .done 0 ∧ s.mem.reaps 0 = 1 ∧
    ReapedOnce .freeRtos 0 s := by
  obtain ⟨s, hs, hu, hv, hr⟩ := exists_of_exec (joinedRun (1 : Fin 3) 2)
    (M := system .freeRtos 0) (s := ⟨.initial, fun _ => .idle⟩)
    (P := fun s => s.call (.thread 1) = .done 0 ∧ s.call (.thread 2) = .done 0 ∧
      s.mem.reaps 0 = 1) (by decide +kernel)
  refine ⟨s, hs, hu, hv, hr, thread_reaped_once ?_⟩
  have hno (s : State (Fin 3) Unit) (a) (h : (!(a matches .event .create)) = true) :
      NoCreate s a := by
    rintro rfl
    cases h
  exact reachableVia_of_execOk (joinedRun 1 2) hno ⟨rfl, fun _ => rfl⟩ (by decide +kernel) hs

end HazelOsal.Thread
