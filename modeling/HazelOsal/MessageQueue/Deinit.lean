import HazelOsal.MessageQueue.System
import Mathlib.Data.Option.Defs

/-! # Teardown of a message queue

`os_msgq_deinit` tears down the semaphore of the items and then that of the spaces. The RT-Thread
backend refuses to tear down a semaphore that a thread waits for; where it refuses the second one,
the first is gone and the queue is of no use any more, even to another `os_msgq_deinit`. -/

namespace HazelOsal.MessageQueue

open TransitionSystem

/-- What a native semaphore of RT-Thread answers to `os_sem_deinit`: whether a thread is on its
`suspend_thread` list, and whether `rt_sem_detach` returns `RT_EOK`. In the other backends nothing
is asked and nothing is refused. -/
structure Native where
  suspended : Bool
  detached : Bool

/-- The semaphore may be torn down. -/
def Native.idle (native : Native) : Bool := !native.suspended && native.detached

/-- `os_sem_deinit`. -/
def osSemDeinit (inIsr : Bool) (native : Native) (sem : OsSem limit) : OsSem limit × Int :=
  if !sem.handle then (sem, -EINVAL)
  else if inIsr then (sem, -EWOULDBLOCK)
  else if native.suspended then (sem, -EBUSY)
  else if !native.detached then (sem, -EBUSY)
  else (sem.deinit, 0)

/-- The object after `os_common_zero`. -/
def OsMsgq.zero : OsMsgq where
  messageSize := 0
  capacity := 0
  readIndex := 0
  writeIndex := 0
  count := 0
  items := ⟨false, .zero⟩
  spaces := ⟨false, .zero⟩
  initialized := false

/-- `os_msgq_deinit`. -/
def osMsgqDeinit (inIsr : Bool) (items spaces : Native) (msgq : OsMsgq) : OsMsgq × Int :=
  if !msgq.initialized then (msgq, -EINVAL)
  else
    let (sem, result) := osSemDeinit inIsr items msgq.items
    let msgq := { msgq with items := sem }
    if result ≠ 0 then (msgq, result)
    else
      let (sem, result) := osSemDeinit inIsr spaces msgq.spaces
      let msgq := { msgq with spaces := sem }
      if result ≠ 0 then (msgq, result) else (.zero, 0)

variable {T N : Type} [DecidableEq T] [DecidableEq N]

/-- What may happen next to a queue that its users may tear down. -/
inductive DeinitAct (T N : Type) where
  | act (a : Act T N)
  | deinit (c : Caller T N) (items spaces : Native)

/-- A call of `os_msgq_deinit` that succeeds ends the run. -/
def deinitStep (port : Port) (s : State T N) : DeinitAct T N → Option (State T N)
  | .act a => step port s a
  | .deinit c items spaces =>
    if (s.call c).free then
      let (msgq, result) := osMsgqDeinit c.inIsr items spaces s.mem.msgq
      if result = 0 then none else some (s.setCall c { s.mem with msgq } (.done result))
    else none

def deinitSystem (port : Port) (messageSize : Nat) (capacity : UInt32) :
    System (State T N) (DeinitAct T N) where
  init := Init port messageSize capacity
  step := deinitStep port

/-! ## Use and misuse -/

/-- The semaphore a call waits for natively. -/
def Pc.waitsFor : Pc → Option Token
  | .putWaiting .. => some .space
  | .getWaiting .. => some .item
  | _ => none

/-- The native semaphores know who waits for them. -/
structure Fits (s : State T N) (items spaces : Native) : Prop where
  items : items.suspended = true ↔ ∃ c, (s.call c).waitsFor = some .item
  spaces : spaces.suspended = true ↔ ∃ c, (s.call c).waitsFor = some .space

/-- The semaphore of the items may be torn down and that of the spaces may not. -/
def TearsApart (c : Caller T N) (items spaces : Native) : Prop :=
  c.inIsr = false ∧ items.idle = true ∧ spaces.idle = false

/-- No call of `os_msgq_deinit` has torn the queue apart. -/
def Whole (_ : State T N) (a : DeinitAct T N) : Prop :=
  ∀ c items spaces, a = .deinit c items spaces → ¬ TearsApart c items spaces

/-- The states differ in nothing but what a call has returned. -/
structure Alike (s s' : State T N) : Prop where
  mem : s'.mem = s.mem
  call : ∀ d, s'.call d = s.call d ∨ (s.call d).free = true ∧ (s'.call d).free = true

/-- What is promised of a call that has failed between two states: it has changed nothing, the queue
goes on as if it had not been made, and when nobody waits a repeated call succeeds. -/
structure FailsSafe (port : Port) (messageSize : Nat) (capacity : UInt32) (s s' : State T N) :
    Prop where
  mem : s'.mem = s.mem
  later : ∀ as, Option.Rel Alike (exec (system port messageSize capacity) s as)
    (exec (system port messageSize capacity) s' as)
  retry : ∀ as t, exec (system port messageSize capacity) s' as = some t →
    (∀ c, (t.call c).waitsFor = none) → ∀ (d : Caller T N) items spaces, d.inIsr = false →
      Fits t items spaces → items.detached = true → spaces.detached = true →
      (osMsgqDeinit d.inIsr items spaces t.mem.msgq).2 = 0

/-- The queue can be used: both its semaphores are there. -/
structure OsMsgq.Usable (msgq : OsMsgq) : Prop where
  initialized : msgq.initialized = true
  items : msgq.items.handle = true
  spaces : msgq.spaces.handle = true

section
variable {port : Port} {messageSize : Nat} {capacity : UInt32} {s s' t : State T N} {a : Act T N}
  {c : Caller T N} {m m' : Mem T N} {p p' : Pc} {items spaces : Native} {msgq : OsMsgq}
  {inIsr : Bool} {limit : Nat} {sem : OsSem limit}

theorem semDeinit_eq (h : sem.handle = true) : osSemDeinit inIsr items sem =
    if inIsr then (sem, -EWOULDBLOCK)
    else if items.idle then (sem.deinit, 0) else (sem, -EBUSY) := by
  obtain ⟨suspended, detached⟩ := items
  rw [osSemDeinit, h]
  cases inIsr <;> cases suspended <;> cases detached <;> rfl

/-- The three ways a call of `os_msgq_deinit` goes. -/
theorem msgqDeinit_eq (h : msgq.Usable) : osMsgqDeinit inIsr items spaces msgq =
    if inIsr then (msgq, -EWOULDBLOCK)
    else if !items.idle then (msgq, -EBUSY)
    else if !spaces.idle then ({ msgq with items := msgq.items.deinit }, -EBUSY)
    else (.zero, 0) := by
  have hspaces : ({ msgq with items := msgq.items.deinit } : OsMsgq).spaces.handle = true :=
    h.spaces
  rw [osMsgqDeinit, if_neg (by simp [h.initialized]), semDeinit_eq h.items]
  cases inIsr with
  | true => rfl
  | false =>
    cases items.idle with
    | false => rfl
    | true =>
      simp only [semDeinit_eq hspaces]
      cases spaces.idle <;> rfl

/-! ## Runs -/

theorem usable_of_init (h : osMsgqInit port messageSize capacity = .ok msgq) : msgq.Usable := by
  rw [osMsgqInit] at h
  repeat' split at h
  all_goals cases h
  exact ⟨rfl, rfl, rfl⟩

omit [DecidableEq T] [DecidableEq N] in
theorem Effect.usable (h : Effect port c m p m' p') (hu : m.msgq.Usable) : m'.msgq.Usable := by
  obtain ⟨hi, hitems, hspaces⟩ := hu
  cases h with
  | quiet | put | get => exact ⟨hi, hitems, hspaces⟩
  | takeSpace _ ht => exact ⟨hi, hitems, (OsSem.tryTake_eq_some ht).1.trans hspaces⟩
  | takeItem _ ht => exact ⟨hi, (OsSem.tryTake_eq_some ht).1.trans hitems, hspaces⟩
  | giveItem => exact ⟨hi, (OsSem.give_handle _).trans hitems, hspaces⟩
  | giveSpace => exact ⟨hi, hitems, (OsSem.give_handle _).trans hspaces⟩

/-- What the effects on the memory keep, a step does. -/
theorem step_keeps {P : Mem T N → Prop} (hs : step port s a = some s') (h : P s.mem)
    (heffect : ∀ c p m' p', Effect port c s.mem p m' p' → P m') : P s'.mem := by
  cases a with
  | call c op =>
    obtain ⟨-, hs⟩ := Option.ite_none_right_eq_some.mp hs
    cases hs
    exact h
  | step c =>
    obtain ⟨⟨m', p'⟩, hstep, hs⟩ := Option.map_eq_some_iff.mp hs
    cases hs
    exact heffect _ _ _ _ (callStep_effect hstep)
  | expire c =>
    obtain ⟨p', -, hs⟩ := Option.map_eq_some_iff.mp hs
    cases hs
    exact h

theorem usable_step (hs : step port s a = some s') (hu : s.mem.msgq.Usable) :
    s'.mem.msgq.Usable :=
  step_keeps (P := fun m => m.msgq.Usable) hs hu fun _ _ _ _ he => he.usable hu

theorem usable_of_run {ok : State T N → Act T N → Prop}
    (h : Run (system port messageSize capacity) ok s t) (hu : s.mem.msgq.Usable) :
    t.mem.msgq.Usable := by
  induction h with
  | refl => exact hu
  | tail _ _ hs ih => exact usable_step hs ih

/-- What a call that fails does. -/
theorem deinitStep_cases (hu : s.mem.msgq.Usable)
    (hs : deinitStep port s (.deinit c items spaces) = some s') : (s.call c).free = true ∧
    ∃ result, ¬ TearsApart c items spaces ∧ s' = s.setCall c s.mem (.done result) ∨
      TearsApart c items spaces ∧ s'.mem.msgq.items.handle = false := by
  rw [deinitStep, msgqDeinit_eq hu] at hs
  obtain ⟨hfree, hs⟩ := Option.ite_none_right_eq_some.mp hs
  refine ⟨hfree, ?_⟩
  rw [TearsApart]
  generalize c.inIsr = inIsr at hs ⊢
  generalize items.idle = itemsIdle at hs ⊢
  generalize spaces.idle = spacesIdle at hs ⊢
  cases inIsr with
  | true =>
    cases hs
    exact ⟨_, .inl ⟨nofun, rfl⟩⟩
  | false =>
    cases itemsIdle with
    | false =>
      cases hs
      exact ⟨_, .inl ⟨nofun, rfl⟩⟩
    | true =>
      cases spacesIdle with
      | false =>
        cases hs
        exact ⟨0, .inr ⟨⟨rfl, rfl, rfl⟩, rfl⟩⟩
      | true => cases hs

theorem usable_of_reachableVia
    (h : ReachableVia (deinitSystem port messageSize capacity : System (State T N) _) Whole s) :
    s.mem.msgq.Usable := by
  refine h.invariant (I := fun s => s.mem.msgq.Usable)
    (fun s (h : Init port messageSize capacity s) => ?_) fun s a s' _ hu hok hs => ?_
  · exact usable_of_init h.msgq
  · cases a with
    | act a => exact usable_step hs hu
    | deinit c items spaces =>
      have hs : deinitStep port s (.deinit c items spaces) = some s' := hs
      rcases deinitStep_cases hu hs with ⟨-, result, ⟨-, rfl⟩ | ⟨htears, -⟩⟩
      · exact hu
      · exact absurd htears (hok c items spaces rfl)

/-! ## A queue that has been left alone -/

theorem Alike.setCall (h : Alike s s') (c : Caller T N) (m : Mem T N) (p : Pc) :
    Alike (s.setCall c m p) (s'.setCall c m p) := by
  refine ⟨rfl, fun d => ?_⟩
  rw [State.setCall_call, State.setCall_call]
  split
  case isTrue => exact .inl rfl
  case isFalse => exact h.call d

omit [DecidableEq T] [DecidableEq N] in
theorem callStep_of_free (h : p.free = true) : callStep port c m p = none := by
  cases p <;> first | rfl | cases h

omit [DecidableEq T] [DecidableEq N] in
theorem callExpire_of_free (h : p.free = true) : callExpire m p = none := by
  cases p <;> first | rfl | cases h

theorem Alike.step (h : Alike s s') (a : Act T N) :
    Option.Rel Alike (step port s a) (step port s' a) := by
  cases a with
  | call c op =>
    have hfree : (s'.call c).free = (s.call c).free := by
      rcases h.call c with he | ⟨hs, hs'⟩
      · rw [he]
      · rw [hs, hs']
    rw [MessageQueue.step, MessageQueue.step, hfree, h.mem]
    split
    case isTrue => exact .some (h.setCall ..)
    case isFalse => exact .none
  | step c =>
    rw [MessageQueue.step, MessageQueue.step, h.mem]
    rcases h.call c with he | ⟨hs, hs'⟩
    · rw [he]
      cases callStep port c s.mem (s.call c) with
      | none => exact .none
      | some => exact .some (h.setCall ..)
    · rw [callStep_of_free hs, callStep_of_free hs']
      exact .none
  | expire c =>
    rw [MessageQueue.step, MessageQueue.step, h.mem]
    rcases h.call c with he | ⟨hs, hs'⟩
    · rw [he]
      cases callExpire s.mem (s.call c) with
      | none => exact .none
      | some => exact .some (h.setCall ..)
    · rw [callExpire_of_free hs, callExpire_of_free hs']
      exact .none

/-- Alike states go on alike. -/
theorem Alike.exec (h : Alike s s') (as : List (Act T N)) :
    Option.Rel Alike (exec (system port messageSize capacity) s as)
      (exec (system port messageSize capacity) s' as) := by
  induction as generalizing s s' with
  | nil => exact .some h
  | cons a as ih =>
    have hstep : Option.Rel Alike ((system port messageSize capacity).step s a)
      ((system port messageSize capacity).step s' a) := h.step a
    rw [TransitionSystem.exec, TransitionSystem.exec]
    generalize (system port messageSize capacity).step s a = t at hstep ⊢
    generalize (system port messageSize capacity).step s' a = t' at hstep ⊢
    cases hstep with
    | none => exact .none
    | some h => exact ih h

theorem FailsSafe.of_refused {result : Int} (hu : s.mem.msgq.Usable)
    (hfree : (s.call c).free = true) :
    FailsSafe port messageSize capacity s (s.setCall c s.mem (.done result)) := by
  constructor
  case mem => rfl
  case later =>
    apply Alike.exec
    refine ⟨rfl, fun d => ?_⟩
    rw [State.setCall_call]
    split
    case isTrue he => exact .inr ⟨he ▸ hfree, rfl⟩
    case isFalse => exact .inl rfl
  case retry =>
    intro as t hexec hnone d items spaces hisr hfits hitems hspaces
    have hu : t.mem.msgq.Usable := usable_of_run (run_of_exec as hexec) hu
    have hidle : ∀ {native : Native} {token : Token}, native.detached = true →
        (native.suspended = true ↔ ∃ c, (t.call c).waitsFor = some token) →
        native.idle = true := by
      intro native token hdetached hsuspended
      have hnot : native.suspended = false := by
        rw [← Bool.not_eq_true, hsuspended]
        rintro ⟨c, hc⟩
        cases (hnone c).symm.trans hc
      rw [Native.idle, hnot, hdetached]
      rfl
    rw [msgqDeinit_eq hu, hisr, hidle hitems hfits.items, hidle hspaces hfits.spaces]
    rfl

/-- **A call of `os_msgq_deinit` that fails leaves the queue usable** exactly where it has not torn
down the semaphore of the items before that of the spaces refuses. -/
theorem failed_deinit_keeps_queue
    (h : ReachableVia (deinitSystem port messageSize capacity : System (State T N) _) Whole s)
    (hs : deinitStep port s (.deinit c items spaces) = some s') :
    FailsSafe port messageSize capacity s s' ↔ ¬ TearsApart c items spaces := by
  have hu := usable_of_reachableVia h
  rcases deinitStep_cases hu hs with ⟨hfree, result, ⟨htears, rfl⟩ | ⟨htears, htorn⟩⟩
  · exact iff_of_true (.of_refused hu hfree) htears
  · refine iff_of_false (fun hsafe => ?_) (not_not_intro htears)
    rw [hsafe.mem, hu.items] at htorn
    cases htorn

/-! ## A queue that has been torn apart -/

/-- The semaphore of the items is gone, and the queue does not know. -/
def OsMsgq.Torn (msgq : OsMsgq) : Prop := msgq.initialized = true ∧ msgq.items.handle = false

omit [DecidableEq T] [DecidableEq N] in
theorem Effect.torn (h : Effect port c m p m' p') (ht : m.msgq.Torn) : m'.msgq.Torn := by
  cases h with
  | quiet | put | get | takeSpace | giveSpace => exact ht
  | takeItem _ htake => exact ⟨ht.1, (OsSem.tryTake_eq_some htake).1.trans ht.2⟩
  | giveItem => exact ⟨ht.1, (OsSem.give_handle _).trans ht.2⟩

theorem msgqDeinit_torn (h : msgq.Torn) :
    osMsgqDeinit inIsr items spaces msgq = (msgq, -EINVAL) := by
  rw [osMsgqDeinit, if_neg (by simp [h.1]), osSemDeinit, if_pos (by simp [h.2])]
  rfl

/-- Whatever its users do with it, a queue that has been torn apart hands out no message and cannot
be torn down. -/
theorem torn_of_run {ok : State T N → DeinitAct T N → Prop}
    (h : Run (deinitSystem port messageSize capacity) ok s t) (ht : s.mem.msgq.Torn) :
    (∀ message timeout, callStep port c t.mem (.getTake message timeout) =
      some (t.mem, .done (-EINVAL))) ∧
    ∀ inIsr items spaces,
      osMsgqDeinit inIsr items spaces t.mem.msgq = (t.mem.msgq, -EINVAL) := by
  have htorn : t.mem.msgq.Torn := by
    induction h with
    | refl => exact ht
    | @tail s a s' _ _ hs ih =>
      cases a with
      | act a => exact step_keeps (P := fun m => m.msgq.Torn) hs ih fun _ _ _ _ he => he.torn ih
      | deinit c items spaces =>
        have hs : deinitStep port s (.deinit c items spaces) = some s' := hs
        rw [deinitStep, msgqDeinit_torn ih] at hs
        obtain ⟨-, hs⟩ := Option.ite_none_right_eq_some.mp hs
        cases hs
        exact ih
  refine ⟨fun message timeout => ?_, fun _ _ _ => msgqDeinit_torn htorn⟩
  rw [callStep, OsSem.take, if_pos (by simp [htorn.2])]

end

/-! ## Concrete runs -/

/-- A check that `Whole` follows from. -/
def noDeinit (_ : State T N) : DeinitAct T N → Bool
  | .act _ => true
  | .deinit .. => false

omit [DecidableEq T] [DecidableEq N] in
theorem Whole.of_noDeinit {a : DeinitAct T N} (h : noDeinit s a = true) : Whole s a := by
  rintro c items spaces rfl
  cases h

def smallPort : Port := ⟨1000, fun _ => true⟩

/-- A thread waits for a message. -/
def emptyRun : List (DeinitAct Unit Unit) :=
  (callSteps (.thread ()) (.get (fun _ => 0) OS_WAIT_FOREVER) 2).map .act

/-- A thread fills a queue of one message, and waits to put another one. -/
def fullRun : List (DeinitAct Unit Unit) :=
  (callSteps (.thread ()) (.put (fun _ => 7) 0) 4 ++
    callSteps (.thread ()) (.put (fun _ => 8) 1) 2).map .act

theorem failed_deinit_keeps_queue_empty : ∃ s s' : State Unit Unit,
    exec (deinitSystem smallPort 1 1) (.initial 1 1) emptyRun = some s ∧
    deinitStep smallPort s (.deinit (.task ()) ⟨true, true⟩ ⟨false, true⟩) = some s' ∧
    FailsSafe smallPort 1 1 s s' := by
  obtain ⟨s, hs, hnext⟩ := exists_of_exec emptyRun (M := deinitSystem smallPort 1 1)
    (s := .initial 1 1)
    (P := fun s : State Unit Unit =>
      (deinitStep smallPort s (.deinit (.task ()) ⟨true, true⟩ ⟨false, true⟩)).isSome)
    (by decide +kernel)
  obtain ⟨s', hs'⟩ := Option.isSome_iff_exists.mp hnext
  have hreach : ReachableVia (deinitSystem smallPort 1 1) Whole s :=
    reachableVia_of_execOk emptyRun (fun _ _ => Whole.of_noDeinit) ⟨rfl, rfl, fun _ => rfl⟩
      (by decide +kernel) hs
  exact ⟨s, s', hs, hs', (failed_deinit_keeps_queue hreach hs').mpr nofun⟩

/-- The queue is full and a thread waits to put. After the refusal it can be used no more, and not
be torn down when the thread has given up. -/
theorem not_failed_deinit_keeps_queue : ∃ s s' t : State Unit Unit,
    exec (deinitSystem smallPort 1 1) (.initial 1 1) fullRun = some s ∧
    Fits s ⟨false, true⟩ ⟨true, true⟩ ∧
    deinitStep smallPort s (.deinit (.task ()) ⟨false, true⟩ ⟨true, true⟩) = some s' ∧
    ¬ FailsSafe smallPort 1 1 s s' ∧
    exec (system smallPort 1 1) s' [.expire (.thread ())] = some t ∧
    (∀ c, (t.call c).waitsFor = none) ∧
    (osMsgqDeinit false ⟨false, true⟩ ⟨false, true⟩ t.mem.msgq).2 = -EINVAL := by
  obtain ⟨s, hs, hthread, htask, hisr, hnext⟩ := exists_of_exec fullRun
    (M := deinitSystem smallPort 1 1) (s := .initial 1 1)
    (P := fun s : State Unit Unit => (s.call (.thread ())).waitsFor = some .space ∧
      (s.call (.task ())).waitsFor = none ∧ (s.call (.isr ())).waitsFor = none ∧
      (deinitStep smallPort s (.deinit (.task ()) ⟨false, true⟩ ⟨true, true⟩)).any fun s' =>
        s.mem.msgq.items.handle ≠ s'.mem.msgq.items.handle ∧
        (exec (system smallPort 1 1) s' [.expire (.thread ())]).any fun t =>
          (t.call (.thread ())).waitsFor = none ∧ (t.call (.task ())).waitsFor = none ∧
          (t.call (.isr ())).waitsFor = none ∧
          (osMsgqDeinit false ⟨false, true⟩ ⟨false, true⟩ t.mem.msgq).2 = -EINVAL)
    (by decide +kernel)
  obtain ⟨s', hs', hafter⟩ := (Option.any_eq_true ..).mp hnext
  obtain ⟨htorn, hlater⟩ := of_decide_eq_true hafter
  obtain ⟨t, ht, hdone⟩ := (Option.any_eq_true ..).mp hlater
  obtain ⟨hthread', htask', hisr', hagain⟩ := of_decide_eq_true hdone
  refine ⟨s, s', t, hs, ⟨⟨nofun, ?_⟩, ⟨fun _ => ⟨_, hthread⟩, fun _ => rfl⟩⟩, hs',
    fun hsafe => ?_, ht, ?_, hagain⟩
  · rintro ⟨⟨⟩ | ⟨⟩ | ⟨⟩, hc⟩
    · cases hthread.symm.trans hc
    · cases htask.symm.trans hc
    · cases hisr.symm.trans hc
  · exact htorn (by rw [hsafe.mem])
  · rintro (⟨⟩ | ⟨⟩ | ⟨⟩)
    · exact hthread'
    · exact htask'
    · exact hisr'

end HazelOsal.MessageQueue
