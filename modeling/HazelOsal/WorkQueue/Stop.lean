import HazelOsal.Library.Parties
import HazelOsal.WorkQueue.Invariant

/-! # Stopping a queue

The protocol between the calls of `os_work_queue_stop` on one queue and its worker: `StopView` is
what it reads, `StopPhase` how far a call has come, and `StopStep` and `ExitStep` what a call and
the worker do. Every call that passes the first critical section queues a marker, and the worker
takes one of them. A stop that gives up in `os_thread_join` leaves its marker behind, so that a
later one finds the list not empty in `os_fifo_deinit`, or the counter not zero. -/

namespace HazelOsal

open TransitionSystem

/-! ## The protocol -/

/-- How far a call of `os_work_queue_stop` has come once its marker is queued. -/
inductive StopPhase where
  | marked
  | joining
  | reaping
  | purging
  | closing
  deriving DecidableEq

/-- What the protocol reads of the queue, and the joins that timed out so far. -/
structure StopView where
  thread : OsThread
  started : Bool
  markers : Nat
  timeouts : Nat

/-- The steps of a call. -/
inductive StopStep (v : StopView) : Option StopPhase → StopView → Option StopPhase → Prop
  | frame : StopStep v φ v φ
  | mark : StopStep v none { v with markers := v.markers + 1 } (some .marked)
  | fail : StopStep v (some φ) v none
  /-- another join is active -/
  | busy : v.thread.completionReaped = false →
    StopStep v (some .marked) { v with timeouts := v.timeouts + 1 } none
  | begin : v.thread.completionReaped = false → v.thread.joinActive = false →
    StopStep v (some .marked) { v with thread := { v.thread with joinActive := true } }
      (some .joining)
  | skip : v.thread.completionReaped = true → StopStep v (some .marked) v (some .purging)
  | take : v.thread.joinTake = some t →
    StopStep v (some .joining) { v with thread := t } (some .reaping)
  | abandon : StopStep v (some .joining)
      { v with thread := v.thread.joinAbandon, timeouts := v.timeouts + 1 } none
  | reap : StopStep v (some .reaping) { v with thread := v.thread.reap } (some .purging)
  | close : v.markers = 0 → StopStep v (some .purging) v (some .closing)
  | zero : StopStep v (some .closing) { v with markers := 0 } (some .closing)
  | finish : StopStep v (some .closing) { v with started := false } none

/-- The steps of the worker: whether it has taken a marker, and whether it has given the
completion semaphore. -/
inductive ExitStep (v : StopView) : Bool → Bool → StopView → Bool → Bool → Prop
  | frame : ExitStep v exited given v exited given
  | pop : v.markers = n + 1 → ExitStep v false given { v with markers := n } true given
  | complete : ExitStep v true given { v with thread := v.thread.entryComplete } true given
  | give : ExitStep v true false { v with thread := v.thread.entryGive } true true
  | signal : ExitStep v true given { v with thread := v.thread.entrySignal } true given

/-- The call takes part in the join. -/
def StopPhase.joins : StopPhase → Bool
  | .joining | .reaping => true
  | _ => false

/-- The call has seen the worker terminated. -/
def StopPhase.joined : StopPhase → Bool
  | .purging | .closing => true
  | _ => false

/-- The invariant of the protocol between calls `C` in phases `φ` and the worker. Unless no join
has timed out and the thread is reaped, the timeouts and the calls in progress do not exceed the
markers there are, and the one that the worker has taken. -/
structure StopInv {C : Type} (v : StopView) (φ : C → Option StopPhase) (exited given : Bool) :
    Prop where
  active : ∀ c, (φ c).any StopPhase.joins = true →
    v.thread.joinActive = true ∧ v.thread.completionReaped = false
  unique : ∀ c c', (φ c).any StopPhase.joins = true → (φ c').any StopPhase.joins = true → c = c'
  joined : ∀ c, (φ c).any StopPhase.joined = true → v.thread.completionReaped = true
  closing : ∀ c, φ c = some .closing → v.timeouts = 0
  started : v.started = false → v.timeouts = 0 ∧ v.thread.completionReaped = true
  markers : v.timeouts = 0 ∧ v.thread.completionReaped = true ∨
    ∃ k, AtMost (fun c => φ c ≠ none) k ∧ v.timeouts + k ≤ v.markers + exited.toNat
  given : 0 < v.thread.completion.count ∨ v.thread.completionReaped = true ∨
    (∃ c, φ c = some .reaping) → given = true

section
variable {C : Type} [DecidableEq C] {v v' : StopView} {φ : C → Option StopPhase}
  {exited given exited' given' : Bool} {c : C} {p : Option StopPhase}

theorem joinTake_fields {t t' : OsThread} (h : t.joinTake = some t') :
    t'.joinActive = t.joinActive ∧ t'.completionReaped = t.completionReaped ∧
      0 < t.completion.count := by
  obtain ⟨completion, hc, rfl⟩ := Option.map_eq_some_iff.mp h
  have := (OsSem.tryTake_eq_some hc).2
  exact ⟨rfl, rfl, by omega⟩

/-- A call that leaves with a timeout turns its share of the markers into that of a timeout. -/
theorem StopInv.markers_timeout (h : StopInv v φ exited given) (hc : φ c ≠ none)
    (hr : v.thread.completionReaped = false) :
    ∃ k, AtMost (fun d => Function.update φ c none d ≠ none) k ∧
      v.timeouts + 1 + k ≤ v.markers + exited.toNat := by
  rcases h.markers with ⟨-, hr'⟩ | ⟨k, hk, hle⟩
  · rw [hr] at hr'; cases hr'
  · obtain ⟨k', rfl, hk'⟩ := hk.exit hc
    exact ⟨k', hk', by omega⟩

/-- The accounting of markers after a step of a call. -/
theorem StopInv.markers_call (h : StopInv v φ exited given) (hs : StopStep v (φ c) v' p) :
    v'.timeouts = 0 ∧ v'.thread.completionReaped = true ∨
    ∃ k, AtMost (fun d => Function.update φ c p d ≠ none) k ∧
      v'.timeouts + k ≤ v'.markers + exited.toNat := by
  generalize hφ : φ c = ph at hs
  have hstay {v' : StopView} {p} (hc : φ c ≠ none) (hm : v'.markers = v.markers)
      (ht : v'.timeouts = v.timeouts)
      (hr : v.thread.completionReaped = true → v'.thread.completionReaped = true) :
      v'.timeouts = 0 ∧ v'.thread.completionReaped = true ∨
      ∃ k, AtMost (fun d => Function.update φ c p d ≠ none) k ∧
        v'.timeouts + k ≤ v'.markers + exited.toNat := by
    rw [hm, ht]
    rcases h.markers with ⟨h0, hr'⟩ | ⟨k, hk, hle⟩
    · exact .inl ⟨h0, hr hr'⟩
    · exact .inr ⟨k, hk.update hc _, hle⟩
  cases hs with
  | frame => rw [← hφ, Function.update_eq_self]; exact h.markers
  | mark =>
    rcases h.markers with h | ⟨k, hk, hle⟩
    · exact .inl h
    · exact .inr ⟨k + 1, hk.enter _, by simp only; omega⟩
  | zero => exact .inl ⟨h.closing c hφ, h.joined c (by rw [hφ]; rfl)⟩
  | busy hr => exact .inr (h.markers_timeout (by rw [hφ]; nofun) hr)
  | abandon =>
    exact .inr (h.markers_timeout (by rw [hφ]; nofun) (h.active c (by rw [hφ]; rfl)).2)
  | take ht => exact hstay (by rw [hφ]; nofun) rfl rfl fun hr => (joinTake_fields ht).2.1.trans hr
  | reap => exact hstay (by rw [hφ]; nofun) rfl rfl fun _ => rfl
  | fail | begin | skip | close | finish => exact hstay (by rw [hφ]; nofun) rfl rfl id

omit [DecidableEq C] in
/-- `os_fifo_deinit` finds the list empty only if no join has timed out: the marker of the call
itself is the one that the worker has taken. -/
theorem StopInv.timeouts_eq_zero (h : StopInv v φ exited given) (hc : φ c ≠ none)
    (hm : v.markers = 0) : v.timeouts = 0 := by
  rcases h.markers with ⟨h0, -⟩ | ⟨k, hk, hle⟩
  · exact h0
  · have := hk.pos hc
    have := exited.toNat_le
    omega

/-! ### What a step of a call does to each part -/

/-- The join: left alone, entered when nobody is in it, or left by who is in it. -/
theorem StopStep.join_cases {ph : Option StopPhase} (hs : StopStep v ph v' p) :
    (v'.thread.joinActive = v.thread.joinActive ∧
      v'.thread.completionReaped = v.thread.completionReaped ∧
      (p.any StopPhase.joins = true → ph.any StopPhase.joins = true)) ∨
    (v.thread.joinActive = false ∧ v'.thread.joinActive = true ∧
      v'.thread.completionReaped = false) ∨
    ph.any StopPhase.joins = true ∧ p.any StopPhase.joins = false := by
  cases hs with
  | begin hr ha => exact .inr (.inl ⟨ha, rfl, hr⟩)
  | abandon | reap => exact .inr (.inr ⟨rfl, rfl⟩)
  | take ht => exact .inl ⟨(joinTake_fields ht).1, (joinTake_fields ht).2.1, fun _ => rfl⟩
  | frame => exact .inl ⟨rfl, rfl, id⟩
  | mark | fail | busy | skip | close | zero | finish => exact .inl ⟨rfl, rfl, nofun⟩

theorem StopStep.reaped {ph : Option StopPhase} (hs : StopStep v ph v' p)
    (hr : v.thread.completionReaped = true) : v'.thread.completionReaped = true := by
  cases hs with
  | take ht => exact (joinTake_fields ht).2.1.trans hr
  | reap => rfl
  | frame | mark | fail | busy | begin | skip | abandon | close | zero | finish => exact hr

theorem StopStep.joined {ph : Option StopPhase} (hs : StopStep v ph v' p)
    (hp : p.any StopPhase.joined = true) :
    ph.any StopPhase.joined = true ∨ v'.thread.completionReaped = true := by
  cases hs with
  | skip hr => exact .inr hr
  | reap => exact .inr rfl
  | frame => exact .inl hp
  | close | zero => exact .inl rfl
  | mark | fail | busy | begin | take | abandon | finish => cases hp

/-- A join times out before the thread is reaped only. -/
theorem StopStep.timeouts_eq {ph : Option StopPhase} (hs : StopStep v ph v' p)
    (hr : v.thread.completionReaped = true) (hph : ph.any StopPhase.joins = false) :
    v'.timeouts = v.timeouts := by
  cases hs with
  | busy hr' => rw [hr] at hr'; cases hr'
  | abandon => cases hph
  | frame | mark | fail | begin | skip | take | reap | close | zero | finish => rfl

theorem StopStep.closing {ph : Option StopPhase} (hs : StopStep v ph v' (some .closing)) :
    v'.timeouts = v.timeouts ∧ (ph = some .closing ∨ ph ≠ none ∧ v.markers = 0) := by
  cases hs with
  | close hm => exact ⟨rfl, .inr ⟨nofun, hm⟩⟩
  | frame | zero => exact ⟨rfl, .inl rfl⟩

theorem StopStep.started {ph : Option StopPhase} (hs : StopStep v ph v' p) :
    v'.started = v.started ∨ ph = some .closing ∧ v'.timeouts = v.timeouts := by
  cases hs with
  | finish => exact .inr ⟨rfl, rfl⟩
  | frame | mark | fail | busy | begin | skip | take | abandon | reap | close | zero =>
    exact .inl rfl

/-- A step does not make up a token of the completion semaphore: who goes on to reap the thread
has taken one. -/
theorem StopStep.gives {ph : Option StopPhase} (hs : StopStep v ph v' p) :
    (0 < v'.thread.completion.count → 0 < v.thread.completion.count) ∧
    (v'.thread.completionReaped = true →
      v.thread.completionReaped = true ∨ ph = some .reaping) ∧
    (p = some .reaping → 0 < v.thread.completion.count ∨ ph = some .reaping) := by
  cases hs with
  | take ht =>
    obtain ⟨-, hr, hpos⟩ := joinTake_fields ht
    exact ⟨fun _ => hpos, fun h => .inl (hr.symm.trans h), fun _ => .inl hpos⟩
  | reap => exact ⟨nofun, fun _ => .inr rfl, nofun⟩
  | frame => exact ⟨id, .inl, .inr⟩
  | mark | fail | busy | begin | skip | abandon | close | zero | finish =>
    exact ⟨id, .inl, nofun⟩

/-! ### The invariant -/

omit [DecidableEq C] in
theorem StopInv.not_joins (h : StopInv v φ exited given) (c : C)
    (hr : v.thread.completionReaped = true) : (φ c).any StopPhase.joins = false := by
  cases hj : (φ c).any StopPhase.joins with
  | false => rfl
  | true => rw [(h.active c hj).2] at hr; cases hr

theorem any_of_update {f : StopPhase → Bool} {c' : C} (hp : p.any f = true → (φ c).any f = true)
    (hc' : (Function.update φ c p c').any f = true) : (φ c').any f = true := by
  by_cases he : c' = c
  · subst he
    rw [Function.update_self] at hc'
    exact hp hc'
  · rwa [Function.update_of_ne he] at hc'

theorem StopInv.active_call (h : StopInv v φ exited given) (hs : StopStep v (φ c) v' p) {c' : C}
    (hj : (Function.update φ c p c').any StopPhase.joins = true) :
    v'.thread.joinActive = true ∧ v'.thread.completionReaped = false := by
  rcases hs.join_cases with ⟨ha, hr, hp⟩ | ⟨-, hnew⟩ | ⟨hc, hp⟩
  · rw [ha, hr]
    exact h.active c' (any_of_update hp hj)
  · exact hnew
  · by_cases he : c' = c
    · rw [he, Function.update_self, hp] at hj; cases hj
    · rw [Function.update_of_ne he] at hj
      exact absurd (h.unique c' c hj hc) he

theorem StopInv.unique_call (h : StopInv v φ exited given) (hs : StopStep v (φ c) v' p)
    {c₁ c₂ : C} (h₁ : (Function.update φ c p c₁).any StopPhase.joins = true)
    (h₂ : (Function.update φ c p c₂).any StopPhase.joins = true) : c₁ = c₂ := by
  rcases hs.join_cases with ⟨-, -, hp⟩ | ⟨ha, -⟩ | ⟨-, hp⟩
  · exact h.unique c₁ c₂ (any_of_update hp h₁) (any_of_update hp h₂)
  · -- nobody was in the join before
    have hself {c'} (hj : (Function.update φ c p c').any StopPhase.joins = true) : c' = c := by
      by_contra he
      rw [Function.update_of_ne he] at hj
      rw [(h.active c' hj).1] at ha
      cases ha
    rw [hself h₁, hself h₂]
  · have hp' : p.any StopPhase.joins = true → (φ c).any StopPhase.joins = true :=
      fun hj => absurd hj (by rw [hp]; nofun)
    exact h.unique c₁ c₂ (any_of_update hp' h₁) (any_of_update hp' h₂)

theorem StopInv.closing_call (h : StopInv v φ exited given) (hs : StopStep v (φ c) v' p) {c' : C}
    (hc' : Function.update φ c p c' = some .closing) : v'.timeouts = 0 := by
  by_cases he : c' = c
  · subst he
    rw [Function.update_self] at hc'
    subst hc'
    obtain ⟨ht, hc | ⟨hne, hm⟩⟩ := hs.closing
    · exact ht.trans (h.closing c' hc)
    · exact ht.trans (h.timeouts_eq_zero hne hm)
  · rw [Function.update_of_ne he] at hc'
    have hr := h.joined c' (by rw [hc']; rfl)
    exact (hs.timeouts_eq hr (h.not_joins c hr)).trans (h.closing c' hc')

omit [DecidableEq C] in
theorem StopInv.started_call (h : StopInv v φ exited given) (hs : StopStep v (φ c) v' p)
    (hst : v'.started = false) : v'.timeouts = 0 ∧ v'.thread.completionReaped = true := by
  rcases hs.started with heq | ⟨hc, ht⟩
  · obtain ⟨h0, hr⟩ := h.started (heq ▸ hst)
    exact ⟨(hs.timeouts_eq hr (h.not_joins c hr)).trans h0, hs.reaped hr⟩
  · exact ⟨ht.trans (h.closing c hc), hs.reaped (h.joined c (by rw [hc]; rfl))⟩

theorem StopInv.given_call (h : StopInv v φ exited given) (hs : StopStep v (φ c) v' p)
    (hg : 0 < v'.thread.completion.count ∨ v'.thread.completionReaped = true ∨
      ∃ c', Function.update φ c p c' = some .reaping) : given = true := by
  obtain ⟨htoken, hreaped, hreaping⟩ := hs.gives
  rcases hg with hg | hg | ⟨c', hc'⟩
  · exact h.given (.inl (htoken hg))
  · exact h.given (.inr ((hreaped hg).imp id fun hc => ⟨c, hc⟩))
  · by_cases he : c' = c
    · rw [he, Function.update_self] at hc'
      exact h.given ((hreaping hc').imp id fun hc => .inr ⟨c, hc⟩)
    · rw [Function.update_of_ne he] at hc'
      exact h.given (.inr (.inr ⟨c', hc'⟩))

theorem StopInv.call (h : StopInv v φ exited given) (hs : StopStep v (φ c) v' p) :
    StopInv v' (Function.update φ c p) exited given where
  active _ := h.active_call hs
  unique _ _ := h.unique_call hs
  joined c' hj := by
    by_cases he : c' = c
    · subst he
      rw [Function.update_self] at hj
      exact (hs.joined hj).elim (fun hj => hs.reaped (h.joined c' hj)) id
    · rw [Function.update_of_ne he] at hj
      exact hs.reaped (h.joined c' hj)
  closing _ := h.closing_call hs
  started := h.started_call hs
  markers := h.markers_call hs
  given := h.given_call hs

omit [DecidableEq C] in
theorem StopInv.worker (h : StopInv v φ exited given)
    (hs : ExitStep v exited given v' exited' given') : StopInv v' φ exited' given' := by
  cases hs with
  | frame => exact h
  | pop hm =>
    refine { h with markers := ?_ }
    rcases h.markers with h | ⟨k, hk, hle⟩
    · exact .inl h
    · refine .inr ⟨k, hk, ?_⟩
      rw [hm] at hle
      exact hle
  | complete | signal => exact { h with }
  | give => exact { h with given := fun _ => rfl }

end

/-! ## The calls and the worker of a queue -/

variable {Q W T : Type} [DecidableEq Q] [DecidableEq W] [DecidableEq T]

def Mem.stopView (m : Mem Q W) (q : Q) : StopView where
  thread := (m.queue q).thread
  started := (m.queue q).started
  markers := (m.queue q).fifo.list.count .stop
  timeouts := m.hist.joinTimeouts q

/-- The phase of a call that has marked its queue. -/
def Pc.phase : Pc Q W → StopPhase
  | .joinTake .. | .joinWait .. | .joinAbandon .. => .joining
  | .joinReap _ => .reaping
  | .purgeLock _ | .purgeNotify .. | .deinitLock _ => .purging
  | .deinitSem _ | .deinitZero _ | .stopFinish _ => .closing
  | _ => .marked

/-- The phase of a call with respect to queue `q`. -/
def Pc.stopPhase (q : Q) (p : Pc Q W) : Option StopPhase :=
  if p.stopping = some q then some p.phase else none

/-- The worker has given the completion semaphore. -/
def WorkerPc.given : WorkerPc Q W → Bool
  | .exitSignal | .terminated => true
  | _ => false

section
variable {c : Ctx Q T} {m m' : Mem Q W} {q q' : Q} {w d : W}

omit [DecidableEq W] in
theorem Pc.stopPhase_eq {p : Pc Q W} (h : p.stopping = some q) : p.stopPhase q = some p.phase :=
  if_pos h

omit [DecidableEq W] in
theorem Pc.stopPhase_eq_none {p : Pc Q W} (h : p.stopping ≠ some q) : p.stopPhase q = none :=
  if_neg h

theorem setQueue_stopView {v : OsWorkQueue W} (ht : v.thread = (m.queue q').thread)
    (hs : v.started = (m.queue q').started)
    (hl : v.fifo.list.count .stop = (m.queue q').fifo.list.count .stop) :
    (m.setQueue q' v).stopView q = m.stopView q := by
  simp only [Mem.stopView, Mem.setQueue_queue, Mem.setQueue_hist]
  split
  case isTrue h => subst h; rw [ht, hs, hl]
  case isFalse => rfl

theorem setQueue_stopView_of_ne {v : OsWorkQueue W} (h : q ≠ q') :
    (m.setQueue q' v).stopView q = m.stopView q := by
  simp only [Mem.stopView, Mem.setQueue_queue, Mem.setQueue_hist, if_neg h]

theorem recordJoin_stopView_of_ne {r : Int} (h : q ≠ q') :
    (m.recordJoin q' r).stopView q = m.stopView q := by
  simp only [Mem.recordJoin]
  split
  · simp only [Mem.stopView, Function.update_of_ne h]
  · rfl

theorem enqueue_stopView : (osWorkEnqueue m q' w).stopView q = m.stopView q := by
  have : (osWorkEnqueue m q' w).hist.joinTimeouts = m.hist.joinTimeouts := rfl
  simp only [Mem.stopView, enqueue_queue, this]
  split
  case isTrue h => subst h; simp
  case isFalse => rfl

omit [DecidableEq W] in
theorem FifoNode.work_ne_stop : FifoNode.work w ≠ .stop := nofun

theorem cancel_stopView : (osWorkCancelCritical m w).1.stopView q = m.stopView q := by
  simp only [osWorkCancelCritical, Mem.stopView, mark_queue, mark_hist]
  split
  · rw [dequeue_queue, List.count_erase_of_ne FifoNode.work_ne_stop.symm]; rfl
  · rfl

omit [DecidableEq Q] in
theorem undelay_stopView {f : Fate} : (undelay m d f).stopView q = m.stopView q := rfl

theorem arm_stopView {delay : UInt32} : (osWorkArm m q' d delay).stopView q = m.stopView q := by
  have : (osWorkArm m q' d delay).hist.joinTimeouts = m.hist.joinTimeouts := rfl
  simp only [Mem.stopView, arm_queue, this]
  split
  case isTrue h => subst h; rfl
  case isFalse => rfl

section
omit [DecidableEq T]

theorem CallSame.stopView {p p' : Pc Q W} (he : CallSame c m p m' p')
    (hp : p.stopping ≠ some q) : m'.stopView q = m.stopView q := by
  have hjoin {q'} (h : p.joining = some q') : q ≠ q' := by
    rintro rfl
    revert h hp
    cases p <;> grind [Pc.joining, Pc.stopping]
  cases he with
  | move => rfl
  | giveItems | trytakeItems => exact setQueue_stopView rfl rfl rfl
  | takeSync _ _ hm => obtain ⟨sync, -, rfl⟩ := Option.map_eq_some_iff.mp hm; rfl
  | notify => simp only [Mem.osWorkNotify]; split <;> rfl
  | drainBegin => exact setQueue_stopView rfl rfl rfl
  | drainCheck =>
    simp only [osWorkQueueDrainCheck]
    split
    · exact setQueue_stopView rfl rfl rfl
    · rfl
  | unplug =>
    simp only [osWorkQueueUnplugCritical]
    split
    · exact setQueue_stopView rfl rfl rfl
    · rfl
  | thread h => exact setQueue_stopView_of_ne (hjoin h)
  | joinError h =>
    rw [recordJoin_stopView_of_ne (hjoin h)]
    exact setQueue_stopView_of_ne (hjoin h)
  | deinitSem => exact setQueue_stopView rfl rfl rfl
  | finish => exact setQueue_stopView_of_ne fun h => hp (congrArg some h.symm)

/-- Whoever is not in a stop of `q`, or about to queue its marker, leaves the protocol alone. -/
theorem CallEffect.stopView {p p' : Pc Q W} (he : CallEffect c m p m' p')
    (hp : p.stopping ≠ some q) (hl : ∀ timeout, p ≠ .stopLock q timeout) :
    m'.stopView q = m.stopView q := by
  cases he with
  | same he => exact he.stopView hp
  | enqueue => exact enqueue_stopView
  | cancel => exact cancel_stopView
  | arm | rearm => exact arm_stopView
  | unschedule | cancelDelayable | flushDelayable | purge => exact undelay_stopView
  | @markStop q' timeout => exact setQueue_stopView_of_ne fun h => hl timeout (by rw [h])
  | zero => exact setQueue_stopView_of_ne fun h => hp (congrArg some h.symm)

/-- The first critical section of a stop. -/
theorem stopLock_stopStep {timeout : UInt32} {p' : Pc Q W}
    (h : callStep c m (.stopLock q timeout) = some (m', p')) :
    StopStep (m.stopView q) none (m'.stopView q) (p'.stopPhase q) := by
  simp only [callStep, osWorkQueueStopCritical] at h
  split at h
  · cases h; exact .frame
  · cases h
    have : (osWorkQueueMarkStop m q).stopView q =
        { m.stopView q with markers := (m.stopView q).markers + 1 } := by
      simp only [Mem.stopView, osWorkQueueMarkStop, Mem.setQueue_queue, if_true, Mem.setQueue_hist,
        List.count_append, List.count_singleton_self]
    rw [this, Pc.stopPhase_eq (by rfl)]
    exact .mark

theorem setThread_stopView {t : OsThread} :
    (m.setThread q t).stopView q = { m.stopView q with thread := t } := by
  simp only [Mem.stopView, Mem.setThread, Mem.setQueue_queue, if_true, Mem.setQueue_hist]

theorem recordJoin_stopView {r : Int} (hr : r = -EBUSY ∨ r = -ETIMEDOUT) :
    (m.recordJoin q r).stopView q =
      { m.stopView q with timeouts := (m.stopView q).timeouts + 1 } := by
  simp only [Mem.recordJoin, hr, if_true, Mem.stopView, Function.update_self]

/-- How a join begins: the thread is reaped, the object is not in use, another join is active, or
the call goes on to wait. -/
theorem joinBegin_cases (t : OsThread) :
    (t.completionReaped = true ∧ t.joinBegin = (t, some 0)) ∨
    t.joinBegin = (t, some (-EINVAL)) ∨
    (t.completionReaped = false ∧ t.joinBegin = (t, some (-EBUSY))) ∨
    (t.completionReaped = false ∧ t.joinActive = false ∧
      t.joinBegin = ({ t with joinActive := true }, none)) := by
  obtain ⟨⟨handle, native⟩, completed, signaled, reaped, active⟩ := t
  cases reaped
  · cases handle
    · exact .inr (.inl rfl)
    · cases active
      · exact .inr (.inr (.inr ⟨rfl, rfl, rfl⟩))
      · exact .inr (.inr (.inl ⟨rfl, rfl⟩))
  · exact .inl ⟨rfl, rfl⟩

theorem joinEnter_stopStep {timeout : UInt32} {p' : Pc Q W}
    (h : callStep c m (.joinEnter q timeout) = some (m', p')) :
    StopStep (m.stopView q) (some .marked) (m'.stopView q) (p'.stopPhase q) := by
  have hsame : (m.setThread q (m.queue q).thread).stopView q = m.stopView q := by
    rw [setThread_stopView]; rfl
  simp only [callStep] at h
  split at h
  case isTrue => cases h; exact .fail
  case isFalse =>
    rcases joinBegin_cases (m.queue q).thread with ⟨hr, hb⟩ | hb | ⟨hr, hb⟩ | ⟨hr, ha, hb⟩
    all_goals rw [hb] at h
    · cases h
      rw [hsame, Pc.stopPhase_eq (by rfl)]
      exact .skip hr
    · cases h
      rw [Mem.recordJoin, if_neg (by decide), hsame]
      exact .fail
    · cases h
      rw [recordJoin_stopView (.inl rfl), hsame]
      exact .busy hr
    · cases h
      rw [setThread_stopView, Pc.stopPhase_eq (by rfl)]
      exact .begin hr ha

theorem joinTake_stopStep {p p' : Pc Q W} {timeout : UInt32}
    (hp : p = .joinTake q timeout ∨ ∃ expiry, p = .joinWait q timeout expiry)
    (h : callStep c m p = some (m', p')) :
    StopStep (m.stopView q) (some .joining) (m'.stopView q) (p'.stopPhase q) := by
  have htake {t} (ht : (m.queue q).thread.joinTake = some t) : StopStep (m.stopView q)
      (some .joining) ((m.setThread q t).stopView q) ((.joinReap q : Pc Q W).stopPhase q) := by
    rw [setThread_stopView, Pc.stopPhase_eq (by rfl)]
    exact .take ht
  rcases hp with rfl | ⟨expiry, rfl⟩
  · simp only [callStep] at h
    split at h
    case h_1 ht => cases h; exact htake ht
    case h_2 =>
      split at h <;> cases h
      all_goals rw [Pc.stopPhase_eq (by rfl)]; exact .frame
  · obtain ⟨t, ht, h⟩ := Option.map_eq_some_iff.mp h
    cases h
    exact htake ht

theorem joinAbandon_stopStep {p' : Pc Q W} {timeout : UInt32}
    (h : callStep c m (.joinAbandon q timeout) = some (m', p')) :
    StopStep (m.stopView q) (some .joining) (m'.stopView q) (p'.stopPhase q) := by
  have hr : OsThread.joinTimeoutResult timeout = -EBUSY ∨
      OsThread.joinTimeoutResult timeout = -ETIMEDOUT := by
    simp only [OsThread.joinTimeoutResult]
    split
    · exact .inl rfl
    · exact .inr rfl
  cases h
  rw [recordJoin_stopView hr, setThread_stopView]
  exact .abandon

theorem deinit_stopStep {p p' : Pc Q W} (hp : p = .deinitLock q ∨ p = .deinitSem q)
    (h : callStep c m p = some (m', p')) :
    StopStep (m.stopView q) (some p.phase) (m'.stopView q) (p'.stopPhase q) := by
  rcases hp with rfl | rfl
  · simp only [callStep, osFifoDeinitCheck] at h
    split at h
    case isTrue => cases h; exact .fail
    case isFalse =>
      by_cases hl : (m.queue q).fifo.list.isEmpty = true
      · simp only [hl, if_true] at h
        cases h
        rw [Pc.stopPhase_eq (by rfl)]
        refine .close ?_
        simp only [Mem.stopView, List.isEmpty_iff.mp hl, List.count_nil]
      · simp only [hl] at h
        cases h
        exact .fail
  · simp only [callStep] at h
    split at h
    case isTrue => cases h; exact .fail
    case isFalse =>
      split at h
      case isTrue => cases h; exact .fail
      case isFalse =>
        cases h
        rw [setQueue_stopView (by rfl) (by rfl) (by rfl), Pc.stopPhase_eq (by rfl)]
        exact .frame

/-- **The calls follow the protocol.** -/
theorem callStep_stopStep {p p' : Pc Q W} (h : callStep c m p = some (m', p')) :
    StopStep (m.stopView q) (p.stopPhase q) (m'.stopView q) (p'.stopPhase q) := by
  by_cases hp : p.stopping = some q
  · rw [Pc.stopPhase_eq hp]
    cases p with
    | joinEnter q' timeout => cases hp; exact joinEnter_stopStep h
    | joinTake q' timeout => cases hp; exact joinTake_stopStep (.inl rfl) h
    | joinWait q' timeout expiry => cases hp; exact joinTake_stopStep (.inr ⟨_, rfl⟩) h
    | joinAbandon q' timeout => cases hp; exact joinAbandon_stopStep h
    | deinitLock q' => cases hp; exact deinit_stopStep (.inl rfl) h
    | deinitSem q' => cases hp; exact deinit_stopStep (.inr rfl) h
    | stopGive q' timeout =>
      cases hp; cases h
      rw [Mem.giveItems, setQueue_stopView (by rfl) (by rfl) (by rfl), Pc.stopPhase_eq (by rfl)]
      exact .frame
    | joinReap q' =>
      cases hp; cases h
      rw [setThread_stopView, Pc.stopPhase_eq (by rfl)]
      exact .reap
    | purgeLock q' =>
      cases hp
      simp only [callStep, osWorkQueueStopPurge] at h
      split at h
      all_goals cases h; rw [Pc.stopPhase_eq (by rfl)]; exact .frame
    | purgeNotify q' d =>
      cases hp; cases h
      rw [show (m.osWorkNotify d).stopView q = m.stopView q by
        simp only [Mem.osWorkNotify]; split <;> rfl]
      rw [Pc.stopPhase_eq (by rfl)]
      exact .frame
    | deinitZero q' =>
      cases hp; cases h
      rw [Pc.stopPhase_eq (by rfl)]
      simp only [Mem.stopView, Mem.setQueue_queue, Mem.setQueue_hist, if_true]
      exact .zero
    | stopFinish q' =>
      cases hp; cases h
      simp only [Mem.stopView, Mem.setQueue_queue, Mem.setQueue_hist, if_true]
      exact .finish
    | _ => cases hp
  · rw [Pc.stopPhase_eq_none hp]
    by_cases hl : ∃ timeout, p = .stopLock q timeout
    · obtain ⟨timeout, rfl⟩ := hl
      exact stopLock_stopStep h
    · have hp' : p'.stopping ≠ some q := by
        intro hp'
        rcases callStep_stopping h hp' with hp' | ⟨timeout, rfl, -⟩
        · exact hp hp'
        · exact hl ⟨timeout, rfl⟩
      rw [Pc.stopPhase_eq_none hp', (callStep_effect h).stopView hp fun t ht => hl ⟨t, ht⟩]
      exact .frame

theorem joinTake_ne_done {timeout : UInt32} (r : Ret) :
    callStep c m (.joinTake q timeout) ≠ some (m', .done r) := by
  intro h
  simp only [callStep] at h
  split at h
  · cases h
  · split at h <;> cases h

theorem joinWait_ne_done {timeout : UInt32} {expiry : Option Nat} (r : Ret) :
    callStep c m (.joinWait q timeout expiry) ≠ some (m', .done r) := by
  intro h
  obtain ⟨t, -, h⟩ := Option.map_eq_some_iff.mp h
  cases h

/-- A stop leaves with zero only from its last step. -/
theorem callStep_stop_result {p : Pc Q W} (h : callStep c m p = some (m', .done (.int 0)))
    (hp : p.stopping = some q) : p = .stopFinish q := by
  cases p with
  | stopFinish q' => cases hp; rfl
  | joinEnter q' timeout =>
    simp only [callStep] at h
    split at h
    · cases h
    · split at h
      · cases h
      · split at h
        · cases h
        case isFalse hr => cases h; exact absurd rfl hr
  | joinAbandon q' timeout =>
    simp only [callStep, Option.some.injEq, Prod.mk.injEq, Pc.done.injEq, Ret.int.injEq] at h
    exact absurd h.2 (OsThread.joinTimeoutResult_ne_zero timeout)
  | deinitLock q' =>
    simp only [callStep, osFifoDeinitCheck] at h
    split at h
    · cases h
    · split at h
      case h_1 r hr => split at hr <;> cases hr; cases h
      case h_2 => cases h
  | deinitSem q' =>
    simp only [callStep] at h
    split at h
    · cases h
    · split at h <;> cases h
  | joinTake q' timeout => exact absurd h (joinTake_ne_done _)
  | joinWait q' timeout expiry => exact absurd h (joinWait_ne_done _)
  | purgeLock q' =>
    simp only [callStep, osWorkQueueStopPurge] at h
    split at h <;> cases h
  | stopGive | joinReap | purgeNotify | deinitZero => cases h
  | _ => cases hp

end

/-- A worker that is not leaving changes the protocol's view only when it takes a marker. -/
theorem WorkerEffect.stopView {p p' : WorkerPc Q W} (he : WorkerEffect m q' p m' p')
    (hp : q = q' → p.exited = false ∧ ∀ rest, (m.queue q).fifo.list ≠ .stop :: rest ∨ p ≠ .pop) :
    m'.stopView q = m.stopView q := by
  cases he with
  | same he =>
    cases he with
    | move => rfl
    | giveItems => exact setQueue_stopView rfl rfl rfl
    | takeItems _ hm =>
      obtain ⟨items, -, rfl⟩ := Option.map_eq_some_iff.mp hm
      exact setQueue_stopView rfl rfl rfl
    | notify => simp only [Mem.osWorkNotify]; split <;> rfl
    | thread hx =>
      refine setQueue_stopView_of_ne fun hq => ?_
      rw [(hp hq).1] at hx
      cases hx
  | refuse | promote | block => rfl
  | enqueue => exact enqueue_stopView
  | @stop rest hl =>
    refine setQueue_stopView_of_ne fun hq => ?_
    rcases (hp hq).2 rest with h | h
    · exact h (hq ▸ hl)
    · exact h rfl
  | @start rest w hl =>
    have : (osWorkQueueEntryStart m q' w rest).hist.joinTimeouts = m.hist.joinTimeouts := rfl
    simp only [Mem.stopView, start_queue, this]
    split
    case isTrue hq =>
      subst hq
      simp only [popped, hl, List.count_cons_of_ne FifoNode.work_ne_stop]
    case isFalse => rfl
  | @complete w =>
    have : (osWorkQueueEntryComplete m q' w).hist.joinTimeouts = m.hist.joinTimeouts := rfl
    simp only [Mem.stopView, complete_queue, this]
    split
    case isTrue hq => subst hq; rfl
    case isFalse => rfl

theorem workerStep_exited {p p' : WorkerPc Q W} (h : workerStep m q p = some (m', p'))
    (hx : p'.exited = true) : p.exited = true ∨ p = .pop := by
  cases p with
  | promoteSubmit d j p =>
    simp only [workerStep, Option.some.injEq, Prod.mk.injEq] at h
    rw [← h.2] at hx
    revert hx
    cases (p.step (some q) m).2 <;> nofun
  | _ =>
    simp only [workerStep] at h
    grind [WorkerPc.exited, Option.map_eq_some_iff]

omit [DecidableEq Q] [DecidableEq W] in
theorem WorkerPc.given_exited {p : WorkerPc Q W} (h : p.given = true) : p.exited = true := by
  cases p <;> first | rfl | cases h

/-- The worker takes a node, which may be a marker. -/
theorem pop_exitStep {p' : WorkerPc Q W} (h : workerStep m q .pop = some (m', p')) :
    ExitStep (m.stopView q) false false (m'.stopView q) p'.exited p'.given := by
  have he := workerStep_effect h
  simp only [workerStep, osWorkQueueEntryPop] at h
  cases hl : (m.queue q).fifo.list with
  | nil =>
    rw [hl] at h
    cases h
    exact .frame
  | cons node rest =>
    rw [hl] at h
    cases node with
    | stop =>
      cases h
      have hm : (m.stopView q).markers = rest.count .stop + 1 := by
        simp only [Mem.stopView, hl, List.count_cons_self]
      have hv : (m.setQueue q { popped (m.queue q) rest with stopNodeQueued := false }).stopView q =
          { m.stopView q with markers := rest.count .stop } := by
        simp only [Mem.stopView, Mem.setQueue_queue, if_true, popped, Mem.setQueue_hist]
      rw [hv]
      exact .pop hm
    | work w =>
      cases h
      have hne (rest') : (m.queue q).fifo.list ≠ .stop :: rest' :=
        fun h => FifoNode.work_ne_stop (List.cons.inj (hl.symm.trans h)).1
      rw [he.stopView fun _ => ⟨rfl, fun rest' => .inl (hne rest')⟩]
      exact .frame

/-- **So does the worker.** -/
theorem workerStep_exitStep {p p' : WorkerPc Q W} (h : workerStep m q p = some (m', p')) :
    ExitStep (m.stopView q) p.exited p.given (m'.stopView q) p'.exited p'.given := by
  have hgiven {p : WorkerPc Q W} (hx : p.exited = false) : p.given = false :=
    Bool.eq_false_iff.mpr fun hg => Bool.eq_false_iff.mp hx (WorkerPc.given_exited hg)
  cases hx : p.exited with
  | true =>
    cases p with
    | exitComplete => cases h; rw [setThread_stopView]; exact .complete
    | exitGive => cases h; rw [setThread_stopView]; exact .give
    | exitSignal => cases h; rw [setThread_stopView]; exact .signal
    | terminated => cases h
    | _ => cases hx
  | false =>
    by_cases hpop : p = .pop
    · subst hpop
      exact pop_exitStep h
    · have hx' : p'.exited = false := by
        refine Bool.eq_false_iff.mpr fun hx' => ?_
        rcases workerStep_exited h hx' with hx' | hp
        · rw [hx] at hx'; cases hx'
        · exact hpop hp
      rw [(workerStep_effect h).stopView fun _ => ⟨hx, fun _ => .inr hpop⟩, hx', hgiven hx,
        hgiven hx']
      exact .frame

omit [DecidableEq W] in
theorem Op.entry_stopPhase {op : Op Q W} : op.entry.stopPhase q = none :=
  Pc.stopPhase_eq_none (by rw [Op.entry_stopping]; nofun)

omit [DecidableEq W] in
/-- The phases after a step of one call. -/
theorem setCall_stopPhase {s : State Q W T} {p : Pc Q W} :
    (fun c' => ((s.setCall c m p).call c').stopPhase q) =
      Function.update (fun c' => (s.call c').stopPhase q) c (p.stopPhase q) := by
  funext c'
  rw [State.setCall_call, Function.update_apply]
  split <;> rfl

omit [DecidableEq W] in
theorem Pc.free_stopPhase {p : Pc Q W} (h : p.free = true) : p.stopPhase q = none := by
  refine Pc.stopPhase_eq_none ?_
  cases p with
  | idle | done r => nofun
  | _ => cases h

omit [DecidableEq T] in
theorem StopInv.init {s : State Q W T} (h : Init s) : StopInv (s.mem.stopView q)
    (fun c => (s.call c).stopPhase q) (s.worker q).exited (s.worker q).given := by
  obtain ⟨noYield, hq⟩ := h.queue q
  have hp (c : Ctx Q T) : (s.call c).stopPhase q = none := by
    rw [h.call]; exact Pc.free_stopPhase rfl
  have hw : (s.worker q).exited = false ∧ (s.worker q).given = false := by
    rw [h.worker]; exact ⟨rfl, rfl⟩
  have hv : s.mem.stopView q = ⟨.create, true, 0, 0⟩ := by
    simp only [Mem.stopView, hq, h.hist]; rfl
  simp only [hp, hw, hv]
  refine ⟨nofun, nofun, nofun, nofun, nofun, .inr ⟨0, .zero fun c hc => hc rfl, Nat.le_refl _⟩, ?_⟩
  rintro (h | h | ⟨c, h⟩) <;> cases h

/-- **The protocol's invariant holds in every reachable state.** -/
theorem stopInv_of_reachable {s : State Q W T} (h : Reachable (workQueueSystem Q W T) s) (q : Q) :
    StopInv (s.mem.stopView q) (fun c => (s.call c).stopPhase q) (s.worker q).exited
      (s.worker q).given := by
  refine ReachableVia.invariant (I := fun s => StopInv (s.mem.stopView q)
    (fun c => (s.call c).stopPhase q) (s.worker q).exited (s.worker q).given)
    (fun _ => StopInv.init) ?_ h
  intro s a t hr hi _ hs
  cases step_effect hs with
  | @call c op hmay =>
    rw [setCall_stopPhase, Op.entry_stopPhase]
    refine hi.call ?_
    rw [Pc.free_stopPhase (State.mayCall_free hmay)]
    exact .frame
  | @step c m p hstep =>
    rw [setCall_stopPhase]
    exact hi.call (callStep_stopStep hstep)
  | @expire c q' timeout expiry hp =>
    rw [setCall_stopPhase]
    refine hi.call ?_
    rw [hp]
    exact .frame
  | @worker q' m p _ hstep he =>
    rw [State.setWorker_worker, State.setWorker_mem, State.setWorker_call]
    split
    case isTrue hq => subst hq; exact hi.worker (workerStep_exitStep hstep)
    case isFalse hq => rw [he.stopView fun h => absurd h hq]; exact hi
  | @workerExpire q' expiry hp =>
    rw [State.setWorker_worker, State.setWorker_mem, State.setWorker_call]
    split
    case isTrue hq => subst hq; rw [hp] at hi; exact hi
    case isFalse => exact hi
  | tick => exact hi

/-! ## A stop that timed out -/

/-- A call of `os_work_queue_stop` on `q` that has not returned. -/
def Pc.stops (q : Q) : Pc Q W → Bool
  | .stopEnter q' _ | .stopLock q' _ => q' = q
  | p => p.stopping = some q

omit [DecidableEq T] in
theorem stops_stopping {p : Pc Q W} (h : callStep c m p = some (m', .done (.int 0)))
    (hp : p.stops q = true) : p.stopping = some q := by
  cases p with
  | stopEnter q' timeout =>
    simp only [callStep] at h
    split at h
    · cases h
    · split at h <;> cases h
  | stopLock q' timeout =>
    simp only [callStep] at h
    cases hs : (osWorkQueueStopCritical m q').2 <;> rw [hs] at h <;> cases h
  | _ => exact of_decide_eq_true hp

/-- A stop returns zero only if no join on its queue has timed out. -/
theorem stop_result {s t : State Q W T} (h : Reachable (workQueueSystem Q W T) s)
    (hp : (s.call c).stops q = true) (hs : step s (.step c) = some t)
    (ht : t.call c = .done (.int 0)) : s.mem.hist.joinTimeouts q = 0 := by
  cases step_effect hs with
  | @step _ m p hstep =>
    rw [State.setCall_call_self] at ht
    subst ht
    have hfinish := callStep_stop_result hstep (stops_stopping hstep hp)
    refine (stopInv_of_reachable h q).closing c ?_
    rw [hfinish]
    exact Pc.stopPhase_eq rfl

omit [DecidableEq T] in
/-- A stop that leaves `os_thread_join` with its timeout error is recorded. -/
theorem join_timeout {p : Pc Q W} {r : Int} (h : callStep c m p = some (m', .done (.int r)))
    (hp : p.joining = some q) (hr : r = -EBUSY ∨ r = -ETIMEDOUT) :
    0 < m'.hist.joinTimeouts q := by
  have hrecord (m : Mem Q W) : 0 < (m.recordJoin q r).hist.joinTimeouts q := by
    simp only [Mem.recordJoin, hr, if_true, Function.update_self]
    exact Nat.succ_pos _
  cases p with
  | joinEnter q' timeout =>
    cases hp
    simp only [callStep] at h
    split at h
    · cases h; exact absurd hr (by decide)
    · split at h
      · cases h
      · split at h <;> cases h
        exact hrecord _
  | joinAbandon q' timeout => cases hp; cases h; exact hrecord _
  | joinTake q' timeout => exact absurd h (joinTake_ne_done _)
  | joinWait q' timeout expiry => exact absurd h (joinWait_ne_done _)
  | joinReap q' => cases h
  | _ => cases hp

theorem StopStep.timeouts_le {v v' : StopView} {a b : Option StopPhase} (h : StopStep v a v' b) :
    v.timeouts ≤ v'.timeouts := by
  cases h <;> first | exact Nat.le_refl _ | exact Nat.le_succ _

theorem ExitStep.timeouts_le {v v' : StopView} {a a' b b' : Bool} (h : ExitStep v a b v' a' b') :
    v.timeouts ≤ v'.timeouts := by
  cases h <;> exact Nat.le_refl _

theorem joinTimeouts_le {s t : State Q W T} {a : Act Q W T} (hs : step s a = some t) :
    s.mem.hist.joinTimeouts q ≤ t.mem.hist.joinTimeouts q := by
  cases step_effect hs with
  | step hstep => exact (callStep_stopStep (q := q) hstep).timeouts_le
  | @worker q' m p _ hstep he =>
    by_cases hq : q = q'
    · subst hq
      exact (workerStep_exitStep hstep).timeouts_le
    · exact Nat.le_of_eq (congrArg StopView.timeouts (he.stopView fun h => absurd h hq)).symm
  | call | expire | workerExpire | tick => exact Nat.le_refl _

/-- **A stop that timed out is never completed.** Once a call of `os_work_queue_stop` on `q` has
returned the timeout error of `os_thread_join`, no later one returns zero, `started` stays true, and
`os_work_queue_start` fails. -/
theorem timed_out_stop_final (c : Ctx Q T) {r : Int} {s₀ s t : State Q W T}
    (h : Reachable (workQueueSystem Q W T) s₀) (hc : (s₀.call c).joining = some q)
    (hs : step s₀ (.step c) = some s) (hret : s.call c = .done (.int r))
    (hr : r = -EBUSY ∨ r = -ETIMEDOUT) (hrun : Run (workQueueSystem Q W T) anyStep s t) :
    (∀ c' u, (t.call c').stops q = true → step t (.step c') = some u →
      u.call c' ≠ .done (.int 0)) ∧
    (t.mem.queue q).started = true ∧
    ∀ stackSize noYield created,
      (osWorkQueueStart (t.mem.queue q) stackSize noYield created).2 ≠ 0 := by
  have hs' : (workQueueSystem Q W T).step s₀ (.step c) = some s := hs
  have hreach : Reachable (workQueueSystem Q W T) s := h.step trivial hs'
  have h₀ : 0 < s.mem.hist.joinTimeouts q := by
    cases step_effect hs with
    | step hstep =>
      rw [State.setCall_call_self] at hret
      subst hret
      exact join_timeout hstep hc hr
  have ht : 0 < t.mem.hist.joinTimeouts q :=
    Run.invariant (I := fun u => 0 < u.mem.hist.joinTimeouts q) hreach h₀
      (fun _ _ _ _ hu _ hv => Nat.lt_of_lt_of_le hu (joinTimeouts_le hv)) hrun
  have hreach' : Reachable (workQueueSystem Q W T) t := hreach.then hrun
  have hstarted : (t.mem.queue q).started = true := by
    by_contra hn
    exact absurd ((stopInv_of_reachable hreach' q).started (Bool.eq_false_iff.mpr hn)).1
      (Nat.ne_of_gt ht)
  refine ⟨?_, hstarted, ?_⟩
  · intro c' u hp hu hzero
    exact absurd (stop_result hreach' hp hu hzero) (Nat.ne_of_gt ht)
  · intro stackSize noYield created
    rw [osWorkQueueStart, hstarted]
    split
    · exact (by decide : -EINVAL ≠ 0)
    · exact (by decide : -EALREADY ≠ 0)

end

/-- A thread drains and plugs the queue, and stops it without waiting, up to the join's end. -/
def timeoutRun : List (Act Unit Nat Nat) :=
  [.call (.thread 0) (.drain () true), .step (.thread 0), .step (.thread 0), .step (.thread 0),
    .call (.thread 0) (.stop () 0), .step (.thread 0), .step (.thread 0), .step (.thread 0),
    .step (.thread 0), .step (.thread 0)]

/-- The worker takes the marker and terminates. -/
def exitRun : List (Act Unit Nat Nat) := List.replicate 7 (.worker ())

/-- The thread stops the queue again. -/
def retryRun : List (Act Unit Nat Nat) :=
  [Act.call (.thread 0) (.stop () 0)] ++ List.replicate 8 (Act.step (.thread 0))

theorem timed_out_stop_final_terminated : ∃ s₀ s t : State Unit Nat Nat,
    exec (workQueueSystem Unit Nat Nat) .initial timeoutRun = some s₀ ∧
    step s₀ (.step (.thread 0)) = some s ∧ s.call (.thread 0) = .done (.int (-EBUSY)) ∧
    exec (workQueueSystem Unit Nat Nat) s (exitRun ++ retryRun) = some t ∧
    t.worker () = .terminated ∧ (t.mem.queue ()).started = true :=
  ⟨_, _, _, rfl, rfl, rfl, rfl, rfl,
    (timed_out_stop_final (.thread 0) (reachable_of_exec timeoutRun State.init_initial rfl) rfl rfl
      rfl (.inl rfl) (run_of_exec (exitRun ++ retryRun) rfl)).2.1⟩

/-- The stop times out, the worker takes the marker and terminates. The next stop finds its own
marker in `os_fifo_deinit`, and every later one finds `fifo.count` not zero. -/
theorem timed_out_stop_not_completed : ∃ s t u v : State Unit Nat Nat,
    exec (workQueueSystem Unit Nat Nat) .initial (timeoutRun ++ [.step (.thread 0)]) = some s ∧
    s.call (.thread 0) = .done (.int (-EBUSY)) ∧
    exec (workQueueSystem Unit Nat Nat) s exitRun = some t ∧ t.worker () = .terminated ∧
    exec (workQueueSystem Unit Nat Nat) t retryRun = some u ∧
    u.call (.thread 0) = .done (.int (-EBUSY)) ∧ (u.mem.queue ()).started = true ∧
    exec (workQueueSystem Unit Nat Nat) u (retryRun.take 3) = some v ∧
    v.call (.thread 0) = .done (.int (-EBUSY)) ∧ (v.mem.queue ()).fifo.list = [.stop] ∧
    (osWorkQueueStart (v.mem.queue ()) 1024 false 0).2 = -EALREADY :=
  ⟨_, _, _, _, rfl, rfl, rfl, rfl, rfl, rfl, rfl, rfl, rfl, rfl, rfl⟩

end HazelOsal
