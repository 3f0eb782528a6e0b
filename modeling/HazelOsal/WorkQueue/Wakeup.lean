import HazelOsal.WorkQueue.Delayed
import HazelOsal.WorkQueue.Stop

/-! # The wakeups of a worker

The accounting between the items semaphore of a queue and its worker: `WakeView` is what it reads,
`Wait` where the worker stands, and `CallWake` and `WorkerWake` what a call and the worker do.
`Enough tokens` says that so many tokens, with the gives still to come, are enough for the nodes on
`fifo.list` and for the delayed items that the worker's wait does not time. Two operations may take
more than there is to spare: the `os_sem_trytake` of `os_work_cancel`, when the worker has already
taken the token of the canceled item, and a timed wait that starts later than the tick its timeout
was computed from. -/

namespace HazelOsal

open TransitionSystem

/-! ## The accounting -/

/-- Where the worker stands; `limit` is the tick at which its wait ends at the latest. -/
inductive Wait where
  | busy
  /-- it has a token, or is about to give one -/
  | holding
  | waiting (limit : Option Nat)
  deriving DecidableEq

/-- The tokens, the number of nodes on `fifo.list` and the ticks at which delayed items come due. -/
structure WakeView where
  tokens : Nat
  nodes : Nat
  dues : Nat → Prop

/-- The worker's wait ends by tick `x`. -/
def Wait.endsBy (x : Nat) : Wait → Prop
  | .waiting limit => ∃ e, limit = some e ∧ e ≤ x
  | _ => True

section
variable {C : Type}

/-- The parties that stand for a token: calls that are about to give one, and the worker. -/
def Giver (gives : C → Bool) (wait : Wait) : Option C → Prop
  | none => wait = .holding
  | some c => gives c = true

/-- So many tokens are enough. -/
structure Enough (tokens nodes : Nat) (dues : Nat → Prop) (gives : C → Bool) (wait : Wait) :
    Prop where
  nodes : Covers tokens (Giver gives wait) nodes
  wakes : ∀ x, dues x → wait.endsBy x ∨ 0 < tokens ∨ ∃ c, gives c = true

end

/-- The steps of a call, which is about to give a token or not, and may take one or not. -/
inductive CallWake (takes : Prop) (v v' : WakeView) : Bool → Bool → Prop
  | frame : v'.tokens = v.tokens → v'.nodes ≤ v.nodes → (∀ x, v'.dues x → v.dues x) →
    (g = true → g' = true) → CallWake takes v v' g g'
  | push : v'.tokens = v.tokens → v'.nodes = v.nodes + 1 → (∀ x, v'.dues x → v.dues x) →
    CallWake takes v v' false true
  | kick : v'.tokens = v.tokens → v'.nodes = v.nodes → CallWake takes v v' false true
  | give : v'.tokens = min (v.tokens + 1) 65535 → v'.nodes = v.nodes →
    (∀ x, v'.dues x → v.dues x) → CallWake takes v v' true g'
  | take : takes → v.tokens = v'.tokens + 1 → v'.nodes = v.nodes →
    (∀ x, v'.dues x → v.dues x) → CallWake takes v v' false false

/-- The steps of the worker, but for the start of its wait. -/
inductive WorkerWake (v v' : WakeView) : Wait → Wait → Prop
  | frame : v'.tokens = v.tokens → v'.nodes ≤ v.nodes → (∀ x, v'.dues x → v.dues x) →
    wait ≠ .holding → WorkerWake v v' wait .busy
  /-- it has looked for due items -/
  | look : v' = v → (∀ x, v.dues x → (Wait.waiting limit).endsBy x) →
    WorkerWake v v' .busy (.waiting limit)
  | take : v.tokens = v'.tokens + 1 → v'.nodes = v.nodes → (∀ x, v'.dues x → v.dues x) →
    WorkerWake v v' (.waiting limit) .holding
  | pop : v'.tokens = v.tokens → v'.nodes = v.nodes - 1 → (∀ x, v'.dues x → v.dues x) →
    WorkerWake v v' .holding .busy
  | push : v'.tokens = v.tokens → v'.nodes = v.nodes + 1 → (∀ x, v'.dues x → v.dues x) →
    WorkerWake v v' .busy .holding
  | give : v'.tokens = min (v.tokens + 1) 65535 → v'.nodes = v.nodes →
    (∀ x, v'.dues x → v.dues x) → WorkerWake v v' .holding .busy

section
variable {C : Type} [DecidableEq C] {v v' : WakeView} {gives : C → Bool} {wait wait' : Wait}
  {c : C} {g : Bool} {takes : Prop}

theorem Wait.busy_ne_holding : Wait.busy ≠ .holding := nofun

/-- A step that the accounting does not see. -/
theorem WorkerWake.idle (h : wait ≠ .holding) : WorkerWake v v wait .busy :=
  .frame rfl (Nat.le_refl _) (fun _ hx => hx) h

theorem Giver.update {d : Option C} (hd : d ≠ some c) (h : Giver gives wait d) :
    Giver (Function.update gives c g) wait d := by
  cases d with
  | none => exact h
  | some d =>
    have hne : d ≠ c := fun he => hd (congrArg some he)
    rw [Giver, Function.update_of_ne hne]
    exact h

/-- A call that does not give, or still does, leaves the givers. -/
theorem Giver.keep (hg : gives c = true → g = true) (d : Option C) (h : Giver gives wait d) :
    Giver (Function.update gives c g) wait d := by
  by_cases hd : d = some c
  · subst hd
    rw [Giver, Function.update_self]
    exact hg h
  · exact h.update hd

omit [DecidableEq C] in
theorem Giver.calls {d : Option C} (hd : d ≠ none) (h : Giver gives wait d) :
    Giver gives wait' d := by
  cases d with
  | none => exact absurd rfl hd
  | some d => exact h

omit [DecidableEq C] in
theorem Giver.idle (hw : wait ≠ .holding) (d : Option C) (h : Giver gives wait d) :
    Giver gives wait' d :=
  h.calls fun hd => hw (by rw [hd] at h; exact h)

theorem Covers.giveItem {tokens nodes : Nat} {d : Option C} {gives' : C → Bool}
    (h : Covers tokens (Giver gives wait) nodes) (hbound : nodes ≤ 65535)
    (hg : ∀ e, e ≠ d → Giver gives wait e → Giver gives' wait' e) :
    Covers (min (tokens + 1) 65535) (Giver gives' wait') nodes := by
  by_cases hfull : tokens + 1 ≤ 65535
  · rw [Nat.min_eq_left hfull]
    exact h.give hg
  · rw [Nat.min_eq_right (by omega)]
    exact .of_le hbound

omit [DecidableEq C] in
theorem Enough.mono (h : Enough v.tokens v.nodes v.dues gives wait) (ht : v'.tokens = v.tokens)
    (hn : v'.nodes ≤ v.nodes) (hd : ∀ x, v'.dues x → v.dues x) :
    Enough v'.tokens v'.nodes v'.dues gives wait := by
  rw [ht]
  exact ⟨h.nodes.mono (Nat.le_refl _) hn fun _ hg => hg, fun x hx => h.wakes x (hd x hx)⟩

/-- A step of a call keeps `Enough`, if a token it takes is not needed. -/
theorem Enough.call (h : Enough v.tokens v.nodes v.dues gives wait)
    (hs : CallWake takes v v' (gives c) g) (hbound : v.nodes ≤ 65535)
    (hspare : takes → v.tokens = v'.tokens + 1 → Enough v'.tokens v.nodes v.dues gives wait) :
    Enough v'.tokens v'.nodes v'.dues (Function.update gives c g) wait := by
  generalize hc : gives c = gc at hs
  have hself : Function.update gives c true c = true := Function.update_self ..
  have hwakes {tokens : Nat} (hw : ∀ x, v.dues x → wait.endsBy x ∨ 0 < tokens ∨
      ∃ d, gives d = true) (hkeep : gives c = true → g = true) :
      ∀ x, v.dues x → wait.endsBy x ∨ 0 < tokens ∨ ∃ d, Function.update gives c g d = true := by
    intro x hx
    rcases hw x hx with he | ht | ⟨d, hd⟩
    · exact .inl he
    · exact .inr (.inl ht)
    · have hgiver : Giver (Function.update gives c g) wait (some d) :=
        Giver.keep hkeep (some d) hd
      exact .inr (.inr ⟨d, hgiver⟩)
  cases hs with
  | frame ht hn hd hg =>
    have hkeep : gives c = true → g = true := fun h => hg (hc ▸ h)
    rw [ht]
    exact ⟨h.nodes.mono (Nat.le_refl _) hn (Giver.keep hkeep),
      fun x hx => hwakes h.wakes hkeep x (hd x hx)⟩
  | push ht hn hd =>
    rw [ht, hn]
    refine ⟨?_, fun x _ => .inr (.inr ⟨c, hself⟩)⟩
    refine h.nodes.newGiver (c := some c) ?_ hself fun d hd => Giver.update hd
    rw [Giver, hc]
    nofun
  | kick ht hn =>
    rw [ht, hn]
    exact ⟨h.nodes.mono (Nat.le_refl _) (Nat.le_refl _) (Giver.keep fun _ => rfl),
      fun x _ => .inr (.inr ⟨c, hself⟩)⟩
  | give ht hn hd =>
    rw [ht, hn]
    exact ⟨Covers.giveItem (d := some c) h.nodes hbound fun d hd => Giver.update hd,
      fun x _ => .inr (.inl (by omega))⟩
  | take htake ht hn hd =>
    have hkeep : gives c = true → false = true := fun h => hc ▸ h
    have h' := hspare htake ht
    rw [hn]
    exact ⟨h'.nodes.mono (Nat.le_refl _) (Nat.le_refl _) (Giver.keep hkeep),
      fun x hx => hwakes h'.wakes hkeep x (hd x hx)⟩

/-- So does a step of the worker: the token it takes is its own until it takes a node. -/
theorem Enough.worker (h : Enough v.tokens v.nodes v.dues gives wait)
    (hs : WorkerWake v v' wait wait') (hbound : v.nodes ≤ 65535) :
    Enough v'.tokens v'.nodes v'.dues gives wait' := by
  cases hs with
  | frame ht hn hd hw =>
    rw [ht]
    exact ⟨h.nodes.mono (Nat.le_refl _) hn (Giver.idle hw), fun x _ => .inl trivial⟩
  | look hv hends =>
    rw [hv]
    exact ⟨h.nodes.mono (Nat.le_refl _) (Nat.le_refl _) (Giver.idle nofun),
      fun x hx => .inl (hends x hx)⟩
  | take ht hn hd =>
    rw [hn]
    have hnodes := h.nodes
    rw [ht] at hnodes
    exact ⟨hnodes.take (c := none) nofun rfl fun d hne => Giver.calls hne,
      fun x _ => .inl trivial⟩
  | pop ht hn hd =>
    rw [ht, hn]
    exact ⟨h.nodes.leave (c := none) fun d hne => Giver.calls hne, fun x _ => .inl trivial⟩
  | push ht hn hd =>
    rw [ht, hn]
    exact ⟨h.nodes.newGiver (c := none) nofun rfl fun d hne => Giver.calls hne,
      fun x _ => .inl trivial⟩
  | give ht hn hd =>
    rw [ht, hn]
    exact ⟨Covers.giveItem (d := none) h.nodes hbound fun d hne => Giver.calls hne,
      fun x _ => .inl trivial⟩

omit [DecidableEq C] in
/-- The wait starts, as late as the gives still to come allow. -/
theorem Enough.start {limit limit' : Option Nat} {tokens nodes : Nat} {dues : Nat → Prop}
    (h : Enough tokens nodes dues gives (.waiting limit))
    (hs : ∀ x, dues x → (Wait.waiting limit').endsBy x ∨ ∃ c, gives c = true) :
    Enough tokens nodes dues gives (.waiting limit') := by
  refine ⟨h.nodes.mono (Nat.le_refl _) (Nat.le_refl _) (Giver.idle nofun), fun x hx => ?_⟩
  rcases hs x hx with he | hg
  · exact .inl he
  · exact .inr (.inr hg)

end

/-! ## The calls and the worker of a queue -/

variable {Q W T : Type} [DecidableEq Q] [DecidableEq W]

def Mem.wakeView (m : Mem Q W) (q : Q) : WakeView where
  tokens := (m.queue q).fifo.items.count
  nodes := (m.queue q).fifo.list.length
  dues x := ∃ d ∈ (m.queue q).delayed, m.currentDue d = x

/-- The call has left its critical section and is still to give a token to queue `q`. -/
def Pc.gives (q : Q) (p : Pc Q W) : Bool :=
  p.giving = some q ||
    match p with
    | .scheduleGiveOld _ q' => q' = q
    | _ => false

/-- The next step may change the items semaphore of `q`. -/
def Pc.usesItems (q : Q) (p : Pc Q W) : Bool :=
  p.giving = some q ||
    match p with
    | .cancelTrytake q' _ _ _ | .deinitSem q' | .deinitZero q' => q' = q
    | _ => false

/-- Where the worker stands with respect to its items semaphore. -/
def WorkerPc.wait : WorkerPc Q W → Wait
  | .take timeout sampled => .waiting (waitExpiry sampled timeout)
  | .blocked expiry => .waiting expiry
  | .pop | .promoteSubmit _ _ (.give ..) => .holding
  | _ => .busy

section
variable {c : Ctx Q T} {m m' : Mem Q W} {q q' : Q} {w d : W} {p p' : Pc Q W}

/-! ### Calls -/

omit [DecidableEq W] in
theorem setQueue_items {v : OsWorkQueue W} (h : q = q' → v.fifo.items = (m.queue q).fifo.items) :
    ((m.setQueue q' v).queue q).fifo.items = (m.queue q).fifo.items := by
  rw [Mem.setQueue_queue]
  split
  case isTrue hq => exact h hq
  case isFalse => rfl

theorem CallSame.items (he : CallSame c m p m' p') (hu : p.usesItems q = false) :
    (m'.queue q).fifo.items = (m.queue q).fifo.items := by
  cases he with
  | move => rfl
  | giveItems hg =>
    refine setQueue_items fun hq => ?_
    simp [Pc.usesItems, hg, hq] at hu
  | trytakeItems =>
    refine setQueue_items fun hq => ?_
    simp [Pc.usesItems, hq] at hu
  | takeSync _ _ hm => obtain ⟨sync, -, rfl⟩ := Option.map_eq_some_iff.mp hm; rfl
  | notify => simp only [Mem.osWorkNotify]; split <;> rfl
  | drainBegin => exact setQueue_items fun hq => by rw [hq]
  | drainCheck =>
    simp only [osWorkQueueDrainCheck]
    split
    · exact setQueue_items fun hq => by rw [hq]
    · rfl
  | unplug =>
    simp only [osWorkQueueUnplugCritical]
    split
    · exact setQueue_items fun hq => by rw [hq]
    · rfl
  | thread => exact setQueue_items fun hq => by rw [hq]
  | joinError =>
    simp only [Mem.recordJoin]
    split
    all_goals exact setQueue_items fun hq => by rw [hq]
  | deinitSem =>
    refine setQueue_items fun hq => ?_
    simp [Pc.usesItems, hq] at hu
  | finish => exact setQueue_items fun hq => by rw [hq]

theorem CallEffect.items (he : CallEffect c m p m' p') (hu : p.usesItems q = false) :
    (m'.queue q).fifo.items = (m.queue q).fifo.items := by
  cases he with
  | same he => exact he.items hu
  | enqueue =>
    rw [enqueue_queue]
    split
    case isTrue hq => rw [hq]
    case isFalse => rfl
  | cancel =>
    simp only [osWorkCancelCritical, mark_queue]
    split
    · rw [dequeue_queue]
    · rfl
  | arm | rearm =>
    rw [arm_queue]
    split
    case isTrue hq => subst hq; rfl
    case isFalse => rfl
  | unschedule | cancelDelayable | flushDelayable | purge => rfl
  | markStop => exact setQueue_items fun hq => by rw [hq]
  | zero =>
    refine setQueue_items fun hq => ?_
    simp [Pc.usesItems, hq] at hu

omit [DecidableEq Q] [DecidableEq W] in
theorem dues_subset (h : ∀ d ∈ (m'.queue q).delayed, d ∈ (m.queue q).delayed ∧
    m'.currentDue d = m.currentDue d) (x : Nat) (hx : (m'.wakeView q).dues x) :
    (m.wakeView q).dues x := by
  obtain ⟨d, hd, rfl⟩ := hx
  exact ⟨d, (h d hd).1, (h d hd).2.symm⟩

omit [DecidableEq Q] [DecidableEq W] in
theorem dues_same (hd : (m'.queue q).delayed = (m.queue q).delayed) (hs : SameFates m m') (x : Nat)
    (hx : (m'.wakeView q).dues x) : (m.wakeView q).dues x :=
  dues_subset (fun d h => ⟨hd ▸ h, hs.currentDue d⟩) x hx

omit [DecidableEq W] in
theorem setQueue_dues {v : OsWorkQueue W} (hd : v.delayed = (m.queue q').delayed) (x : Nat)
    (hx : ((m.setQueue q' v).wakeView q).dues x) : (m.wakeView q).dues x := by
  have hs : SameDelay m (m.setQueue q' v) := setQueue_sameDelay hd
  exact dues_same (hs.delayed q) (hs.sameFates ⟨rfl, rfl, rfl⟩) x hx

/-- A schedule is on the delayed list of one queue only. -/
theorem arm_dues {delay : UInt32} (hm : DelayInv m) (hd : (m.work d).flags.delayed = false)
    (hq : q ≠ q') (x : Nat) (hx : ((osWorkArm m q' d delay).wakeView q).dues x) :
    (m.wakeView q).dues x := by
  refine dues_subset (fun e he => ?_) x hx
  rw [arm_queue, if_neg hq] at he
  have hne : e ≠ d := by
    rintro rfl
    rw [(hm.delayed_of_mem he).1] at hd
    cases hd
  rw [arm_currentDue, if_neg hne]
  exact ⟨he, rfl⟩

omit [DecidableEq Q] in
theorem clearDelayed_dues (x : Nat) (hx : ((clearDelayed m d).wakeView q).dues x) :
    (m.wakeView q).dues x := by
  refine dues_subset (fun e he => ?_) x hx
  exact ⟨List.mem_of_mem_erase he, rfl⟩

omit [DecidableEq W] in
theorem rearmNext_gives {old : Option Q} : (rearmNext old q : Pc Q W).gives q = true := by
  simp only [rearmNext]
  split
  · split <;> simp [Pc.gives, Pc.giving]
  · simp [Pc.gives, Pc.giving]

theorem arm_nodes {delay : UInt32} :
    ((osWorkArm m q' d delay).wakeView q).nodes = (m.wakeView q).nodes := by
  simp only [Mem.wakeView, arm_queue]
  split
  case isTrue hq => subst hq; rfl
  case isFalse => rfl

theorem enqueue_wake :
    ((osWorkEnqueue m q w).wakeView q).tokens = (m.wakeView q).tokens ∧
    ((osWorkEnqueue m q w).wakeView q).nodes = (m.wakeView q).nodes + 1 ∧
    ∀ x, ((osWorkEnqueue m q w).wakeView q).dues x → (m.wakeView q).dues x := by
  refine ⟨?_, ?_, dues_same (enqueue_sameDelay.delayed q)
    (enqueue_sameDelay.sameFates ⟨rfl, rfl, rfl⟩)⟩
  · simp only [Mem.wakeView, enqueue_queue, if_true]
  · simp only [Mem.wakeView, enqueue_queue, if_true, List.length_append, List.length_singleton]

theorem CallEffect.wake (he : CallEffect c m p m' p') (hm : MemInv m)
    (hu : p.usesItems q = false) :
    CallWake (∃ w flags k, p = .cancelTrytake q w flags k) (m.wakeView q) (m'.wakeView q) false
      (p'.gives q) := by
  have ht : (m'.wakeView q).tokens = (m.wakeView q).tokens := congrArg OsSem.count (he.items hu)
  have hg {g : Bool} : false = true → g = true := nofun
  cases he with
  | same he =>
    have hl : (m'.wakeView q).nodes = (m.wakeView q).nodes :=
      congrArg List.length (he.same.list q)
    exact .frame ht (Nat.le_of_eq hl) (dues_same (he.same.delayed q) he.same.sameFates) hg
  | @enqueue q₁ w r k =>
    have hd := dues_same (enqueue_sameDelay.delayed q)
      ((enqueue_sameDelay (m := m) (q := q₁) (w := w)).sameFates ⟨rfl, rfl, rfl⟩)
    by_cases hq : q = q₁
    · subst hq
      have hg : (Pc.submit (.give q w r) k : Pc Q W).gives q = true := by
        simp [Pc.gives, Pc.giving]
      rw [hg]
      exact .push ht enqueue_wake.2.1 hd
    · have hl : ((osWorkEnqueue m q₁ w).wakeView q).nodes = (m.wakeView q).nodes := by
        simp only [Mem.wakeView, enqueue_queue, if_neg hq]
      exact .frame ht (Nat.le_of_eq hl) hd hg
  | @cancel w k =>
    have hl : ((osWorkCancelCritical m w).1.wakeView q).nodes ≤ (m.wakeView q).nodes := by
      simp only [osWorkCancelCritical, Mem.wakeView, mark_queue]
      split
      · rw [dequeue_queue]; exact List.length_erase_le
      · exact Nat.le_refl _
    exact .frame ht hl (dues_same ((cancel_sameDelay hm.toRunInv).delayed q)
      (cancel_sameFates hm.toRunInv)) hg
  | @arm q₁ d reschedule delay ha hd =>
    by_cases hq : q = q₁
    · subst hq
      have hg : (.scheduleGive q : Pc Q W).gives q = true := by simp [Pc.gives, Pc.giving]
      rw [hg]
      exact .kick ht arm_nodes
    · exact .frame ht (Nat.le_of_eq arm_nodes) (arm_dues hm.delay hd hq) hg
  | @rearm q₁ d reschedule delay ha hd =>
    have hd' : ((undelay m d .replaced).work d).flags.delayed = false := by
      rw [undelay_work, clearDelayed_work, if_pos rfl]
    by_cases hq : q = q₁
    · subst hq
      rw [rearmNext_gives]
      exact .kick ht arm_nodes
    · exact .frame ht (Nat.le_of_eq arm_nodes)
        (fun x hx => clearDelayed_dues x (arm_dues hm.undelay.delay hd' hq x hx)) hg
  | unschedule | cancelDelayable | flushDelayable | purge =>
    exact .frame ht (Nat.le_refl _) clearDelayed_dues hg
  | @markStop q₁ timeout =>
    have hd : ∀ x, ((osWorkQueueMarkStop m q₁).wakeView q).dues x → (m.wakeView q).dues x :=
      setQueue_dues rfl
    by_cases hq : q = q₁
    · subst hq
      have hg : (.stopGive q timeout : Pc Q W).gives q = true := by simp [Pc.gives, Pc.giving]
      rw [hg]
      refine .push ht ?_ hd
      simp only [Mem.wakeView, osWorkQueueMarkStop, Mem.setQueue_queue, if_true,
        List.length_append, List.length_singleton]
    · refine .frame ht (Nat.le_of_eq ?_) hd hg
      simp only [Mem.wakeView, osWorkQueueMarkStop, Mem.setQueue_queue, if_neg hq]
  | @zero q₁ =>
    refine .frame ht ?_ (setQueue_dues rfl) hg
    simp only [Mem.wakeView, Mem.setQueue_queue]
    split
    case isTrue hq => exact Nat.zero_le _
    case isFalse => exact Nat.le_refl _

theorem callStep_giving (h : callStep c m p = some (m', p')) (hg : p.giving = some q) :
    m' = m.giveItems q := by
  cases p with
  | submit p k =>
    cases p with
    | give q' w r => cases hg; cases h; rfl
    | enter | lock => cases hg
  | scheduleGiveSubmit | scheduleGiveOld | scheduleGive | cancelDelayableGive | flushDelayableGive
  | stopGive => cases hg; cases h; rfl
  | _ => cases hg

omit [DecidableEq W] in
theorem giveItems_wake (hm : (m.queue q).fifo.items.handle = true) :
    ((m.giveItems q).wakeView q).tokens = min ((m.wakeView q).tokens + 1) 65535 ∧
    ((m.giveItems q).wakeView q).nodes = (m.wakeView q).nodes ∧
    ∀ x, ((m.giveItems q).wakeView q).dues x → (m.wakeView q).dues x := by
  refine ⟨?_, ?_, setQueue_dues rfl⟩
  · simp only [Mem.wakeView, Mem.giveItems, Mem.setQueue_queue, if_true]
    exact OsSem.give_count_of_handle hm
  · simp only [Mem.wakeView, Mem.giveItems, Mem.setQueue_queue, if_true]

/-- A call that is about to give a token gives it, or has another one to give. -/
theorem callStep_give (h : callStep c m p = some (m', p')) (hg : p.gives q = true)
    (hm : (m.queue q).fifo.items.handle = true) :
    CallWake (∃ w flags k, p = .cancelTrytake q w flags k) (m.wakeView q) (m'.wakeView q) true
      (p'.gives q) := by
  by_cases hgive : p.giving = some q
  · have hm' := callStep_giving h hgive
    obtain ⟨ht, hn, hd⟩ := giveItems_wake hm
    rw [hm']
    exact .give ht hn hd
  · cases p with
    | scheduleGiveOld old q' =>
      have hq : q' = q := by simpa [Pc.gives, hgive] using hg
      have hne : q ≠ old := fun he => hgive (congrArg some he.symm)
      subst hq
      cases h
      have hv : (m.giveItems old).queue q' = m.queue q' := by
        rw [Mem.giveItems, Mem.setQueue_queue, if_neg hne]
      refine .frame ?_ ?_ (setQueue_dues rfl) fun _ => ?_
      · simp only [Mem.wakeView, hv]
      · simp only [Mem.wakeView, hv, Nat.le_refl]
      · simp [Pc.gives, Pc.giving]
    | _ => simp [Pc.gives, hgive] at hg

/-- The `os_sem_trytake` of a cancel takes a token, if there is one. -/
theorem callStep_trytake {flags : WorkFlags} {k : CancelCont Q}
    (h : callStep c m (.cancelTrytake q w flags k) = some (m', p')) :
    CallWake (∃ w' flags' k', .cancelTrytake q w flags k = Pc.cancelTrytake q w' flags' k')
      (m.wakeView q) (m'.wakeView q) false (p'.gives q) := by
  cases h
  have hg : (.cancelNotify w flags k : Pc Q W).gives q = false := rfl
  have hn : ((m.trytakeItems q).wakeView q).nodes = (m.wakeView q).nodes := by
    simp only [Mem.wakeView, Mem.trytakeItems, Mem.setQueue_queue, if_true]
  have ht : ((m.trytakeItems q).wakeView q).tokens = (m.queue q).fifo.items.trytake.count := by
    simp only [Mem.wakeView, Mem.trytakeItems, Mem.setQueue_queue, if_true]
  rw [hg]
  cases htake : (m.queue q).fifo.items.tryTake with
  | none =>
    rw [OsSem.trytake, htake] at ht
    exact .frame ht (Nat.le_of_eq hn) (setQueue_dues rfl) id
  | some items =>
    rw [OsSem.trytake, htake] at ht
    refine .take ⟨w, flags, k, rfl⟩ ?_ hn (setQueue_dues rfl)
    rw [ht]
    exact (OsSem.tryTake_eq_some htake).2

/-- **The calls follow the accounting.** -/
theorem callStep_wake (h : callStep c m p = some (m', p')) (hm : MemInv m)
    (hh : (m.queue q).fifo.items.handle = true) (hclose : p.stopPhase q ≠ some .closing) :
    CallWake (∃ w flags k, p = .cancelTrytake q w flags k) (m.wakeView q) (m'.wakeView q)
      (p.gives q) (p'.gives q) := by
  cases hg : p.gives q with
  | true => exact callStep_give h hg hh
  | false =>
    cases hu : p.usesItems q with
    | false => exact (callStep_effect h).wake hm hu
    | true =>
      have hgive : ¬ p.giving = some q := by
        intro hgive
        simp [Pc.gives, hgive] at hg
      cases p with
      | cancelTrytake q' w flags k =>
        have hq : q' = q := by simpa [Pc.usesItems, hgive] using hu
        subst hq
        exact callStep_trytake h
      | deinitSem q' | deinitZero q' =>
        have hq : q' = q := by simpa [Pc.usesItems, hgive] using hu
        subst hq
        exact (hclose (Pc.stopPhase_eq rfl)).elim
      | _ => simp [Pc.usesItems, hgive] at hu

theorem callStep_handle (h : callStep c m p = some (m', p'))
    (hh : (m.queue q).fifo.items.handle = true) (hclose : p.stopPhase q ≠ some .closing) :
    (m'.queue q).fifo.items.handle = true := by
  by_cases hgive : p.giving = some q
  · rw [callStep_giving h hgive, Mem.giveItems, Mem.setQueue_queue, if_pos rfl]
    exact (OsSem.give_handle _).trans hh
  · cases hu : p.usesItems q with
    | false => rw [(callStep_effect h).items hu]; exact hh
    | true =>
      cases p with
      | cancelTrytake q' w flags k =>
        have hq : q' = q := by simpa [Pc.usesItems, hgive] using hu
        subst hq
        cases h
        rw [Mem.trytakeItems, Mem.setQueue_queue, if_pos rfl]
        exact (OsSem.trytake_handle _).trans hh
      | deinitSem q' | deinitZero q' =>
        have hq : q' = q := by simpa [Pc.usesItems, hgive] using hu
        subst hq
        exact (hclose (Pc.stopPhase_eq rfl)).elim
      | _ => simp [Pc.usesItems, hgive] at hu

end

/-! ### Workers -/

variable [DecidableEq T]

section
variable {m m' : Mem Q W} {q q' : Q} {w d : W} {p p' : WorkerPc Q W}

theorem start_wake {rest : List (FifoNode W)} :
    ((osWorkQueueEntryStart m q' w rest).queue q).fifo.items = (m.queue q).fifo.items ∧
    ∀ x, ((osWorkQueueEntryStart m q' w rest).wakeView q).dues x → (m.wakeView q).dues x := by
  refine ⟨?_, dues_same (start_sameDelay.delayed q) (start_sameDelay.sameFates ⟨rfl, rfl, rfl⟩)⟩
  rw [start_queue]
  split
  case isTrue hq => subst hq; rfl
  case isFalse => rfl

theorem complete_wake :
    ((osWorkQueueEntryComplete m q' w).queue q).fifo = (m.queue q).fifo ∧
    ∀ x, ((osWorkQueueEntryComplete m q' w).wakeView q).dues x → (m.wakeView q).dues x := by
  refine ⟨?_,
    dues_same (complete_sameDelay.delayed q) (complete_sameDelay.sameFates ⟨rfl, rfl, rfl⟩)⟩
  rw [complete_queue]
  split
  case isTrue hq => subst hq; rfl
  case isFalse => rfl

/-- The worker of another queue leaves the tokens and the nodes alone. -/
theorem WorkerEffect.wake_of_ne (he : WorkerEffect m q' p m' p') (hp : p.promotesTo q')
    (hne : q ≠ q') :
    (m'.queue q).fifo.items = (m.queue q).fifo.items ∧
    (m'.queue q).fifo.list = (m.queue q).fifo.list ∧
    ∀ x, (m'.wakeView q).dues x → (m.wakeView q).dues x := by
  cases he with
  | same he =>
    refine ⟨?_, he.same.list q, dues_same (he.same.delayed q) he.same.sameFates⟩
    cases he with
    | move => rfl
    | giveItems =>
      obtain ⟨ht, -⟩ := hp
      cases ht
      exact setQueue_items fun hq => absurd hq hne
    | takeItems _ hm =>
      obtain ⟨items, -, rfl⟩ := Option.map_eq_some_iff.mp hm
      exact setQueue_items fun hq => absurd hq hne
    | notify => simp only [Mem.osWorkNotify]; split <;> rfl
    | thread => exact setQueue_items fun hq => by rw [hq]
  | refuse => exact ⟨rfl, rfl, fun _ h => h⟩
  | @enqueue q₁ w r d j =>
    obtain ⟨ht, -⟩ := hp
    cases ht
    refine ⟨?_, ?_, fun x hx => dues_same (enqueue_sameDelay.delayed q)
      (enqueue_sameDelay.sameFates ⟨rfl, rfl, rfl⟩) x hx⟩
    · simp only [Mem.settle, enqueue_queue, if_neg hne]
    · simp only [Mem.settle, enqueue_queue, if_neg hne]
  | promote | block => exact ⟨rfl, rfl, clearDelayed_dues⟩
  | stop =>
    rw [Mem.setQueue_queue, if_neg hne]
    exact ⟨rfl, rfl, setQueue_dues rfl⟩
  | start =>
    refine ⟨start_wake.1, ?_, start_wake.2⟩
    rw [start_queue, if_neg hne]
  | complete =>
    rw [complete_wake.1]
    exact ⟨rfl, rfl, complete_wake.2⟩

/-! ### The worker's own steps -/

/-- An item whose due tick has come is seen to be due by `os_work_promote_delayed`. -/
def seesDue (m : Mem Q W) (q : Q) (sampled : Nat) : Prop :=
  ∀ d ∈ (m.queue q).delayed, m.currentDue d < sampled →
    osWorkDeadlineRemaining (m.dwork d).deadline (UInt32.ofNat sampled) = 0

instance {sampled : Nat} : Decidable (seesDue m q sampled) :=
  inferInstanceAs (Decidable (∀ d ∈ (m.queue q).delayed, m.currentDue d < sampled →
    osWorkDeadlineRemaining (m.dwork d).deadline (UInt32.ofNat sampled) = 0))

omit [DecidableEq W] in
/-- The scan that finds no due item returns the shortest remaining time. -/
theorem promoteScan_none {deadline : W → UInt32} {now timeout t : UInt32} {ds : List W}
    (h : promoteScan deadline now ds timeout = (none, t)) :
    (timeout ≠ OS_WAIT_FOREVER → t ≠ OS_WAIT_FOREVER ∧ t ≤ timeout) ∧
    ∀ d ∈ ds, osWorkDeadlineRemaining (deadline d) now ≠ 0 ∧ t ≠ OS_WAIT_FOREVER ∧
      t ≤ osWorkDeadlineRemaining (deadline d) now := by
  induction ds generalizing timeout with
  | nil =>
    cases h
    exact ⟨fun h => ⟨h, UInt32.le_refl _⟩, nofun⟩
  | cons d ds ih =>
    simp only [promoteScan] at h
    split at h
    case isTrue => cases h
    case isFalse h0 =>
      obtain ⟨hle, hmin⟩ := ih h
      have hr : osWorkDeadlineRemaining (deadline d) now ≠ OS_WAIT_FOREVER := by
        intro he
        have := SerialTicks.ahead_lt (deadline d) now
        rw [osWorkDeadlineRemaining] at he
        rw [he] at this
        exact absurd this (by decide)
      split at hle
      case isTrue hlt =>
        obtain ⟨ht, htr⟩ := hle hr
        refine ⟨fun hto => ⟨ht, ?_⟩, fun e he => ?_⟩
        · exact UInt32.le_trans htr (UInt32.le_of_lt (hlt.resolve_left hto))
        · rcases List.mem_cons.mp he with rfl | he
          · exact ⟨h0, ht, htr⟩
          · exact hmin e he
      case isFalse hlt =>
        obtain ⟨hto, hge⟩ := not_or.mp hlt
        obtain ⟨ht, htt⟩ := hle hto
        refine ⟨fun _ => ⟨ht, htt⟩, fun e he => ?_⟩
        rcases List.mem_cons.mp he with rfl | he
        · exact ⟨h0, ht, UInt32.le_trans htt (UInt32.not_lt.mp hge)⟩
        · exact hmin e he

/-- The wait that follows such a scan ends by every due tick. -/
theorem look_endsBy {sampled : Nat} {t : UInt32} (hm : DelayInv m) (hdl : DeadlineInv m)
    (hsees : seesDue m q sampled)
    (h : promoteScan (fun d => (m.dwork d).deadline) (UInt32.ofNat sampled) (m.queue q).delayed
      OS_WAIT_FOREVER = (none, t)) (x : Nat) (hx : (m.wakeView q).dues x) :
    (Wait.waiting (waitExpiry sampled t)).endsBy x := by
  obtain ⟨d, hd, rfl⟩ := hx
  obtain ⟨h0, ht, hle⟩ := (promoteScan_none h).2 d hd
  have hge : sampled ≤ m.currentDue d := Nat.not_lt.mp fun hlt => h0 (hsees d hd hlt)
  refine ⟨sampled + t.toNat, if_neg ht, ?_⟩
  have hahead := SerialTicks.ahead_le hge
  rw [← hdl d (hm.delayed_of_mem hd).1] at hahead
  have hle : t.toNat ≤ (SerialTicks.ahead (m.dwork d).deadline (UInt32.ofNat sampled)).toNat := hle
  omega

theorem promoteLock_wake {sampled : Nat} (hm : MemInv m) (hdl : DeadlineInv m)
    (hsees : seesDue m q sampled) (h : workerStep m q (.promoteLock sampled) = some (m', p')) :
    WorkerWake (m.wakeView q) (m'.wakeView q) .busy p'.wait := by
  simp only [workerStep, osWorkPromoteDelayedCritical] at h
  cases hs : promoteScan (fun d => (m.dwork d).deadline) (UInt32.ofNat sampled)
      (m.queue q).delayed OS_WAIT_FOREVER with
  | mk due t =>
    rw [hs] at h
    cases due with
    | none => cases h; exact .look rfl (look_endsBy hm.delay hdl hsees hs)
    | some d =>
      by_cases hb : ((m.queue q).plugged || (m.queue q).stopping) = true
      · simp only [hb, if_true] at h
        cases h; exact .frame rfl (Nat.le_refl _) clearDelayed_dues Wait.busy_ne_holding
      · simp only [hb] at h
        cases h; exact .frame rfl (Nat.le_refl _) clearDelayed_dues Wait.busy_ne_holding

theorem promoteSubmit_wake {j : Nat} {p : SubmitPc Q W}
    (hh : (m.queue q).fifo.items.handle = true)
    (ht : p.target = some q) (h : workerStep m q (.promoteSubmit d j p) = some (m', p')) :
    WorkerWake (m.wakeView q) (m'.wakeView q) (WorkerPc.promoteSubmit d j p).wait p'.wait := by
  cases p with
  | give q' w r =>
    cases ht
    cases h
    obtain ⟨ht, hn, hd⟩ := giveItems_wake hh
    exact .give ht hn hd
  | enter queue w =>
    simp only [workerStep] at h
    rcases submit_enter_cases (some q) m queue w with ⟨r, -, hp⟩ | ⟨q', hp⟩
    all_goals rw [hp] at h; cases h; exact .idle Wait.busy_ne_holding
  | lock q' w =>
    cases ht
    simp only [workerStep, SubmitPc.step] at h
    rcases submit_cases (some q) m q w with ⟨-, hc⟩ | ⟨-, r, hr, hc⟩
    · have hr : (0 : Int) < if (m.work w).flags.running then 2 else 1 := by split <;> decide
      rw [hc] at h
      simp only [hr, if_true, settleSubmit] at h
      cases h
      have hview (f : Fate) :
          ((osWorkEnqueue m q w).settle d j f).wakeView q = (osWorkEnqueue m q w).wakeView q := rfl
      rw [hview]
      exact .push enqueue_wake.1 enqueue_wake.2.1 enqueue_wake.2.2
    · rw [hc] at h
      simp only [Int.not_lt.mpr hr, if_false, settleSubmit] at h
      cases h
      exact .idle Wait.busy_ne_holding

omit [DecidableEq W] in
theorem takeItems_wake (h : m.takeItems? q = some m') :
    (m.wakeView q).tokens = (m'.wakeView q).tokens + 1 ∧
    (m'.wakeView q).nodes = (m.wakeView q).nodes ∧
    ∀ x, (m'.wakeView q).dues x → (m.wakeView q).dues x := by
  obtain ⟨items, hi, rfl⟩ := Option.map_eq_some_iff.mp h
  refine ⟨?_, ?_, setQueue_dues rfl⟩
  · simp only [Mem.wakeView, Mem.setQueue_queue, if_true]
    exact (OsSem.tryTake_eq_some hi).2
  · simp only [Mem.wakeView, Mem.setQueue_queue, if_true]

theorem pop_wake (h : workerStep m q .pop = some (m', p')) (hx : p'.exited = false) :
    WorkerWake (m.wakeView q) (m'.wakeView q) .holding p'.wait := by
  simp only [workerStep, osWorkQueueEntryPop] at h
  cases hl : (m.queue q).fifo.list with
  | nil =>
    rw [hl] at h
    cases h
    refine .pop rfl ?_ fun _ h => h
    simp only [Mem.wakeView, hl, List.length_nil]
  | cons node rest =>
    rw [hl] at h
    cases node with
    | stop => cases h; cases hx
    | work w =>
      cases h
      refine .pop (congrArg OsSem.count start_wake.1) ?_ start_wake.2
      simp only [Mem.wakeView, start_queue, if_true, popped, hl, List.length_cons,
        Nat.add_sub_cancel]

omit [DecidableEq Q] in
theorem notify_wakeView : (m.osWorkNotify w).wakeView q = m.wakeView q := by
  simp only [Mem.osWorkNotify]; split <;> rfl

theorem WorkerEffect.handle (he : WorkerEffect m q' p m' p') :
    (m'.queue q).fifo.items.handle = (m.queue q).fifo.items.handle := by
  have hset {q₁ : Q} {v : OsWorkQueue W}
      (h : v.fifo.items.handle = (m.queue q₁).fifo.items.handle) :
      ((m.setQueue q₁ v).queue q).fifo.items.handle = (m.queue q).fifo.items.handle := by
    rw [Mem.setQueue_queue]
    split
    case isTrue hq => rw [h, hq]
    case isFalse => rfl
  cases he with
  | same he =>
    cases he with
    | move => rfl
    | giveItems => exact hset (OsSem.give_handle _)
    | takeItems _ hm =>
      obtain ⟨items, hi, rfl⟩ := Option.map_eq_some_iff.mp hm
      exact hset (OsSem.tryTake_eq_some hi).1
    | notify => simp only [Mem.osWorkNotify]; split <;> rfl
    | thread => exact hset rfl
  | refuse | promote | block => rfl
  | enqueue =>
    simp only [Mem.settle, enqueue_queue]
    split
    case isTrue hq => rw [hq]
    case isFalse => rfl
  | stop => exact hset rfl
  | start => rw [start_wake.1]
  | complete => rw [complete_wake.1]

/-- **The worker follows the accounting**, or starts its wait. -/
theorem workerStep_wake (h : workerStep m q p = some (m', p')) (hm : MemInv m)
    (hdl : DeadlineInv m) (hh : (m.queue q).fifo.items.handle = true) (ht : p.promotesTo q)
    (hx : p'.exited = false) (hsees : ∀ sampled, p = .promoteLock sampled → seesDue m q sampled) :
    WorkerWake (m.wakeView q) (m'.wakeView q) p.wait p'.wait ∨
    ∃ timeout sampled, p = .take timeout sampled ∧ (m.wakeView q).tokens = 0 ∧ timeout ≠ 0 ∧
      m' = m ∧ p' = .blocked (waitExpiry m.tick timeout) := by
  cases p with
  | promoteLock sampled => exact .inl (promoteLock_wake hm hdl (hsees _ rfl) h)
  | promoteSubmit d j p => exact .inl (promoteSubmit_wake hh ht.1 h)
  | pop => exact .inl (pop_wake h hx)
  | take timeout sampled =>
    simp only [workerStep, hh] at h
    rw [if_neg (by decide)] at h
    split at h
    case h_1 htake =>
      cases h
      obtain ⟨ht, hn, hd⟩ := takeItems_wake htake
      exact .inl (.take ht hn hd)
    case h_2 htake =>
      split at h
      case isTrue => cases h; exact .inl (.idle nofun)
      case isFalse h0 =>
        cases h
        exact .inr ⟨timeout, sampled, rfl,
          OsSem.tryTake_eq_none hh (Option.map_eq_none_iff.mp htake), h0, rfl, rfl⟩
  | blocked expiry =>
    obtain ⟨m₁, htake, h⟩ := Option.map_eq_some_iff.mp h
    cases h
    obtain ⟨ht, hn, hd⟩ := takeItems_wake htake
    exact .inl (.take ht hn hd)
  | complete w =>
    cases h
    refine .inl (.frame ?_ ?_ complete_wake.2 Wait.busy_ne_holding)
    · simp only [Mem.wakeView, complete_wake.1]
    · simp only [Mem.wakeView, complete_wake.1, Nat.le_refl]
  | promoteNotify w =>
    cases h
    rw [notify_wakeView]
    exact .inl (.idle Wait.busy_ne_holding)
  | notify w =>
    simp only [workerStep, Option.some.injEq, Prod.mk.injEq] at h
    obtain ⟨rfl, rfl⟩ := h
    rw [notify_wakeView]
    split
    all_goals exact .inl (.idle Wait.busy_ne_holding)
  | promote | run w | yield => cases h; exact .inl (.idle Wait.busy_ne_holding)
  | exitComplete | exitGive | exitSignal => cases h; cases hx
  | terminated => cases h

end

/-! ## Every run -/

/-- `tokens` tokens of the items semaphore of `q` are enough. -/
def State.enough (s : State Q W T) (q : Q) (tokens : Nat) : Prop :=
  Enough tokens (s.mem.wakeView q).nodes (s.mem.wakeView q).dues (fun c => (s.call c).gives q)
    (s.worker q).wait

/-- A tick has passed between the `os_tick_get` of the worker and its `os_sem_take` for
`timeout`. -/
def State.startsLate (s : State Q W T) (timeout : UInt32) (sampled : Nat) : Prop :=
  timeout ≠ OS_WAIT_FOREVER ∧ s.mem.tick ≠ sampled

/-- Such a wait for `timeout` does no harm: it still ends by the due tick of each delayed item, or a
token is still to be given. -/
def State.lateHarmless (s : State Q W T) (q : Q) (timeout : UInt32) : Prop :=
  (∀ d ∈ (s.mem.queue q).delayed, s.mem.tick + timeout.toNat ≤ s.mem.currentDue d) ∨
    ∃ c, (s.call c).gives q = true

/-- The wait of the worker of `q` does not start late, or late without harm. -/
def State.startsInTime (s : State Q W T) (q : Q) (timeout : UInt32) (sampled : Nat) : Prop :=
  s.startsLate timeout sampled → s.lateHarmless q timeout

/-- The `os_sem_trytake` of a cancel takes a token of `q` only if it is to spare; the worker of `q`
sees every item that has come due, and starts its wait in time. -/
def keepsWakeups (q : Q) (s : State Q W T) : Act Q W T → Prop
  | .step c => ∀ w flags k tokens, s.call c = .cancelTrytake q w flags k →
    (s.mem.queue q).fifo.items.count = tokens + 1 → s.enough q tokens
  | .worker q' => q' = q →
    (∀ sampled, s.worker q = .promoteLock sampled → seesDue s.mem q sampled) ∧
    ∀ timeout sampled, s.worker q = .take timeout sampled →
      (s.mem.queue q).fifo.items.count = 0 → s.startsInTime q timeout sampled
  | _ => True

/-- Until the worker of `q` leaves, there are enough tokens. -/
def WakeInv (q : Q) (s : State Q W T) : Prop :=
  (s.worker q).exited = false →
    (s.mem.queue q).fifo.items.handle = true ∧ s.enough q (s.mem.queue q).fifo.items.count

section
variable {s t : State Q W T} {q : Q} {c : Ctx Q T}

omit [DecidableEq W] in
theorem setCall_gives {m : Mem Q W} {p : Pc Q W} :
    (fun c' => ((s.setCall c m p).call c').gives q) =
      Function.update (fun c' => (s.call c').gives q) c (p.gives q) := by
  funext c'
  rw [State.setCall_call, Function.update_apply]
  split <;> rfl

omit [DecidableEq W] in
theorem Pc.free_gives {p : Pc Q W} (h : p.free = true) : p.gives q = false := by
  cases p with
  | idle | done r => rfl
  | _ => cases h

/-- No stop frees the semaphore before the worker has left. -/
theorem not_closing (h : Reachable (workQueueSystem Q W T) s) (hx : (s.worker q).exited = false)
    (c : Ctx Q T) : (s.call c).stopPhase q ≠ some .closing := by
  intro hc
  have hi := stopInv_of_reachable h q
  have hreaped := hi.joined c (by rw [hc]; rfl)
  have hx' := WorkerPc.given_exited (hi.given (.inr (.inl hreaped)))
  rw [hx] at hx'
  cases hx'

theorem workerStep_exited_of {m m' : Mem Q W} {p p' : WorkerPc Q W}
    (h : workerStep m q p = some (m', p')) (hx : p'.exited = false) : p.exited = false := by
  cases p with
  | exitComplete | exitGive | exitSignal => cases h; cases hx
  | terminated => cases h
  | _ => rfl

omit [DecidableEq W] [DecidableEq T] in
theorem WakeInv.init (h : Init s) : WakeInv q s := by
  intro _
  obtain ⟨noYield, hq⟩ := h.queue q
  rw [State.enough, hq]
  refine ⟨rfl, .of_le ?_, ?_⟩
  · simp only [Mem.wakeView, hq]; exact Nat.le_refl 0
  · rintro x ⟨d, hd, -⟩
    rw [hq] at hd
    cases hd

theorem WakeInv.worker {m : Mem Q W} {p : WorkerPc Q W}
    (hr : Reachable (workQueueSystem Q W T) s) (h : WakeInv q s)
    (hok : keepsWakeups q s (.worker q)) (hs : workerStep s.mem q (s.worker q) = some (m, p)) :
    WakeInv q (s.setWorker q m p) := by
  obtain ⟨hsees, hstart⟩ := hok rfl
  have hi := stateInv_of_reachable hr
  intro hx
  simp only [State.enough, State.setWorker_mem, State.setWorker_call,
    State.setWorker_worker_self] at hx ⊢
  obtain ⟨hh, he⟩ := h (workerStep_exited_of hs hx)
  have hbound : (s.mem.wakeView q).nodes ≤ 65535 := hi.mem.bound q
  have hw := workerStep_wake hs hi.mem (deadlineInv_of_reachable hr) hh (hi.promotes q) hx hsees
  rcases hw with hw | ⟨timeout, sampled, hp, h0, hne, rfl, rfl⟩
  · exact ⟨(workerStep_effect hs).handle.trans hh,
      Enough.worker (v := s.mem.wakeView q) he hw hbound⟩
  · refine ⟨hh, ?_⟩
    rw [State.enough, hp] at he
    refine he.start fun x hx => ?_
    -- the item was timed by the wait as it was computed, or a token is still to be given
    have hold : (Wait.waiting (waitExpiry sampled timeout)).endsBy x ∨
        ∃ c, (s.call c).gives q = true := by
      rcases he.wakes x hx with hends | h0' | hg
      · exact .inl hends
      · exact absurd h0' (Nat.not_lt.mpr (Nat.le_of_eq h0))
      · exact .inr hg
    by_cases hfor : timeout = OS_WAIT_FOREVER
    · rw [waitExpiry, if_pos hfor] at hold ⊢
      exact hold
    by_cases htick : s.mem.tick = sampled
    · rw [htick]
      exact hold
    rcases hstart timeout sampled hp h0 ⟨hfor, htick⟩ with hdue | hg
    · obtain ⟨d, hd, rfl⟩ := hx
      rw [waitExpiry, if_neg hfor]
      exact .inl ⟨_, rfl, hdue d hd⟩
    · exact .inr hg

theorem WakeInv.step {a : Act Q W T} (hr : Reachable (workQueueSystem Q W T) s)
    (h : WakeInv q s) (hok : keepsWakeups q s a) (hs : HazelOsal.step s a = some t) :
    WakeInv q t := by
  have hi := stateInv_of_reachable hr
  have hbound : (s.mem.wakeView q).nodes ≤ 65535 := hi.mem.bound q
  have hmove {c : Ctx Q T} {p : Pc Q W} (hg : (s.call c).gives q = true → p.gives q = true) :
      WakeInv q (s.setCall c s.mem p) := by
    intro hx
    obtain ⟨hh, he⟩ := h hx
    refine ⟨hh, ?_⟩
    rw [State.enough, setCall_gives]
    have hw : CallWake False (s.mem.wakeView q) (s.mem.wakeView q) ((s.call c).gives q)
        (p.gives q) := .frame rfl (Nat.le_refl _) (fun _ h => h) hg
    exact Enough.call (v := s.mem.wakeView q) (c := c) he hw hbound nofun
  cases step_effect hs with
  | @call c op hmay =>
    refine hmove fun hg => ?_
    rw [Pc.free_gives (State.mayCall_free hmay)] at hg
    cases hg
  | @expire c q' timeout expiry hp =>
    refine hmove fun hg => ?_
    rw [hp] at hg
    exact absurd hg (by simp [Pc.gives, Pc.giving])
  | @step c m p hstep =>
    intro hx
    obtain ⟨hh, he⟩ := h hx
    have hclose := not_closing hr hx c
    refine ⟨callStep_handle hstep hh hclose, ?_⟩
    rw [State.enough, setCall_gives]
    refine Enough.call (v := s.mem.wakeView q) (c := c) he (callStep_wake hstep hi.mem hh hclose)
      hbound ?_
    rintro ⟨w, flags, k, hp⟩ ht
    exact hok w flags k _ hp ht
  | @worker q' m p _ hstep heff =>
    by_cases hq : q' = q
    · subst hq
      exact h.worker hr hok hstep
    · intro hx
      rw [State.setWorker_worker, if_neg (Ne.symm hq)] at hx
      obtain ⟨hh, he⟩ := h hx
      obtain ⟨hitems, hlist, hdues⟩ := heff.wake_of_ne (hi.promotes q') (Ne.symm hq)
      rw [State.enough, State.setWorker_mem, State.setWorker_call, State.setWorker_worker,
        if_neg (Ne.symm hq)]
      refine ⟨(congrArg OsSem.handle hitems).trans hh, ?_⟩
      exact Enough.mono (v := s.mem.wakeView q) he (congrArg OsSem.count hitems)
        (Nat.le_of_eq (congrArg List.length hlist)) hdues
  | @workerExpire q' expiry hp =>
    intro hx
    rw [State.setWorker_worker] at hx
    rw [State.enough, State.setWorker_worker]
    by_cases hq : q = q'
    · subst hq
      obtain ⟨hh, he⟩ := h (by rw [hp]; rfl)
      rw [State.enough, hp] at he
      rw [if_pos rfl]
      have hw : WorkerWake (s.mem.wakeView q) (s.mem.wakeView q)
          (WorkerPc.blocked (W := W) (Q := Q) (some expiry)).wait .busy :=
        .idle nofun
      exact ⟨hh, Enough.worker (v := s.mem.wakeView q) he hw hbound⟩
    · rw [if_neg hq] at hx ⊢
      exact h hx
  | tick => exact h

theorem wakeInv_of_reachable
    (h : ReachableVia (workQueueSystem Q W T) (keepsWakeups q) s) : WakeInv q s :=
  ReachableVia.invariant (I := WakeInv q) (fun _ => WakeInv.init)
    (fun _ _ _ hr hi hok hs => hi.step hr hok hs) h

/-- **No wakeup is lost**, in runs that keep them: while the worker of `q` is blocked on its items
semaphore with no token, and no call is about to give one, `fifo.list` is empty and the wait ends no
later than the due tick of any item on the delayed list. -/
theorem no_lost_wakeup {expiry : Option Nat}
    (h : ReachableVia (workQueueSystem Q W T) (keepsWakeups q) s)
    (hw : s.worker q = .blocked expiry) (h0 : (s.mem.queue q).fifo.items.count = 0)
    (hg : ∀ c, (s.call c).gives q = false) :
    (s.mem.queue q).fifo.list = [] ∧
    ∀ d ∈ (s.mem.queue q).delayed, ∃ e, expiry = some e ∧ e ≤ s.mem.currentDue d ∧
      (s.mem.dwork d).deadline = UInt32.ofNat (s.mem.currentDue d) := by
  obtain ⟨-, hnodes, hwakes⟩ := wakeInv_of_reachable h (by rw [hw]; rfl)
  rw [hw, h0] at hnodes
  rw [hw, h0] at hwakes
  constructor
  · have hle := hnodes.le_of_no_giver fun c hc => ?_
    · exact List.eq_nil_of_length_eq_zero (Nat.le_zero.mp hle)
    · cases c with
      | none => cases hc
      | some c => rw [Giver, hg] at hc; cases hc
  · intro d hd
    have hdelayed := ((stateInv_of_reachable h.reachable).mem.delay.delayed_of_mem hd).1
    have hdl := deadlineInv_of_reachable h.reachable d hdelayed
    rcases hwakes _ ⟨d, hd, rfl⟩ with ⟨e, he, hle⟩ | h0 | ⟨c, hc⟩
    · exact ⟨e, he, hle, hdl⟩
    · exact absurd h0 (Nat.lt_irrefl 0)
    · rw [hg] at hc; cases hc

end

/-- No cancel takes a token, and the worker of the only queue waits in the tick in which it looked
for due items. -/
def waitsAtOnce (s : State Unit Nat Nat) : Act Unit Nat Nat → Bool
  | .step c =>
    match s.call c with
    | .cancelTrytake .. => false
    | _ => true
  | .worker _ =>
    match s.worker () with
    | .promoteLock sampled => decide (seesDue s.mem () sampled)
    | .take _ sampled => s.mem.tick = sampled
    | _ => true
  | _ => true

theorem keepsWakeups_of_waitsAtOnce (s : State Unit Nat Nat) (a : Act Unit Nat Nat)
    (h : waitsAtOnce s a = true) : keepsWakeups () s a := by
  cases a with
  | step c =>
    intro w flags k tokens hp
    simp [waitsAtOnce, hp] at h
  | worker q =>
    intro _
    refine ⟨fun sampled hp => ?_, fun timeout sampled hp _ => ?_⟩
    · simpa [waitsAtOnce, hp] using h
    · exact fun hlate => absurd (by simpa [waitsAtOnce, hp] using h) hlate.2
  | call | expire | workerExpire | tick => trivial

/-- A thread schedules item 0 for five ticks; the worker takes the token of the schedule, finds the
list empty and looks for due items. -/
def timedRun : List (Act Unit Nat Nat) :=
  [Act.call (.thread 0) (.scheduleForQueue () 0 5), .step (.thread 0), .step (.thread 0),
    .step (.thread 0)] ++ List.replicate 6 (Act.worker ())

theorem no_lost_wakeup_timed : ∃ s : State Unit Nat Nat,
    exec (workQueueSystem Unit Nat Nat) .initial (timedRun ++ [.worker ()]) = some s ∧
    s.worker () = .blocked (some 5) ∧ (s.mem.queue ()).delayed = [0] ∧
    (s.mem.queue ()).fifo.list = [] ∧ 5 ≤ s.mem.currentDue 0 := by
  have h := no_lost_wakeup (q := ()) (reachableVia_of_execOk (timedRun ++ [.worker ()])
    keepsWakeups_of_waitsAtOnce State.init_initial rfl rfl) rfl rfl fun c => by
      rcases c with t | ⟨t, i⟩ | q
      · rcases t with _ | t <;> rfl
      · rfl
      · rfl
  obtain ⟨e, he, hle, -⟩ := h.2 0 (List.mem_singleton.mpr rfl)
  cases he
  exact ⟨_, rfl, rfl, rfl, h.1, hle⟩

/-- A cancel has taken item 0 off the list when the worker takes its token; then item 1 is
submitted, and the cancel takes the token of that. -/
def lostRun : List (Act Unit Nat Nat) :=
  [Act.call (.thread 0) (.submitToQueue (some ()) 0), .step (.thread 0), .step (.thread 0),
    .step (.thread 0), .call (.thread 1) (.cancel 0), .step (.thread 1), .step (.thread 1)] ++
  List.replicate 6 (Act.worker ()) ++
  [Act.call (.thread 0) (.submitToQueue (some ()) 1), .step (.thread 0), .step (.thread 0),
    .step (.thread 0), .step (.thread 1), .step (.thread 1), .worker ()]

/-- The worker waits for ever with item 1 on the list. And where a tick passes between
`os_tick_get` and the wait, the wait ends after the deadline. -/
theorem lost_wakeup :
    (∃ s : State Unit Nat Nat, exec (workQueueSystem Unit Nat Nat) .initial lostRun = some s ∧
      s.worker () = .blocked none ∧ (s.mem.queue ()).fifo.items.count = 0 ∧
      (∀ c, (s.call c).free = true) ∧ (s.mem.queue ()).fifo.list = [.work 1]) ∧
    ∃ s : State Unit Nat Nat,
      exec (workQueueSystem Unit Nat Nat) .initial (timedRun ++ [.tick, .worker ()]) = some s ∧
      s.worker () = .blocked (some 6) ∧ (s.mem.queue ()).fifo.items.count = 0 ∧
      (∀ c, (s.call c).free = true) ∧ (s.mem.queue ()).delayed = [0] ∧ s.mem.currentDue 0 = 5 := by
  refine ⟨⟨_, rfl, rfl, rfl, fun c => ?_, rfl⟩, _, rfl, rfl, rfl, fun c => ?_, rfl, rfl⟩
  · rcases c with t | ⟨t, i⟩ | q
    · rcases t with _ | _ | t <;> rfl
    · rfl
    · rfl
  · rcases c with t | ⟨t, i⟩ | q
    · rcases t with _ | t <;> rfl
    · rfl
    · rfl

end HazelOsal
