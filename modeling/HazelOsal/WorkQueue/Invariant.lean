import HazelOsal.WorkQueue.Effects

/-! # The state invariant

`MemInv` is what the flags of an item, the lists it is linked on and the pointers between items
and queues agree on; `StateInv` adds what the program points say about the memory. Both hold in
every reachable state. Each clause of `MemInv` that speaks of one kind of list is kept by an
operation on the other, so the operations are taken one at a time. -/

namespace HazelOsal

open TransitionSystem

variable {Q W T : Type} [DecidableEq Q] [DecidableEq W]

/-! ## Reading an updated memory -/

namespace Mem

variable {m : Mem Q W} {q q' : Q} {w w' : W}

omit [DecidableEq W] in
theorem setQueue_queue {v : OsWorkQueue W} :
    (m.setQueue q v).queue q' = if q' = q then v else m.queue q' := by
  simp only [setQueue, Function.update_apply]

omit [DecidableEq Q] in
theorem setWork_work {v : OsWork Q} :
    (m.setWork w v).work w' = if w' = w then v else m.work w' := by
  simp only [setWork, Function.update_apply]

omit [DecidableEq Q] in
theorem setDwork_dwork {v : OsWorkDelayable Q} :
    (m.setDwork w v).dwork w' = if w' = w then v else m.dwork w' := by
  simp only [setDwork, Function.update_apply]

omit [DecidableEq Q] in
theorem setFlags_work {f : WorkFlags} :
    (m.setFlags w f).work w' = if w' = w then { m.work w with flags := f } else m.work w' := by
  simp only [setFlags, setWork_work]

omit [DecidableEq W] in
@[simp] theorem setQueue_work {v : OsWorkQueue W} : (m.setQueue q v).work = m.work := rfl
omit [DecidableEq W] in
@[simp] theorem setQueue_dwork {v : OsWorkQueue W} : (m.setQueue q v).dwork = m.dwork := rfl
omit [DecidableEq W] in
@[simp] theorem setQueue_hist {v : OsWorkQueue W} : (m.setQueue q v).hist = m.hist := rfl

section
omit [DecidableEq Q]

@[simp] theorem setWork_queue {v : OsWork Q} : (m.setWork w v).queue = m.queue := rfl
@[simp] theorem setWork_dwork {v : OsWork Q} : (m.setWork w v).dwork = m.dwork := rfl
@[simp] theorem setWork_hist {v : OsWork Q} : (m.setWork w v).hist = m.hist := rfl
@[simp] theorem setFlags_queue {f : WorkFlags} : (m.setFlags w f).queue = m.queue := rfl
@[simp] theorem setFlags_dwork {f : WorkFlags} : (m.setFlags w f).dwork = m.dwork := rfl
@[simp] theorem setFlags_hist {f : WorkFlags} : (m.setFlags w f).hist = m.hist := rfl
@[simp] theorem setDwork_queue {v : OsWorkDelayable Q} : (m.setDwork w v).queue = m.queue := rfl
@[simp] theorem setDwork_work {v : OsWorkDelayable Q} : (m.setDwork w v).work = m.work := rfl
@[simp] theorem setDwork_hist {v : OsWorkDelayable Q} : (m.setDwork w v).hist = m.hist := rfl
@[simp] theorem unlinkDelay_work : (m.unlinkDelay w).work = m.work := rfl
@[simp] theorem unlinkDelay_dwork : (m.unlinkDelay w).dwork = m.dwork := rfl
@[simp] theorem unlinkNode_work : (m.unlinkNode w).work = m.work := rfl
@[simp] theorem unlinkNode_dwork : (m.unlinkNode w).dwork = m.dwork := rfl
@[simp] theorem unlinkNode_hist : (m.unlinkNode w).hist = m.hist := rfl

end

end Mem

/-! ## The invariant of the memory -/

/-- What `fifo.list`, `current`, the flags and the back pointers of items agree on. -/
structure RunInv (m : Mem Q W) : Prop where
  count : ∀ q, (m.queue q).fifo.count.toNat = (m.queue q).fifo.list.length
  bound : ∀ q, (m.queue q).fifo.list.length ≤ 65535
  list : ∀ w q, (m.queue q).fifo.list.count (.work w) =
    if (m.work w).flags.queued = true ∧ (m.work w).queue = some q then 1 else 0
  queue : ∀ w, (m.work w).flags.queued = true → (m.work w).queue ≠ none
  node : ∀ w, (m.work w).nodeQueued = (m.work w).flags.queued
  current : ∀ q w, (m.queue q).current = some w →
    (m.work w).flags.running = true ∧ (m.work w).queue = some q
  running : ∀ w, (m.work w).flags.running = true → ∃ q, (m.queue q).current = some w
  canceling : ∀ w, (m.work w).flags.canceling = true →
    (m.work w).flags.running = true ∧ (m.work w).flags.queued = false
  stopping : ∀ q, (m.queue q).stopping = true → ∀ w, .work w ∉ (m.queue q).fifo.list

/-- What the delayed lists, the flag and the back pointer of delayable items agree on. -/
structure DelayInv (m : Mem Q W) : Prop where
  list : ∀ d q, (m.queue q).delayed.count d =
    if (m.work d).flags.delayed = true ∧ (m.dwork d).queue = some q then 1 else 0
  queue : ∀ d, (m.work d).flags.delayed = true → (m.dwork d).queue ≠ none

/-- `os_work_init` has been called on every item. -/
structure InitInv (m : Mem Q W) : Prop where
  magic : ∀ w, (m.work w).magic = OS_WORK_MAGIC
  syncInitialized : ∀ w, (m.work w).syncInitialized = true
  handle : ∀ w, (m.work w).sync.handle = true

structure MemInv (m : Mem Q W) : Prop extends RunInv m, InitInv m where
  delay : DelayInv m

section
variable {m m' : Mem Q W} {q : Q} {w d : W}

/-! ### Steps that keep every clause at once -/

theorem RunInv.same (h : RunInv m) (hs : SameCore m m') : RunInv m' := by
  have hf := hs.flags
  have hq (w : W) : (m'.work w).queue = (m.work w).queue := by rw [hs.work w]
  have hn (w : W) : (m'.work w).nodeQueued = (m.work w).nodeQueued := by rw [hs.work w]
  constructor
  · intro q; rw [hs.count, hs.list]; exact h.count q
  · intro q; rw [hs.list]; exact h.bound q
  · intro w q; rw [hs.list, hf, hq]; exact h.list w q
  · intro w; rw [hf, hq]; exact h.queue w
  · intro w; rw [hf, hn]; exact h.node w
  · intro q w; rw [hs.current, hf, hq]; exact h.current q w
  · intro w; rw [hf]; simp only [hs.current]; exact h.running w
  · intro w; rw [hf]; exact h.canceling w
  · intro q; rw [hs.stopping, hs.list]; exact h.stopping q

theorem DelayInv.same (h : DelayInv m) (hs : SameCore m m') : DelayInv m' := by
  constructor
  · intro d q; rw [hs.delayed, hs.flags, hs.dwork]; exact h.list d q
  · intro d; rw [hs.flags, hs.dwork]; exact h.queue d

omit [DecidableEq Q] [DecidableEq W] in
theorem InitInv.same (h : InitInv m) (hs : SameCore m m') : InitInv m' := by
  constructor
  · intro w; rw [hs.work w]; exact h.magic w
  · intro w; rw [hs.work w]; exact h.syncInitialized w
  · intro w; rw [hs.sync]; exact h.handle w

theorem MemInv.same (h : MemInv m) (hs : SameCore m m') : MemInv m' :=
  { h.toRunInv.same hs, h.toInitInv.same hs with delay := h.delay.same hs }

/-- A memory in which only the delayed lists and flags, and the history, are different. -/
structure SameRun (m m' : Mem Q W) : Prop where
  fifo : ∀ q, (m'.queue q).fifo = (m.queue q).fifo
  current : ∀ q, (m'.queue q).current = (m.queue q).current
  stopping : ∀ q, (m'.queue q).stopping = (m.queue q).stopping
  work : ∀ w, ∃ delayed, m'.work w =
    { m.work w with flags := { (m.work w).flags with delayed } }

theorem RunInv.sameRun (h : RunInv m) (hs : SameRun m m') : RunInv m' := by
  have hw (w : W) : (m'.work w).queue = (m.work w).queue ∧
      (m'.work w).nodeQueued = (m.work w).nodeQueued ∧
      (m'.work w).flags.queued = (m.work w).flags.queued ∧
      (m'.work w).flags.running = (m.work w).flags.running ∧
      (m'.work w).flags.canceling = (m.work w).flags.canceling := by
    obtain ⟨b, hb⟩ := hs.work w
    rw [hb]; exact ⟨rfl, rfl, rfl, rfl, rfl⟩
  constructor
  · intro q; rw [hs.fifo]; exact h.count q
  · intro q; rw [hs.fifo]; exact h.bound q
  · intro w q; rw [hs.fifo, (hw w).1, (hw w).2.2.1]; exact h.list w q
  · intro w; rw [(hw w).1, (hw w).2.2.1]; exact h.queue w
  · intro w; rw [(hw w).2.1, (hw w).2.2.1]; exact h.node w
  · intro q w; rw [hs.current, (hw w).1, (hw w).2.2.2.1]; exact h.current q w
  · intro w; rw [(hw w).2.2.2.1]; simp only [hs.current]; exact h.running w
  · intro w; rw [(hw w).2.2.1, (hw w).2.2.2.1, (hw w).2.2.2.2]; exact h.canceling w
  · intro q; rw [hs.stopping, hs.fifo]; exact h.stopping q

/-- A memory in which the delayed lists and flags are as before. -/
structure SameDelay (m m' : Mem Q W) : Prop where
  delayed : ∀ q, (m'.queue q).delayed = (m.queue q).delayed
  flag : ∀ w, (m'.work w).flags.delayed = (m.work w).flags.delayed
  dwork : m'.dwork = m.dwork

theorem DelayInv.sameDelay (h : DelayInv m) (hs : SameDelay m m') : DelayInv m' := by
  constructor
  · intro d q; rw [hs.delayed, hs.flag, hs.dwork]; exact h.list d q
  · intro d; rw [hs.flag, hs.dwork]; exact h.queue d

/-- A memory in which items have kept the fields that only `os_work_init` sets. -/
def SameInit (m m' : Mem Q W) : Prop :=
  ∀ w, (m'.work w).magic = (m.work w).magic ∧
    (m'.work w).syncInitialized = (m.work w).syncInitialized ∧
    (m'.work w).sync = (m.work w).sync

omit [DecidableEq Q] [DecidableEq W] in
theorem InitInv.sameInit (h : InitInv m) (hs : SameInit m m') : InitInv m' := by
  constructor
  · intro w; rw [(hs w).1]; exact h.magic w
  · intro w; rw [(hs w).2.1]; exact h.syncInitialized w
  · intro w; rw [(hs w).2.2]; exact h.handle w

omit [DecidableEq Q] [DecidableEq W] in
theorem SameRun.sameInit (hs : SameRun m m') : SameInit m m' := by
  intro w
  obtain ⟨b, hb⟩ := hs.work w
  rw [hb]; exact ⟨rfl, rfl, rfl⟩

theorem MemInv.sameRun (h : MemInv m) (hs : SameRun m m') (hd : DelayInv m') : MemInv m' :=
  { h.toRunInv.sameRun hs, h.toInitInv.sameInit hs.sameInit with delay := hd }

theorem MemInv.sameDelay (h : MemInv m) (hd : SameDelay m m') (hi : SameInit m m')
    (hr : RunInv m') : MemInv m' :=
  { hr, h.toInitInv.sameInit hi with delay := h.delay.sameDelay hd }

/-! ### Steps on the list of one queue -/

/-- A step that leaves the items and `current` alone keeps the invariant, if the list has kept its
items. -/
theorem RunInv.setQueue {v : OsWorkQueue W} (h : RunInv m)
    (hcount : v.fifo.count.toNat = v.fifo.list.length) (hbound : v.fifo.list.length ≤ 65535)
    (hlist : ∀ w, v.fifo.list.count (.work w) = (m.queue q).fifo.list.count (.work w))
    (hcurrent : v.current = (m.queue q).current)
    (hstopping : v.stopping = true → ∀ w, .work w ∉ v.fifo.list) : RunInv (m.setQueue q v) := by
  have hitems (q' : Q) (w : W) : ((m.setQueue q v).queue q').fifo.list.count (.work w) =
      (m.queue q').fifo.list.count (.work w) := by
    rw [Mem.setQueue_queue]
    split
    case isTrue he => rw [he]; exact hlist w
    case isFalse => rfl
  have hcur (q' : Q) : ((m.setQueue q v).queue q').current = (m.queue q').current := by
    rw [Mem.setQueue_queue]
    split
    case isTrue he => rw [he]; exact hcurrent
    case isFalse => rfl
  constructor
  case count =>
    intro q'
    rw [Mem.setQueue_queue]
    split
    case isTrue => exact hcount
    case isFalse => exact h.count q'
  case bound =>
    intro q'
    rw [Mem.setQueue_queue]
    split
    case isTrue => exact hbound
    case isFalse => exact h.bound q'
  case list => intro w q'; rw [hitems]; exact h.list w q'
  case queue => exact h.queue
  case node => exact h.node
  case current => intro q' w; rw [hcur]; exact h.current q' w
  case running => intro w; simp only [hcur]; exact h.running w
  case canceling => exact h.canceling
  case stopping =>
    intro q'
    rw [Mem.setQueue_queue]
    split
    case isTrue => exact hstopping
    case isFalse => exact h.stopping q'

/-! ### Submission -/

theorem enqueue_queue {q' : Q} : (osWorkEnqueue m q w).queue q' =
    if q' = q then
      { m.queue q with
        fifo :=
          { (m.queue q).fifo with
            list := (m.queue q).fifo.list ++ [.work w]
            count := (m.queue q).fifo.count + 1 } }
    else m.queue q' := by
  simp only [osWorkEnqueue, Mem.setQueue_queue, Mem.setWork_queue]

theorem enqueue_work {w' : W} : (osWorkEnqueue m q w).work w' =
    if w' = w then
      { m.work w with
        submissionId := (m.work w).submissionId + 1
        queue := some q
        flags := { (m.work w).flags with queued := true }
        nodeQueued := true }
    else m.work w' := by
  simp only [osWorkEnqueue, Mem.setQueue_work, Mem.setWork_work]

theorem enqueue_sameDelay : SameDelay m (osWorkEnqueue m q w) := by
  constructor
  · intro q'; rw [enqueue_queue]; split <;> simp_all
  · intro w'; rw [enqueue_work]; split <;> simp_all
  · rfl

theorem enqueue_sameInit : SameInit m (osWorkEnqueue m q w) := by
  intro w'; rw [enqueue_work]; split <;> simp_all

theorem RunInv.enqueue {caller : Option Q} (h : RunInv m) (ha : SubmitAccepts caller m q w) :
    RunInv (osWorkEnqueue m q w) := by
  have hq := ha.queued
  have hspace : (m.queue q).fifo.count.toNat < 65535 := ha.space
  have hc := h.count q
  constructor
  · intro q'
    rw [enqueue_queue]
    split
    · rw [SerialTicks.toNat_succ (by omega), List.length_append, hc]; rfl
    · exact h.count q'
  · intro q'
    rw [enqueue_queue]
    split
    · rw [List.length_append, List.length_singleton]; omega
    · exact h.bound q'
  · intro w' q'
    have := h.list w' q'
    rw [enqueue_queue, enqueue_work]
    grind
  · intro w'; have := h.queue w'; rw [enqueue_work]; grind
  · intro w'; have := h.node w'; rw [enqueue_work]; grind
  · intro q' w'
    have := h.current q' w'
    have := ha.running
    rw [enqueue_queue, enqueue_work]
    grind
  · intro w'
    have := h.running w'
    simp only [enqueue_queue, enqueue_work]
    grind
  · intro w'
    have := h.canceling w'
    have := ha.canceling
    rw [enqueue_work]; grind
  · intro q'
    have := h.stopping q'
    have := ha.stopping
    rw [enqueue_queue]; grind

/-! ### Cancellation -/

theorem dequeue_queue {q' : Q} : (osWorkCancelDequeue m w q).queue q' =
    { m.queue q' with
      fifo :=
        { (m.queue q').fifo with
          list := (m.queue q').fifo.list.erase (.work w)
          count := if q' = q then (m.queue q).fifo.count - 1 else (m.queue q').fifo.count } } := by
  simp only [osWorkCancelDequeue, Mem.setWork_queue, Mem.setQueue_queue]
  split
  case isTrue h => subst h; rfl
  case isFalse => rfl

theorem dequeue_work {w' : W} : (osWorkCancelDequeue m w q).work w' =
    if w' = w then
      { m.work w with nodeQueued := false, flags := { (m.work w).flags with queued := false } }
    else m.work w' := by
  simp only [osWorkCancelDequeue, Mem.setQueue_work, Mem.setWork_work, Mem.unlinkNode_work]

omit [DecidableEq Q] in
theorem mark_queue : (osWorkCancelMark m w).queue = m.queue := by
  simp only [osWorkCancelMark]; split <;> rfl

omit [DecidableEq Q] in
theorem mark_work {w' : W} : (osWorkCancelMark m w).work w' =
    if w' = w then
      if (m.work w).flags.running then
        { m.work w with flags := { (m.work w).flags with canceling := true } }
      else
        { m.work w with
          completionId := (m.work w).submissionId
          flags := { (m.work w).flags with canceling := false } }
    else m.work w' := by
  simp only [osWorkCancelMark]
  split <;> simp only [Mem.setFlags_work, Mem.setWork_work]

omit [DecidableEq Q] in
theorem mark_hist : (osWorkCancelMark m w).hist = m.hist := by
  simp only [osWorkCancelMark]; split <;> rfl

/-- The item is not queued and only marked, or it is taken off its list and marked. -/
theorem cancel_cases (h : RunInv m) (w : W) :
    ((m.work w).flags.queued = false ∧ (osWorkCancelCritical m w).1 = osWorkCancelMark m w ∧
      (osWorkCancelCritical m w).2.1 = none) ∨
    ∃ q, (m.work w).flags.queued = true ∧ (m.work w).queue = some q ∧
      (osWorkCancelCritical m w).1 = osWorkCancelMark (osWorkCancelDequeue m w q) w ∧
      (osWorkCancelCritical m w).2.1 = some q := by
  cases hq : (m.work w).flags.queued with
  | false => simp [osWorkCancelCritical, hq]
  | true =>
    obtain ⟨q, hw⟩ := Option.ne_none_iff_exists'.mp (h.queue w hq)
    exact .inr ⟨q, rfl, hw, by simp [osWorkCancelCritical, hq, hw]⟩

theorem cancel_work_of_ne {w' : W} (hm : RunInv m) (hne : w ≠ w') :
    (osWorkCancelCritical m w').1.work w = m.work w := by
  rcases cancel_cases hm w' with ⟨-, h, -⟩ | ⟨q, -, -, h, -⟩ <;> rw [h, mark_work, if_neg hne]
  rw [dequeue_work, if_neg hne]

/-- A cancel records the submission that it takes off its list. -/
theorem cancel_hist (hm : RunInv m) (w : W) : (osWorkCancelCritical m w).1.hist =
    { m.hist with
      canceled :=
        if (m.work w).flags.queued then m.hist.canceled ++ [(w, m.hist.submitted w)]
        else m.hist.canceled } := by
  rcases cancel_cases hm w with ⟨hq, h, -⟩ | ⟨q, hq, -, h, -⟩ <;> rw [h, mark_hist, hq] <;> rfl

theorem RunInv.dequeue (h : RunInv m) (hq : (m.work w).flags.queued = true)
    (hw : (m.work w).queue = some q) : RunInv (osWorkCancelDequeue m w q) := by
  have hl := h.list w
  have hmem : .work w ∈ (m.queue q).fifo.list :=
    List.count_pos_iff.mp (by rw [hl, if_pos ⟨hq, hw⟩]; exact Nat.one_pos)
  have hother {q'} (hne : q' ≠ q) : .work w ∉ (m.queue q').fifo.list :=
    List.count_eq_zero.mp (by rw [hl, if_neg]; rintro ⟨-, h'⟩; grind)
  have hpos := List.length_pos_of_mem hmem
  constructor
  · intro q'
    have := h.count q'
    rw [dequeue_queue]
    dsimp only
    split
    case isTrue he =>
      subst he
      rw [SerialTicks.toNat_pred (by omega), List.length_erase_of_mem hmem, this]
    case isFalse hne => rw [List.erase_of_not_mem (hother hne), this]
  · intro q'
    rw [dequeue_queue]
    exact Nat.le_trans List.length_erase_le (h.bound q')
  · intro w' q'
    have := h.list w' q'
    rw [dequeue_queue, dequeue_work, List.count_erase]
    grind
  · intro w'; have := h.queue w'; rw [dequeue_work]; grind
  · intro w'; have := h.node w'; rw [dequeue_work]; grind
  · intro q' w'; have := h.current q' w'; rw [dequeue_queue, dequeue_work]; grind
  · intro w'; have := h.running w'; simp only [dequeue_queue, dequeue_work]; grind
  · intro w'; have := h.canceling w'; rw [dequeue_work]; grind
  · intro q' hs w' hm
    rw [dequeue_queue] at hs hm
    exact h.stopping q' hs w' (List.mem_of_mem_erase hm)

theorem RunInv.mark (h : RunInv m) (hq : (m.work w).flags.queued = false) :
    RunInv (osWorkCancelMark m w) := by
  have hw (w' : W) : ((osWorkCancelMark m w).work w').queue = (m.work w').queue ∧
      ((osWorkCancelMark m w).work w').nodeQueued = (m.work w').nodeQueued ∧
      ((osWorkCancelMark m w).work w').flags.queued = (m.work w').flags.queued ∧
      ((osWorkCancelMark m w).work w').flags.running = (m.work w').flags.running := by
    rw [mark_work]; grind
  constructor
  · rw [mark_queue]; exact h.count
  · rw [mark_queue]; exact h.bound
  · intro w' q'; rw [mark_queue, (hw w').1, (hw w').2.2.1]; exact h.list w' q'
  · intro w'; rw [(hw w').1, (hw w').2.2.1]; exact h.queue w'
  · intro w'; rw [(hw w').2.1, (hw w').2.2.1]; exact h.node w'
  · intro q' w'; rw [mark_queue, (hw w').1, (hw w').2.2.2]; exact h.current q' w'
  · intro w'; rw [mark_queue, (hw w').2.2.2]; exact h.running w'
  · intro w'; have := h.canceling w'; rw [mark_work]; grind
  · rw [mark_queue]; exact h.stopping

theorem RunInv.cancel (h : RunInv m) : RunInv (osWorkCancelCritical m w).1 := by
  rcases cancel_cases h w with ⟨hq, hm, -⟩ | ⟨q, hq, hw, hm, -⟩
  · rw [hm]; exact h.mark hq
  · rw [hm]
    refine (h.dequeue hq hw).mark ?_
    rw [dequeue_work, if_pos rfl]

theorem cancel_sameDelay (h : RunInv m) : SameDelay m (osWorkCancelCritical m w).1 := by
  rcases cancel_cases h w with ⟨hq, hm, -⟩ | ⟨q, hq, hw, hm, -⟩ <;> rw [hm]
  · constructor
    · intro q'; rw [mark_queue]
    · intro w'; rw [mark_work]; grind
    · simp only [osWorkCancelMark]; split <;> rfl
  · constructor
    · intro q'; rw [mark_queue, dequeue_queue]
    · intro w'; rw [mark_work, dequeue_work, dequeue_work]; grind
    · simp only [osWorkCancelMark]; split <;> rfl

theorem cancel_sameInit (h : RunInv m) : SameInit m (osWorkCancelCritical m w).1 := by
  intro w'
  rcases cancel_cases h w with ⟨hq, hm, -⟩ | ⟨q, hq, hw, hm, -⟩ <;> rw [hm, mark_work]
  · grind
  · rw [dequeue_work, dequeue_work]; grind

/-! ### The worker -/

theorem start_queue {rest : List (FifoNode W)} {q' : Q} :
    (osWorkQueueEntryStart m q w rest).queue q' =
      if q' = q then { popped (m.queue q) rest with current := some w } else m.queue q' := by
  simp only [osWorkQueueEntryStart, Mem.setWork_queue, Mem.setQueue_queue]

theorem start_work {rest : List (FifoNode W)} {w' : W} :
    (osWorkQueueEntryStart m q w rest).work w' =
      if w' = w then
        { m.work w with
          nodeQueued := false
          flags := { (m.work w).flags with queued := false, running := true }
          runningId := (m.work w).submissionId }
      else m.work w' := by
  simp only [osWorkQueueEntryStart, Mem.setWork_work, Mem.setQueue_work]

theorem complete_queue {q' : Q} : (osWorkQueueEntryComplete m q w).queue q' =
    if q' = q then { m.queue q with current := none } else m.queue q' := by
  simp only [osWorkQueueEntryComplete, Mem.setWork_queue, Mem.setQueue_queue]

theorem complete_work {w' : W} : (osWorkQueueEntryComplete m q w).work w' =
    if w' = w then
      { m.work w with
        completionId := (m.work w).runningId
        flags := { (m.work w).flags with running := false, canceling := false } }
    else m.work w' := by
  simp only [osWorkQueueEntryComplete, Mem.setWork_work, Mem.setQueue_work]

theorem start_sameDelay {rest : List (FifoNode W)} :
    SameDelay m (osWorkQueueEntryStart m q w rest) := by
  refine ⟨fun q' => ?_, fun w' => ?_, rfl⟩
  · rw [start_queue]; split <;> simp_all [popped]
  · rw [start_work]; split <;> simp_all

theorem complete_sameDelay : SameDelay m (osWorkQueueEntryComplete m q w) := by
  refine ⟨fun q' => ?_, fun w' => ?_, rfl⟩
  · rw [complete_queue]; split <;> simp_all
  · rw [complete_work]; split <;> simp_all

theorem RunInv.toNat_pred_count {rest : List (FifoNode W)} {node : FifoNode W} (h : RunInv m)
    (hl : (m.queue q).fifo.list = node :: rest) :
    ((m.queue q).fifo.count - 1).toNat = rest.length := by
  have := h.count q
  rw [hl, List.length_cons] at this
  rw [SerialTicks.toNat_pred (by omega)]
  omega

theorem RunInv.stop {rest : List (FifoNode W)} (h : RunInv m)
    (hl : (m.queue q).fifo.list = .stop :: rest) :
    RunInv (m.setQueue q { popped (m.queue q) rest with stopNodeQueued := false }) := by
  have hbound := h.bound q
  rw [hl, List.length_cons] at hbound
  refine h.setQueue (h.toNat_pred_count hl) (Nat.le_of_succ_le hbound) ?_ rfl ?_
  · intro w
    rw [hl, List.count_cons_of_ne (fun he => by cases he)]
    rfl
  · intro hs w hw
    apply h.stopping q hs w
    rw [hl]
    exact List.mem_cons_of_mem _ hw

/-- An item at the head of a list is queued. -/
theorem RunInv.queued_head {rest : List (FifoNode W)} (h : RunInv m)
    (hl : (m.queue q).fifo.list = .work w :: rest) :
    (m.work w).flags.queued = true ∧ (m.work w).queue = some q := by
  have := h.list w q
  by_contra hn
  rw [if_neg hn, hl, List.count_cons_self] at this
  cases this

theorem RunInv.start {rest : List (FifoNode W)} (h : RunInv m)
    (hl : (m.queue q).fifo.list = .work w :: rest) (hcur : (m.queue q).current = none) :
    RunInv (osWorkQueueEntryStart m q w rest) := by
  have hc := h.toNat_pred_count hl
  have hlw := h.list w q
  have hqw := h.queued_head hl
  have hnc : (m.work w).flags.canceling = false := by
    have := h.canceling w
    grind
  constructor
  · intro q'; have := h.count q'; rw [start_queue]; simp only [popped]; grind
  · intro q'; have := h.bound q'; rw [start_queue]; simp only [popped]; grind
  · intro w' q'
    have := h.list w' q'
    rw [start_queue, start_work]
    simp only [popped]
    grind
  · intro w'; have := h.queue w'; rw [start_work]; grind
  · intro w'; have := h.node w'; rw [start_work]; grind
  · intro q' w'
    have := h.current q' w'
    rw [start_queue, start_work]
    grind
  · intro w'
    have := h.running w'
    simp only [start_queue, start_work]
    grind
  · intro w'; have := h.canceling w'; rw [start_work]; grind
  · intro q'
    have := h.stopping q'
    rw [start_queue]
    simp only [popped]
    grind

theorem RunInv.complete (h : RunInv m) (hcur : (m.queue q).current = some w) :
    RunInv (osWorkQueueEntryComplete m q w) := by
  have hw := h.current q w hcur
  constructor
  · intro q'; have := h.count q'; rw [complete_queue]; grind
  · intro q'; have := h.bound q'; rw [complete_queue]; grind
  · intro w' q'; have := h.list w' q'; rw [complete_queue, complete_work]; grind
  · intro w'; have := h.queue w'; rw [complete_work]; grind
  · intro w'; have := h.node w'; rw [complete_work]; grind
  · intro q' w'
    have := h.current q' w'
    rw [complete_queue, complete_work]
    grind
  · intro w'
    have := h.running w'
    simp only [complete_queue, complete_work]
    grind
  · intro w'; have := h.canceling w'; rw [complete_work]; grind
  · intro q'; have := h.stopping q'; rw [complete_queue]; grind

/-! ### Stopping a queue -/

theorem RunInv.list_eq_nil (h : RunInv m) (hc : (m.queue q).fifo.count = 0) :
    (m.queue q).fifo.list = [] := by
  have := h.count q
  rw [hc] at this
  exact List.eq_nil_of_length_eq_zero this.symm

theorem RunInv.markStop (h : RunInv m) (hc : (m.queue q).fifo.count = 0) :
    RunInv (osWorkQueueMarkStop m q) := by
  have hl := h.list_eq_nil hc
  rw [osWorkQueueMarkStop]
  apply h.setQueue <;> simp [hl, hc]

theorem RunInv.zero (h : RunInv m) (hs : (m.queue q).stopping = true) :
    RunInv (m.setQueue q { m.queue q with fifo := osFifoZero (m.queue q).fifo }) := by
  refine h.setQueue rfl (Nat.zero_le _) ?_ rfl ?_
  · intro w
    rw [List.count_eq_zero.mpr (h.stopping q hs w)]
    rfl
  · intro _ w hw
    cases hw

omit [DecidableEq W] in
theorem setQueue_sameDelay {v : OsWorkQueue W} (hd : v.delayed = (m.queue q).delayed) :
    SameDelay m (m.setQueue q v) := by
  constructor
  · intro q'; rw [Mem.setQueue_queue]; split <;> simp_all
  · intro w'; rfl
  · rfl

omit [DecidableEq W] in
theorem setQueue_sameInit {v : OsWorkQueue W} : SameInit m (m.setQueue q v) :=
  fun _ => ⟨rfl, rfl, rfl⟩

/-! ### Delayed items -/

omit [DecidableEq Q] in
theorem clearDelayed_queue {q' : Q} : (clearDelayed m d).queue q' =
    { m.queue q' with delayed := (m.queue q').delayed.erase d } := rfl

omit [DecidableEq Q] in
theorem clearDelayed_work {w' : W} : (clearDelayed m d).work w' =
    if w' = d then { m.work d with flags := { (m.work d).flags with delayed := false } }
    else m.work w' := by
  simp only [clearDelayed, Mem.setFlags_work, Mem.unlinkDelay_work]

omit [DecidableEq Q] in
theorem clearDelayed_sameRun : SameRun m (clearDelayed m d) := by
  constructor <;> intros <;> try rfl
  rw [clearDelayed_work]
  split
  case isTrue h => subst h; exact ⟨_, rfl⟩
  case isFalse => exact ⟨_, rfl⟩

theorem DelayInv.clearDelayed (h : DelayInv m) : DelayInv (clearDelayed m d) := by
  have hdw : (HazelOsal.clearDelayed m d).dwork = m.dwork := rfl
  constructor
  · intro d' q'
    have := h.list d' q'
    rw [clearDelayed_queue, clearDelayed_work, List.count_erase, hdw]
    grind
  · intro d'; have := h.queue d'; rw [clearDelayed_work, hdw]; grind

theorem DelayInv.delayed_of_mem (h : DelayInv m) (hd : d ∈ (m.queue q).delayed) :
    (m.work d).flags.delayed = true ∧ (m.dwork d).queue = some q := by
  have hc := List.count_pos_iff.mpr hd
  by_contra hn
  rw [h.list, if_neg hn] at hc
  exact absurd hc (Nat.lt_irrefl _)

theorem MemInv.clearDelayed (h : MemInv m) : MemInv (clearDelayed m d) :=
  h.sameRun clearDelayed_sameRun h.delay.clearDelayed

theorem MemInv.undelay {f : Fate} (h : MemInv m) : MemInv (undelay m d f) :=
  h.clearDelayed.same .settle

omit [DecidableEq Q] in
theorem undelay_work {f : Fate} : (undelay m d f).work = (HazelOsal.clearDelayed m d).work := rfl

theorem arm_queue {delay : UInt32} {q' : Q} : (osWorkArm m q d delay).queue q' =
    if q' = q then { m.queue q with delayed := (m.queue q).delayed ++ [d] } else m.queue q' := by
  simp only [osWorkArm, Mem.setQueue_queue, Mem.setFlags_queue, Mem.setDwork_queue]

theorem arm_work {delay : UInt32} {w' : W} : (osWorkArm m q d delay).work w' =
    if w' = d then { m.work d with flags := { (m.work d).flags with delayed := true } }
    else m.work w' := by
  simp only [osWorkArm, Mem.setQueue_work, Mem.setFlags_work, Mem.setDwork_work]

theorem arm_dwork {delay : UInt32} {w' : W} : (osWorkArm m q d delay).dwork w' =
    if w' = d then { queue := some q, deadline := osTickGet m + delay } else m.dwork w' := by
  simp only [osWorkArm, Mem.setQueue_dwork, Mem.setFlags_dwork, Mem.setDwork_dwork]

theorem arm_sameRun {delay : UInt32} : SameRun m (osWorkArm m q d delay) := by
  constructor
  · intro q'; rw [arm_queue]; split <;> simp_all
  · intro q'; rw [arm_queue]; split <;> simp_all
  · intro q'; rw [arm_queue]; split <;> simp_all
  · intro w'
    rw [arm_work]
    split
    case isTrue h => subst h; exact ⟨_, rfl⟩
    case isFalse => exact ⟨_, rfl⟩

theorem DelayInv.arm {delay : UInt32} (h : DelayInv m) (hd : (m.work d).flags.delayed = false) :
    DelayInv (osWorkArm m q d delay) := by
  constructor
  · intro d' q'
    have := h.list d' q'
    rw [arm_queue, arm_work, arm_dwork]
    grind
  · intro d'; have := h.queue d'; rw [arm_work, arm_dwork]; grind

theorem MemInv.arm {delay : UInt32} (h : MemInv m) (hd : (m.work d).flags.delayed = false) :
    MemInv (osWorkArm m q d delay) :=
  h.sameRun arm_sameRun (h.delay.arm hd)

theorem MemInv.rearm {delay : UInt32} {f : Fate} (h : MemInv m) :
    MemInv (osWorkArm (HazelOsal.undelay m d f) q d delay) := by
  refine h.undelay.arm ?_
  rw [undelay_work, clearDelayed_work, if_pos rfl]

end

/-! ## The invariant of the system -/

/-- The queue that the call has marked to stop. -/
def Pc.stopping : Pc Q W → Option Q
  | .stopGive q _ | .joinEnter q _ | .joinTake q _ | .joinWait q _ _ | .joinAbandon q _
  | .joinReap q | .purgeLock q | .purgeNotify q _ | .deinitLock q | .deinitSem q | .deinitZero q
  | .stopFinish q => some q
  | _ => none

/-- The queue argument of the submission. -/
def SubmitPc.target : SubmitPc Q W → Option Q
  | .enter queue _ => queue
  | .lock q _ | .give q _ _ => some q

/-- A promotion by the worker of `q` submits the item that came due, to `q` itself. -/
def WorkerPc.promotesTo (q : Q) : WorkerPc Q W → Prop
  | .promoteSubmit d _ p => p.target = some q ∧ p.item = d
  | _ => True

/-- No worker is between the critical section of `os_work_promote_delayed` and the end of the
submission it makes. -/
def NoPromotion (s : State Q W T) : Prop :=
  ∀ q, ¬ ∃ d j p, s.worker q = .promoteSubmit d j p

/-- The program points and the memory agree. -/
structure StateInv (s : State Q W T) : Prop where
  mem : MemInv s.mem
  worker : ∀ q, (s.worker q).item = (s.mem.queue q).current
  stopping : ∀ c q, (s.call c).stopping = some q → (s.mem.queue q).stopping = true
  promotes : ∀ q, (s.worker q).promotesTo q
  handler : ∀ q, (s.call (.handler q)).free = false → (s.worker q).handling = true

section
variable {c : Ctx Q T} {m m' : Mem Q W} {q : Q} {p p' : Pc Q W}

section
omit [DecidableEq Q] [DecidableEq W]

@[simp] theorem SubmitCont.resume_stopping {w : W} {r : Int} {k : SubmitCont} :
    (k.resume w r : Pc Q W).stopping = none := by cases k <;> rfl

@[simp] theorem DelayableCont.resume_stopping {w : W} {r : Int} {k : DelayableCont} :
    (k.resume w r : Pc Q W).stopping = none := by cases k <;> rfl

@[simp] theorem CancelCont.resume_stopping {w : W} {r : Int} {k : CancelCont Q} :
    (k.resume w r : Pc Q W).stopping = none := by
  cases k with
  | delayable q k => exact DelayableCont.resume_stopping
  | ret | sync b => rfl

@[simp] theorem Op.entry_stopping {op : Op Q W} : op.entry.stopping = none := by cases op <;> rfl

end

theorem SubmitPc.step_inl {caller : Option Q} {p p₁ : SubmitPc Q W}
    (h : (p.step caller m).2 = .inl p₁) :
    p₁.item = p.item ∧ ∀ q, p.target = some q → p₁.target = some q := by
  cases p with
  | enter queue w =>
    simp only [step] at h
    grind [SubmitPc.item, SubmitPc.target]
  | lock q w =>
    simp only [step] at h
    grind [SubmitPc.item, SubmitPc.target]
  | give q w r => cases h

/-- A step inside `os_work_submit_to_queue` stays there or returns from it. -/
theorem callStep_submit {p : SubmitPc Q W} {k : SubmitCont}
    (h : callStep c m (.submit p k) = some (m', p')) :
    m' = (p.step c.caller m).1 ∧
      ((∃ p₁, (p.step c.caller m).2 = .inl p₁ ∧ p' = .submit p₁ k) ∨
        ∃ r, (p.step c.caller m).2 = .inr r ∧ p' = k.resume p.item r) := by
  simp only [callStep, Option.some.injEq, Prod.mk.injEq] at h
  obtain ⟨rfl, rfl⟩ := h
  refine ⟨rfl, ?_⟩
  cases (p.step c.caller m).2 with
  | inl p₁ => exact .inl ⟨p₁, rfl, rfl⟩
  | inr r => exact .inr ⟨r, rfl, rfl⟩

theorem callStep_free (h : callStep c m p = some (m', p')) : p.free = false := by
  cases p <;> first | rfl | cases h

omit [DecidableEq Q] [DecidableEq W] in
theorem State.mayCall_free {s : State Q W T} (h : s.mayCall c = true) :
    (s.call c).free = true := by
  cases c with
  | handler q => exact (Bool.and_eq_true_iff.mp h).1
  | thread t | isr t i => exact h

/-- A call marks a queue to stop in one critical section only. -/
theorem callStep_stopping (h : callStep c m p = some (m', p')) (hp : p'.stopping = some q) :
    p.stopping = some q ∨
      ∃ timeout, p = .stopLock q timeout ∧ m' = osWorkQueueMarkStop m q := by
  cases p with
  | stopLock q' timeout =>
    simp only [callStep, osWorkQueueStopCritical] at h
    grind [Pc.stopping]
  | submit p k =>
    obtain ⟨-, ⟨p₁, -, rfl⟩ | ⟨r, -, rfl⟩⟩ := callStep_submit h
    · cases hp
    · simp at hp
  | _ =>
    simp only [callStep] at h
    grind [Pc.stopping, Option.map_eq_some_iff, CancelCont.resume_stopping,
      DelayableCont.resume_stopping]

/-- A queue that is stopping stays so. -/
theorem CallEffect.stopping (h : CallEffect c m p m' p') (hs : (m.queue q).stopping = true) :
    (m'.queue q).stopping = true := by
  cases h with
  | same h => rw [h.same.stopping]; exact hs
  | enqueue | arm => simp only [enqueue_queue, arm_queue]; split <;> simp_all
  | cancel =>
    simp only [osWorkCancelCritical, mark_queue]
    split
    · rw [dequeue_queue]; exact hs
    · exact hs
  | rearm => rw [arm_queue]; split <;> simp_all [undelay, clearDelayed_queue, Mem.settle]
  | unschedule | cancelDelayable | flushDelayable | purge => exact hs
  | markStop => simp only [osWorkQueueMarkStop, Mem.setQueue_queue]; split <;> simp_all
  | zero => rw [Mem.setQueue_queue]; split <;> simp_all

theorem CallEffect.mem (h : CallEffect c m p m' p') (hm : MemInv m)
    (hz : ∀ q, p = .deinitZero q → (m.queue q).stopping = true) : MemInv m' := by
  cases h with
  | same h => exact hm.same h.same.toSameCore
  | enqueue ha => exact hm.sameDelay enqueue_sameDelay enqueue_sameInit (hm.enqueue ha)
  | cancel =>
    exact hm.sameDelay (cancel_sameDelay hm.toRunInv) (cancel_sameInit hm.toRunInv) hm.cancel
  | arm _ hd _ => exact hm.arm hd
  | rearm => exact hm.rearm
  | unschedule | cancelDelayable | flushDelayable | purge => exact hm.undelay
  | markStop _ hc _ =>
    exact hm.sameDelay (setQueue_sameDelay rfl) setQueue_sameInit (hm.markStop hc)
  | zero =>
    exact hm.sameDelay (setQueue_sameDelay rfl) setQueue_sameInit (hm.zero (hz _ rfl))

theorem CallEffect.current (h : CallEffect c m p m' p') :
    (m'.queue q).current = (m.queue q).current := by
  cases h with
  | same h => exact h.same.current q
  | enqueue | arm => simp only [enqueue_queue, arm_queue]; split <;> simp_all
  | cancel =>
    simp only [osWorkCancelCritical, mark_queue]
    split
    · rw [dequeue_queue]
    · rfl
  | rearm => rw [arm_queue]; split <;> simp_all [undelay, clearDelayed_queue, Mem.settle]
  | unschedule | cancelDelayable | flushDelayable | purge => rfl
  | markStop => simp only [osWorkQueueMarkStop, Mem.setQueue_queue]; split <;> simp_all
  | zero => rw [Mem.setQueue_queue]; split <;> simp_all

end

section
variable {m m' : Mem Q W} {q q' : Q} {p p' : WorkerPc Q W}

theorem WorkerEffect.mem (h : WorkerEffect m q p m' p') (hm : MemInv m)
    (hp : p.item = (m.queue q).current) : MemInv m' := by
  cases h with
  | same h => exact hm.same h.same.toSameCore
  | refuse => exact hm.same .settle
  | enqueue ha =>
    exact (hm.sameDelay enqueue_sameDelay enqueue_sameInit (hm.enqueue ha)).same .settle
  | promote => exact hm.clearDelayed
  | block => exact hm.undelay
  | stop hl =>
    exact hm.sameDelay (setQueue_sameDelay rfl) setQueue_sameInit (hm.toRunInv.stop hl)
  | start hl =>
    refine hm.sameDelay start_sameDelay ?_ (hm.start hl hp.symm)
    intro w'; rw [start_work]; split <;> simp_all
  | complete =>
    refine hm.sameDelay complete_sameDelay ?_ (hm.complete hp.symm)
    intro w'; rw [complete_work]; split <;> simp_all

/-- A worker changes `current` of its own queue only, and keeps it at the item it runs. -/
theorem WorkerEffect.current (h : WorkerEffect m q p m' p') (hp : p.item = (m.queue q).current) :
    (m'.queue q').current = if q' = q then p'.item else (m.queue q').current := by
  cases h with
  | same h hi _ => rw [h.same.current, hi]; split <;> simp_all
  | refuse | promote | block =>
    split <;> simp_all [Mem.settle, undelay, clearDelayed_queue, WorkerPc.item]
  | enqueue =>
    simp only [Mem.settle, enqueue_queue]
    split <;> split <;> simp_all [WorkerPc.item]
  | stop => rw [Mem.setQueue_queue]; split <;> simp_all [WorkerPc.item, popped]
  | start => rw [start_queue]; split <;> simp_all [WorkerPc.item]
  | complete => rw [complete_queue]; split <;> simp_all [WorkerPc.item]

theorem WorkerEffect.stopping (h : WorkerEffect m q p m' p') :
    (m'.queue q').stopping = (m.queue q').stopping := by
  cases h with
  | same h => exact h.same.stopping q'
  | refuse | promote | block => rfl
  | enqueue => simp only [Mem.settle, enqueue_queue]; split <;> simp_all
  | stop => rw [Mem.setQueue_queue]; split <;> simp_all [popped]
  | start => rw [start_queue]; split <;> simp_all [popped]
  | complete => rw [complete_queue]; split <;> simp_all

theorem workerStep_promotesTo (h : workerStep m q p = some (m', p')) (hp : p.promotesTo q) :
    p'.promotesTo q := by
  cases p with
  | promoteSubmit d j p =>
    simp only [workerStep, Option.some.injEq, Prod.mk.injEq] at h
    rw [← h.2]
    cases hs : (p.step (some q) m).2 with
    | inl p₁ =>
      have := SubmitPc.step_inl hs
      exact ⟨this.2 q hp.1, this.1.trans hp.2⟩
    | inr r => trivial
  | _ =>
    simp only [workerStep] at h
    grind [WorkerPc.promotesTo, Option.map_eq_some_iff, SubmitPc.target, SubmitPc.item]

end

/-! ### Every reachable state -/

omit [DecidableEq Q] [DecidableEq W] in
theorem Init.flags {s : State Q W T} (h : Init s) (w : W) : (s.mem.work w).flags = .none := by
  obtain ⟨b, hb⟩ := h.work w
  rw [hb]
  rfl

theorem StateInv.init {s : State Q W T} (h : Init s) : StateInv s := by
  have hflags := h.flags
  obtain ⟨hq, hw, hd, -, hc, hp⟩ := h
  have hqueue (q : Q) : (s.mem.queue q).fifo = osFifoInit ∧ (s.mem.queue q).delayed = [] ∧
      (s.mem.queue q).current = none ∧ (s.mem.queue q).stopping = false := by
    obtain ⟨b, hb⟩ := hq q
    rw [hb]; exact ⟨rfl, rfl, rfl, rfl⟩
  have hwork (w : W) : ∃ b, s.mem.work w = osWorkInit b := hw w
  refine ⟨⟨⟨?_, ?_, ?_, ?_, ?_, ?_, ?_, ?_, ?_⟩, ⟨?_, ?_, ?_⟩, ⟨?_, ?_⟩⟩, ?_, ?_, ?_, ?_⟩
  · intro q; rw [(hqueue q).1]; rfl
  · intro q; rw [(hqueue q).1]; exact Nat.zero_le _
  · intro w q
    obtain ⟨b, hb⟩ := hwork w
    rw [(hqueue q).1, hb]; rfl
  · intro w hf; rw [hflags] at hf; cases hf
  · intro w; obtain ⟨b, hb⟩ := hwork w; rw [hb]; rfl
  · intro q w hf; rw [(hqueue q).2.2.1] at hf; cases hf
  · intro w hf; rw [hflags] at hf; cases hf
  · intro w hf; rw [hflags] at hf; cases hf
  · intro q hf; rw [(hqueue q).2.2.2] at hf; cases hf
  · intro w; obtain ⟨b, hb⟩ := hwork w; rw [hb]; rfl
  · intro w; obtain ⟨b, hb⟩ := hwork w; rw [hb]; rfl
  · intro w; obtain ⟨b, hb⟩ := hwork w; rw [hb]; rfl
  · intro d q
    obtain ⟨b, hb⟩ := hwork d
    rw [(hqueue q).2.1, hb]; rfl
  · intro d hf; rw [hflags] at hf; cases hf
  · intro q; rw [hp, (hqueue q).2.2.1]; rfl
  · intro c q hs; rw [hc] at hs; cases hs
  · intro q; rw [hp]; trivial
  · intro q hf; rw [hc] at hf; cases hf

variable [DecidableEq T]

theorem StateInv.step {s t : State Q W T} {a : Act Q W T} (h : StateInv s)
    (hs : HazelOsal.step s a = some t) : StateInv t := by
  cases step_effect hs with
  | call hc =>
    refine ⟨h.mem, h.worker, ?_, h.promotes, ?_⟩
    · intro c' q hq
      rw [State.setCall_call] at hq
      split at hq
      · simp at hq
      · exact h.stopping c' q hq
    · intro q hf
      rw [State.setCall_call] at hf
      split at hf
      case isTrue he => subst he; simp_all [State.mayCall]
      case isFalse => exact h.handler q hf
  | @step c m p hstep he =>
    refine ⟨?_, ?_, ?_, h.promotes, ?_⟩
    · exact he.mem h.mem fun q hq => h.stopping c q (by rw [hq]; rfl)
    · intro q; rw [State.setCall_mem, he.current]; exact h.worker q
    · intro c' q hq
      rw [State.setCall_call] at hq
      split at hq
      case isTrue =>
        rcases callStep_stopping hstep hq with hq | ⟨timeout, -, rfl⟩
        · exact he.stopping (h.stopping c q hq)
        · rw [State.setCall_mem, osWorkQueueMarkStop, Mem.setQueue_queue, if_pos rfl]
      case isFalse => exact he.stopping (h.stopping c' q hq)
    · intro q hf
      rw [State.setCall_call] at hf
      split at hf
      case isTrue hce =>
        refine h.handler q ?_
        rw [hce]
        exact callStep_free hstep
      case isFalse => exact h.handler q hf
  | expire hp he =>
    refine ⟨h.mem, h.worker, ?_, h.promotes, ?_⟩
    · intro c' q hq
      rw [State.setCall_call] at hq
      split at hq
      case isTrue hce => exact h.stopping c' q (by rw [hce, hp]; exact hq)
      case isFalse => exact h.stopping c' q hq
    · intro q hf
      rw [State.setCall_call] at hf
      split at hf
      case isTrue hce => exact h.handler q (by rw [hce, hp]; rfl)
      case isFalse => exact h.handler q hf
  | @worker q m p hfree hstep he =>
    refine ⟨he.mem h.mem (h.worker q), ?_, ?_, ?_, ?_⟩
    · intro q'
      rw [State.setWorker_mem, he.current (h.worker q), State.setWorker_worker]
      split
      · rfl
      · exact h.worker q'
    · intro c q' hq
      rw [State.setWorker_mem, he.stopping]
      exact h.stopping c q' hq
    · intro q'
      rw [State.setWorker_worker]
      split
      case isTrue hq => subst hq; exact workerStep_promotesTo hstep (h.promotes q')
      case isFalse => exact h.promotes q'
    · intro q' hf
      rw [State.setWorker_worker]
      split
      case isTrue hq =>
        subst hq
        have := h.handler q' hf
        simp_all
      case isFalse => exact h.handler q' hf
  | @workerExpire q expiry hp he =>
    refine ⟨h.mem, ?_, h.stopping, ?_, ?_⟩
    · intro q'
      rw [State.setWorker_worker]
      split
      case isTrue hq => subst hq; have := h.worker q'; rw [hp] at this; exact this
      case isFalse => exact h.worker q'
    · intro q'
      rw [State.setWorker_worker]
      split
      · trivial
      · exact h.promotes q'
    · intro q' hf
      rw [State.setWorker_worker]
      split
      case isTrue hq => subst hq; have := h.handler q' hf; rw [hp] at this; cases this
      case isFalse => exact h.handler q' hf
  | tick => exact ⟨h.mem.same Same.tick.toSameCore, h.worker, h.stopping, h.promotes, h.handler⟩

theorem stateInv_of_reachable {s : State Q W T} (h : Reachable (workQueueSystem Q W T) s) :
    StateInv s :=
  ReachableVia.invariant (fun _ => StateInv.init) (fun _ _ _ _ hi _ hs => hi.step hs) h

/-! ## The invariant in the terms of the header -/

/-- `x` occurs once in the list of `at`, and in no other. -/
def LinkedOnce (lists : Q → List α) [DecidableEq α] (x : α) (owner : Option Q) : Prop :=
  ∃ q, owner = some q ∧ (lists q).count x = 1 ∧ ∀ q', q' ≠ q → x ∉ lists q'

theorem linkedOnce_iff [DecidableEq α] {lists : Q → List α} {x : α} {b : Bool} {owner : Option Q}
    (hc : ∀ q, (lists q).count x = if b = true ∧ owner = some q then 1 else 0)
    (ho : b = true → owner ≠ none) : b = true ↔ LinkedOnce lists x owner := by
  constructor
  · intro hb
    obtain ⟨q, hq⟩ := Option.ne_none_iff_exists'.mp (ho hb)
    refine ⟨q, hq, by rw [hc, if_pos ⟨hb, hq⟩], fun q' hne => ?_⟩
    refine List.count_eq_zero.mp ?_
    rw [hc, if_neg]
    rintro ⟨-, h'⟩
    exact hne (Option.some.inj (h'.symm.trans hq))
  · rintro ⟨q, -, h1, -⟩
    by_contra hb
    rw [hc, if_neg fun h => hb h.1] at h1
    cases h1

/-- **The state invariant of work queues.** In every reachable state: `fifo.count` is the length
of `fifo.list`; `OS_WORK_QUEUED` says that the node is queued and linked once, on the list of
`work->queue`, and `OS_WORK_DELAYED` that the item is linked once on the delayed list of
`dwork->queue`; `OS_WORK_RUNNING` says that exactly one queue runs the item, which is then
`work->queue`; and an item that is being canceled is running and not queued. -/
theorem work_queue_state {s : State Q W T} (h : Reachable (workQueueSystem Q W T) s) :
    (∀ q, (s.mem.queue q).fifo.count.toNat = (s.mem.queue q).fifo.list.length) ∧
    (∀ w, ((s.mem.work w).flags.queued = true ↔ (s.mem.work w).nodeQueued = true) ∧
      ((s.mem.work w).flags.queued = true ↔
        LinkedOnce (fun q => (s.mem.queue q).fifo.list) (.work w) (s.mem.work w).queue)) ∧
    (∀ d, (s.mem.work d).flags.delayed = true ↔
      LinkedOnce (fun q => (s.mem.queue q).delayed) d (s.mem.dwork d).queue) ∧
    (∀ w, (s.mem.work w).flags.running = true ↔ ∃! q, (s.mem.queue q).current = some w) ∧
    (∀ q w, (s.mem.queue q).current = some w → (s.mem.work w).queue = some q) ∧
    (∀ w, (s.mem.work w).flags.canceling = true →
      (s.mem.work w).flags.running = true ∧ (s.mem.work w).flags.queued = false) ∧
    (∀ q q' w, s.worker q = .run w → s.worker q' = .run w → q = q') := by
  have hi := stateInv_of_reachable h
  have hm := hi.mem
  have huniq {q q' : Q} {w : W} (h₁ : (s.mem.queue q).current = some w)
      (h₂ : (s.mem.queue q').current = some w) : q = q' :=
    Option.some.inj ((hm.current q w h₁).2.symm.trans (hm.current q' w h₂).2)
  refine ⟨hm.count, fun w => ⟨by rw [hm.node w], ?_⟩, ?_, ?_, ?_, hm.canceling, ?_⟩
  · exact linkedOnce_iff (hm.list w) (hm.queue w)
  · exact fun d => linkedOnce_iff (hm.delay.list d) (hm.delay.queue d)
  · intro w
    constructor
    · intro hr
      obtain ⟨q, hq⟩ := hm.running w hr
      exact ⟨q, hq, fun q' hq' => huniq hq' hq⟩
    · rintro ⟨q, hq, -⟩
      exact (hm.current q w hq).1
  · exact fun q w hq => (hm.current q w hq).2
  · intro q q' w hq hq'
    have h₁ := hi.worker q
    have h₂ := hi.worker q'
    rw [hq] at h₁
    rw [hq'] at h₂
    exact huniq h₁.symm h₂.symm

/-- A thread submits item 0 and the worker starts it. -/
def startRun : List (Act Unit Nat Nat) :=
  [.call (.thread 0) (.submitToQueue (some ()) 0), .step (.thread 0), .step (.thread 0),
    .step (.thread 0), .worker (), .worker (), .worker (), .worker ()]

theorem work_queue_state_running : ∃ s : State Unit Nat Nat,
    exec (workQueueSystem Unit Nat Nat) .initial startRun = some s ∧
    s.worker () = .run 0 ∧ ∃! q, (s.mem.queue q).current = some 0 :=
  ⟨_, rfl, rfl,
    ((work_queue_state (reachable_of_exec startRun State.init_initial rfl)).2.2.2.1 0).mp rfl⟩

end HazelOsal
