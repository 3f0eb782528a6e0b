import HazelOsal.Library.DeletionQueue
import HazelOsal.WorkQueue.Invariant

/-! # A work queue refines a FIFO with deletion

Each queue's accepted, canceled and started submissions, and those its `fifo.list` still holds,
are a `DeletionQueue`; every step of the system is one of its operations or leaves it alone. -/

namespace HazelOsal

open TransitionSystem

variable {Q W T : Type} [DecidableEq Q] [DecidableEq W] [DecidableEq T]

/-- The submission for which the node is on the list. -/
def FifoNode.submission (submitted : W → Nat) : FifoNode W → Option (W × Nat)
  | .work w => some (w, submitted w)
  | .stop => none

/-- The submissions that `fifo.list` holds. -/
def pendingSubmissions (m : Mem Q W) (q : Q) : List (W × Nat) :=
  (m.queue q).fifo.list.filterMap (FifoNode.submission m.hist.submitted)

/-- `D` is the history of queue `q`. -/
structure Abstracts (m : Mem Q W) (q : Q) (D : DeletionQueue (W × Nat)) : Prop where
  accepted : D.accepted = m.hist.accepted q
  deleted : D.deleted = m.hist.canceled
  started : D.started = m.hist.started q
  pending : D.pending = pendingSubmissions m q

/-- The submissions on record are the histories of FIFOs with deletion, and the identifiers of
the items are those given to them. -/
structure HistInv (m : Mem Q W) : Prop where
  refines : ∀ q, ∃ D, Abstracts m q D
  accepted : ∀ q w k, (w, k) ∈ m.hist.accepted q → k ≤ m.hist.submitted w
  canceled : ∀ w k, (w, k) ∈ m.hist.canceled → k ≤ m.hist.submitted w
  owner : ∀ q q' x, x ∈ m.hist.accepted q → x ∈ m.hist.accepted q' → q = q'
  ids : ∀ w, m.hist.ids w (m.hist.submitted w) = (m.work w).submissionId
  running : ∀ q w, (m.queue q).current = some w →
    (m.hist.started q).getLast? = some (w, m.hist.running w) ∧
    (m.work w).runningId = m.hist.ids w (m.hist.running w)

section
variable {m m' : Mem Q W} {q : Q} {w d : W}

omit [DecidableEq Q] in
theorem HistInv.started (h : HistInv m) {x : W × Nat} (hx : x ∈ m.hist.started q) :
    x ∈ m.hist.accepted q := by
  obtain ⟨D, hD⟩ := h.refines q
  rw [← hD.accepted]
  exact D.started_subset (hD.started ▸ hx)

/-! ### Steps that change no submission -/

/-- The submissions and the identifiers are as before, and no item has been started. -/
structure SameSubs (m m' : Mem Q W) : Prop where
  pending : ∀ q, pendingSubmissions m' q = pendingSubmissions m q
  current : ∀ q w, (m'.queue q).current = some w → (m.queue q).current = some w
  work : ∀ w, (m'.work w).submissionId = (m.work w).submissionId ∧
    (m'.work w).runningId = (m.work w).runningId
  hist : m'.hist.submitted = m.hist.submitted ∧ m'.hist.running = m.hist.running ∧
    m'.hist.ids = m.hist.ids ∧ m'.hist.accepted = m.hist.accepted ∧
    m'.hist.started = m.hist.started ∧ m'.hist.canceled = m.hist.canceled

section
omit [DecidableEq Q]

theorem HistInv.sameSubs (h : HistInv m) (hs : SameSubs m m') : HistInv m' := by
  obtain ⟨hp, hcur, hw, hsub, hrun, hids, hacc, hst, hcan⟩ := hs
  constructor
  · intro q
    obtain ⟨D, hD⟩ := h.refines q
    refine ⟨D, ?_, ?_, ?_, ?_⟩
    · rw [hacc]; exact hD.accepted
    · rw [hcan]; exact hD.deleted
    · rw [hst]; exact hD.started
    · rw [hp]; exact hD.pending
  · rw [hacc, hsub]; exact h.accepted
  · rw [hcan, hsub]; exact h.canceled
  · rw [hacc]; exact h.owner
  · intro w; rw [hids, hsub, (hw w).1]; exact h.ids w
  · intro q w hc
    rw [hst, hrun, hids, (hw w).2]
    exact h.running q w (hcur q w hc)

omit [DecidableEq W] in
/-- Where the lists and the submissions on record are the same, so are those pending. -/
theorem pending_congr (hl : (m'.queue q).fifo.list = (m.queue q).fifo.list)
    (hs : m'.hist.submitted = m.hist.submitted) :
    pendingSubmissions m' q = pendingSubmissions m q := by
  simp only [pendingSubmissions, hl, hs]

omit [DecidableEq W] in
theorem Same.sameSubs (h : Same m m') : SameSubs m m' := by
  obtain ⟨jt, hj⟩ := h.hist
  refine ⟨fun q => pending_congr (h.list q) (by rw [hj]), ?_, ?_, ?_⟩
  · intro q w hc; rw [← h.current]; exact hc
  · intro w; rw [h.work w]; exact ⟨rfl, rfl⟩
  · rw [hj]; exact ⟨rfl, rfl, rfl, rfl, rfl, rfl⟩

theorem settle_sameSubs {j : Nat} {f : Fate} : SameSubs m (m.settle d j f) :=
  ⟨fun _ => rfl, fun _ _ h => h, fun _ => ⟨rfl, rfl⟩, rfl, rfl, rfl, rfl, rfl, rfl⟩

omit [DecidableEq W] in
theorem SameSubs.trans {m₁ m₂ m₃ : Mem Q W} (h : SameSubs m₁ m₂) (h' : SameSubs m₂ m₃) :
    SameSubs m₁ m₃ := by
  obtain ⟨hp, hcur, hw, hsub, hrun, hids, hacc, hst, hcan⟩ := h
  obtain ⟨hp', hcur', hw', hsub', hrun', hids', hacc', hst', hcan'⟩ := h'
  exact ⟨fun q => (hp' q).trans (hp q), fun q w hc => hcur q w (hcur' q w hc),
    fun w => ⟨(hw' w).1.trans (hw w).1, (hw' w).2.trans (hw w).2⟩, hsub'.trans hsub,
    hrun'.trans hrun, hids'.trans hids, hacc'.trans hacc, hst'.trans hst, hcan'.trans hcan⟩

omit [DecidableEq W] in
theorem SameRun.sameSubs (h : SameRun m m')
    (hh : m'.hist.submitted = m.hist.submitted ∧ m'.hist.running = m.hist.running ∧
      m'.hist.ids = m.hist.ids ∧ m'.hist.accepted = m.hist.accepted ∧
      m'.hist.started = m.hist.started ∧ m'.hist.canceled = m.hist.canceled) :
    SameSubs m m' := by
  refine ⟨fun q => pending_congr (by rw [h.fifo]) hh.1, ?_, ?_, hh⟩
  · intro q w hc; rw [← h.current]; exact hc
  · intro w; obtain ⟨b, hb⟩ := h.work w; rw [hb]; exact ⟨rfl, rfl⟩

theorem clearDelayed_sameSubs : SameSubs m (clearDelayed m d) :=
  clearDelayed_sameRun.sameSubs ⟨rfl, rfl, rfl, rfl, rfl, rfl⟩

theorem undelay_sameSubs {f : Fate} : SameSubs m (undelay m d f) :=
  clearDelayed_sameSubs.trans settle_sameSubs

end

theorem arm_sameSubs {delay : UInt32} : SameSubs m (osWorkArm m q d delay) :=
  arm_sameRun.sameSubs ⟨rfl, rfl, rfl, rfl, rfl, rfl⟩

omit [DecidableEq Q] in
theorem mark_sameSubs : SameSubs m (osWorkCancelMark m w) := by
  refine ⟨fun q => pending_congr (by rw [mark_queue]) (by rw [mark_hist]), ?_, ?_, ?_⟩
  · intro q w hc; rw [← mark_queue]; exact hc
  · intro w'; rw [mark_work]; grind
  · rw [mark_hist]; exact ⟨rfl, rfl, rfl, rfl, rfl, rfl⟩

theorem complete_sameSubs : SameSubs m (osWorkQueueEntryComplete m q w) := by
  refine ⟨fun q' => pending_congr ?_ rfl, ?_, ?_, rfl, rfl, rfl, rfl, rfl, rfl⟩
  · rw [complete_queue]; split <;> simp_all
  · intro q' w' hc; rw [complete_queue] at hc; grind
  · intro w'; rw [complete_work]; grind

section
omit [DecidableEq W]

/-- An update of one queue that keeps `current` and the pending submissions. -/
theorem setQueue_sameSubs {v : OsWorkQueue W} (hc : v.current = (m.queue q).current)
    (hp : v.fifo.list.filterMap (FifoNode.submission m.hist.submitted) = pendingSubmissions m q) :
    SameSubs m (m.setQueue q v) := by
  refine ⟨fun q' => ?_, ?_, fun _ => ⟨rfl, rfl⟩, rfl, rfl, rfl, rfl, rfl, rfl⟩
  · simp only [pendingSubmissions, Mem.setQueue_queue, Mem.setQueue_hist]
    split
    case isTrue h => subst h; exact hp
    case isFalse => rfl
  · intro q' w' h; rw [Mem.setQueue_queue] at h; grind

theorem markStop_sameSubs : SameSubs m (osWorkQueueMarkStop m q) := by
  refine setQueue_sameSubs rfl ?_
  simp only [List.filterMap_append, pendingSubmissions]
  exact List.append_nil _

theorem stop_sameSubs {rest : List (FifoNode W)} (hl : (m.queue q).fifo.list = .stop :: rest) :
    SameSubs m (m.setQueue q { popped (m.queue q) rest with stopNodeQueued := false }) := by
  refine setQueue_sameSubs rfl ?_
  simp only [pendingSubmissions, hl]; rfl

theorem zero_sameSubs (hn : ∀ w, .work w ∉ (m.queue q).fifo.list) :
    SameSubs m (m.setQueue q { m.queue q with fifo := osFifoZero (m.queue q).fifo }) := by
  refine setQueue_sameSubs rfl (Eq.symm ?_)
  refine List.filterMap_eq_nil_iff.mpr fun node hnode => ?_
  cases node with
  | work w => exact absurd hnode (hn w)
  | stop => rfl

end

/-! ### Submission -/

/-- A submission returns 1 or 2 exactly when it is put on record as accepted; else nothing
changes. -/
theorem submit_accept (caller : Option Q) (m : Mem Q W) (q : Q) (w : W) :
    let (m', r) := osWorkSubmitToQueueCritical caller m q w
    ((r = 1 ∨ r = 2) ∧ m'.hist = m.hist.accept q w ((m.work w).submissionId + 1)) ∨
      (r ≤ 0 ∧ m' = m) := by
  rcases submit_cases caller m q w with ⟨-, h⟩ | ⟨-, r, hr, h⟩
  · rw [h]
    refine .inl ⟨?_, rfl⟩
    split
    · exact .inr rfl
    · exact .inl rfl
  · rw [h]; exact .inr ⟨hr, rfl⟩

theorem enqueue_hist : (osWorkEnqueue m q w).hist =
    m.hist.accept q w ((m.work w).submissionId + 1) := rfl

theorem enqueue_pending {q' : Q} (hr : RunInv m) (hq : (m.work w).flags.queued = false) :
    pendingSubmissions (osWorkEnqueue m q w) q' =
      if q' = q then pendingSubmissions m q ++ [(w, m.hist.submitted w + 1)]
      else pendingSubmissions m q' := by
  have hsub : (osWorkEnqueue m q w).hist.submitted =
      Function.update m.hist.submitted w (m.hist.submitted w + 1) := rfl
  -- the item is on no list, so the other entries keep their submissions
  have hold (q' : Q) : (m.queue q').fifo.list.filterMap
      (FifoNode.submission (Function.update m.hist.submitted w (m.hist.submitted w + 1))) =
      pendingSubmissions m q' := by
    refine List.filterMap_congr fun node hnode => ?_
    cases node with
    | stop => rfl
    | work w' =>
      have hne : w' ≠ w := by
        rintro rfl
        have := hr.list w' q'
        rw [if_neg (by simp [hq])] at this
        exact List.count_eq_zero.mp this hnode
      simp only [FifoNode.submission, Function.update_of_ne hne]
  simp only [pendingSubmissions, enqueue_queue, hsub]
  split
  · simp only [List.filterMap_append, hold, pendingSubmissions]
    simp [FifoNode.submission]
  · exact hold q'

theorem HistInv.enqueue (h : HistInv m) (hr : RunInv m) (hq : (m.work w).flags.queued = false)
    (hrun : ∀ q', (m.queue q').current = some w → q' = q) : HistInv (osWorkEnqueue m q w) := by
  have hacc (q' : Q) : (osWorkEnqueue m q w).hist.accepted q' =
      if q' = q then m.hist.accepted q ++ [(w, m.hist.submitted w + 1)]
      else m.hist.accepted q' := by
    simp only [enqueue_hist, History.accept, Function.update_apply]
  have hids (w' : W) (k : Nat) : (osWorkEnqueue m q w).hist.ids w' k =
      if w' = w ∧ k = m.hist.submitted w + 1 then (m.work w).submissionId + 1
      else m.hist.ids w' k := by
    simp only [enqueue_hist, History.accept, Function.update_apply]; grind
  have hsub (w' : W) : (osWorkEnqueue m q w).hist.submitted w' =
      if w' = w then m.hist.submitted w + 1 else m.hist.submitted w' := by
    simp only [enqueue_hist, History.accept, Function.update_apply]
  have hfresh (q' : Q) : (w, m.hist.submitted w + 1) ∉ m.hist.accepted q' :=
    fun hx => by have := h.accepted q' w _ hx; omega
  have hfresh' : (w, m.hist.submitted w + 1) ∉ m.hist.canceled :=
    fun hx => by have := h.canceled w _ hx; omega
  constructor
  · intro q'
    obtain ⟨D, hD⟩ := h.refines q'
    by_cases hqq : q' = q
    · subst hqq
      refine ⟨D.accept (w, m.hist.submitted w + 1) ?_ ?_, ?_, hD.deleted, hD.started, ?_⟩
      · rw [hD.accepted]; exact hfresh q'
      · rw [hD.deleted]; exact hfresh'
      · rw [hacc, if_pos rfl]; exact congrArg (· ++ _) hD.accepted
      · rw [enqueue_pending hr hq, if_pos rfl]; exact congrArg (· ++ _) hD.pending
    · refine ⟨D, ?_, hD.deleted, hD.started, ?_⟩
      · rw [hacc, if_neg hqq]; exact hD.accepted
      · rw [enqueue_pending hr hq, if_neg hqq]; exact hD.pending
  · intro q' w' k hx
    have := h.accepted q' w' k
    rw [hacc] at hx
    rw [hsub]
    grind
  · intro w' k hx
    have := h.canceled w' k hx
    rw [hsub]
    split
    case isTrue he => subst he; omega
    case isFalse => exact this
  · intro q₁ q₂ x h₁ h₂
    have := h.owner q₁ q₂ x
    rw [hacc] at h₁ h₂
    grind
  · intro w'
    rw [hids, hsub, enqueue_work]
    have := h.ids w'
    grind
  · intro q' w' hc
    have hc : (m.queue q').current = some w' := by rw [enqueue_queue] at hc; grind
    obtain ⟨hlast, hid⟩ := h.running q' w' hc
    have hle := h.accepted q' w' _ (h.started (List.mem_of_getLast? hlast))
    refine ⟨hlast, ?_⟩
    have hr' : (osWorkEnqueue m q w).hist.running = m.hist.running := rfl
    rw [hids, hr', enqueue_work]
    grind

/-! ### Cancellation -/

theorem HistInv.dequeue (h : HistInv m) (hr : RunInv m) (hq : (m.work w).flags.queued = true)
    (hw : (m.work w).queue = some q) : HistInv (osWorkCancelDequeue m w q) := by
  have hcan : (osWorkCancelDequeue m w q).hist.canceled =
      m.hist.canceled ++ [(w, m.hist.submitted w)] := rfl
  have hp (q' : Q) : pendingSubmissions (osWorkCancelDequeue m w q) q' =
      (pendingSubmissions m q').erase (w, m.hist.submitted w) := by
    simp only [pendingSubmissions, dequeue_queue]
    refine List.filterMap_erase rfl fun node hnode => ?_
    cases node with
    | stop => cases hnode
    | work w' => cases hnode; rfl
  have hmem : (w, m.hist.submitted w) ∈ pendingSubmissions m q := by
    refine List.mem_filterMap.mpr ⟨.work w, ?_, rfl⟩
    exact List.count_pos_iff.mp (by rw [hr.list, if_pos ⟨hq, hw⟩]; exact Nat.one_pos)
  -- the canceled submission is pending on `q`, so no queue has started it
  have hns (q' : Q) : (w, m.hist.submitted w) ∉ m.hist.started q' := by
    intro hx
    obtain ⟨D, hD⟩ := h.refines q
    rw [← hD.pending] at hmem
    have hqq := h.owner q' q _ (h.started hx)
      (hD.accepted ▸ (D.mem_started_or_pending.mp (.inr hmem)).1)
    subst hqq
    have := (List.nodup_append.mp D.nodup_started_pending).2.2 _ (hD.started ▸ hx) _ hmem
    exact this rfl
  constructor
  · intro q'
    obtain ⟨D, hD⟩ := h.refines q'
    refine ⟨D.delete (w, m.hist.submitted w) ?_, hD.accepted, ?_, hD.started, ?_⟩
    · rw [hD.started]; exact hns q'
    · rw [hcan]; exact congrArg (· ++ _) hD.deleted
    · rw [hp]; exact congrArg (List.erase · _) hD.pending
  · exact h.accepted
  · intro w' k hx
    rw [hcan, List.mem_append, List.mem_singleton] at hx
    rcases hx with hx | hx
    · exact h.canceled w' k hx
    · cases hx; exact le_refl (m.hist.submitted w)
  · exact h.owner
  · intro w'
    rw [dequeue_work]
    have := h.ids w'
    split
    case isTrue he => subst he; exact this
    case isFalse => exact this
  · intro q' w' hc
    rw [dequeue_queue] at hc
    rw [dequeue_work]
    have := h.running q' w' hc
    split
    case isTrue he => subst he; exact this
    case isFalse => exact this

/-! ### Start -/

theorem HistInv.start {rest : List (FifoNode W)} (h : HistInv m)
    (hl : (m.queue q).fifo.list = .work w :: rest) (hr : RunInv m)
    (hcur : (m.queue q).current = none) : HistInv (osWorkQueueEntryStart m q w rest) := by
  have hst (q' : Q) : (osWorkQueueEntryStart m q w rest).hist.started q' =
      if q' = q then m.hist.started q ++ [(w, m.hist.submitted w)] else m.hist.started q' := by
    simp only [osWorkQueueEntryStart, Function.update_apply]; rfl
  have hrun (w' : W) : (osWorkQueueEntryStart m q w rest).hist.running w' =
      if w' = w then m.hist.submitted w else m.hist.running w' := by
    simp only [osWorkQueueEntryStart, Function.update_apply]; rfl
  have hids : (osWorkQueueEntryStart m q w rest).hist.ids = m.hist.ids := rfl
  have hp : pendingSubmissions m q = (w, m.hist.submitted w) ::
      rest.filterMap (FifoNode.submission m.hist.submitted) := by
    simp only [pendingSubmissions, hl]; rfl
  -- a queued item may be running on this queue only, and this queue runs nothing
  have hidle (q' : Q) : (m.queue q').current ≠ some w := by
    intro hc
    have := (hr.current q' w hc).2
    rw [(hr.queued_head hl).2] at this
    cases this
    rw [hcur] at hc
    cases hc
  constructor
  · intro q'
    obtain ⟨D, hD⟩ := h.refines q'
    by_cases hqq : q' = q
    · subst hqq
      refine ⟨D.start (w, m.hist.submitted w) _ (hD.pending.trans hp), hD.accepted, hD.deleted,
        ?_, ?_⟩
      · rw [hst, if_pos rfl]; exact congrArg (· ++ _) hD.started
      · simp only [pendingSubmissions, start_queue, if_true]; rfl
    · refine ⟨D, hD.accepted, hD.deleted, ?_, ?_⟩
      · rw [hst, if_neg hqq]; exact hD.started
      · have hlist : ((osWorkQueueEntryStart m q w rest).queue q').fifo.list =
            (m.queue q').fifo.list := by rw [start_queue, if_neg hqq]
        exact hD.pending.trans (pending_congr hlist rfl).symm
  · exact h.accepted
  · exact h.canceled
  · exact h.owner
  · intro w'
    rw [start_work]
    have := h.ids w'
    split
    case isTrue he => subst he; exact this
    case isFalse => exact this
  · intro q' w' hc
    rw [start_queue] at hc
    rw [hst, hrun, hids, start_work]
    split at hc
    case isTrue hqq =>
      cases hc
      rw [if_pos hqq, if_pos rfl, if_pos rfl]
      exact ⟨List.getLast?_concat, (h.ids w).symm⟩
    case isFalse hqq =>
      have hne : w' ≠ w := by rintro rfl; exact hidle q' hc
      rw [if_neg hqq, if_neg hne, if_neg hne]
      exact h.running q' w' hc

/-! ### Every reachable state -/

end

section
variable {c : Ctx Q T} {m m' : Mem Q W} {q : Q}

omit [DecidableEq Q] in
theorem HistInv.mark {w : W} (h : HistInv m) : HistInv (osWorkCancelMark m w) :=
  h.sameSubs mark_sameSubs

omit [DecidableEq T] in
theorem CallEffect.hist {p p' : Pc Q W} (he : CallEffect c m p m' p') (h : HistInv m)
    (hr : RunInv m) (hz : ∀ q, p = .deinitZero q → (m.queue q).stopping = true) : HistInv m' := by
  cases he with
  | same he => exact h.sameSubs he.same.sameSubs
  | @enqueue q w r k ha =>
    refine h.enqueue hr ha.queued fun q' hc => ?_
    have hcw := hr.current q' w hc
    exact Option.some.inj (hcw.2.symm.trans (ha.running hcw.1))
  | @cancel w k =>
    rcases cancel_cases hr w with ⟨-, hm, -⟩ | ⟨q, hq, hw, hm, -⟩ <;> rw [hm]
    · exact h.mark
    · exact (h.dequeue hr hq hw).mark
  | arm => exact h.sameSubs arm_sameSubs
  | rearm => exact h.sameSubs (undelay_sameSubs.trans arm_sameSubs)
  | unschedule | cancelDelayable | flushDelayable | purge => exact h.sameSubs undelay_sameSubs
  | markStop => exact h.sameSubs markStop_sameSubs
  | @zero q => exact h.sameSubs (zero_sameSubs (hr.stopping q (hz q rfl)))

theorem WorkerEffect.hist {p p' : WorkerPc Q W} (he : WorkerEffect m q p m' p') (h : HistInv m)
    (hr : RunInv m) (hp : p.item = (m.queue q).current) : HistInv m' := by
  cases he with
  | same he => exact h.sameSubs he.same.sameSubs
  | refuse => exact h.sameSubs settle_sameSubs
  | @enqueue q' w r d j ha =>
    refine (h.enqueue hr ha.queued fun q₁ hc => ?_).sameSubs settle_sameSubs
    have hcw := hr.current q₁ w hc
    exact Option.some.inj (hcw.2.symm.trans (ha.running hcw.1))
  | promote => exact h.sameSubs clearDelayed_sameSubs
  | block => exact h.sameSubs undelay_sameSubs
  | stop hl => exact h.sameSubs (stop_sameSubs hl)
  | start hl => exact h.start hl hr hp.symm
  | complete => exact h.sameSubs complete_sameSubs

end

omit [DecidableEq Q] [DecidableEq T] in
theorem HistInv.init {s : State Q W T} (h : Init s) : HistInv s.mem := by
  have hlist (q : Q) : (s.mem.queue q).fifo.list = [] ∧ (s.mem.queue q).current = none := by
    obtain ⟨b, hb⟩ := h.queue q
    rw [hb]; exact ⟨rfl, rfl⟩
  constructor
  · intro q
    refine ⟨.empty, ?_, ?_, ?_, ?_⟩ <;> simp only [pendingSubmissions, h.hist, (hlist q).1] <;> rfl
  · intro q w k hx; rw [h.hist] at hx; cases hx
  · intro w k hx; rw [h.hist] at hx; cases hx
  · intro q q' x hx; rw [h.hist] at hx; cases hx
  · intro w; obtain ⟨b, hb⟩ := h.work w; rw [h.hist, hb]; rfl
  · intro q w hc; rw [(hlist q).2] at hc; cases hc

theorem HistInv.step {s t : State Q W T} {a : Act Q W T} (h : HistInv s.mem) (hi : StateInv s)
    (hs : HazelOsal.step s a = some t) : HistInv t.mem := by
  cases step_effect hs with
  | call | expire | workerExpire => exact h
  | @step c m p hstep he =>
    exact he.hist h hi.mem.toRunInv fun q hq => hi.stopping c q (by rw [hq]; rfl)
  | @worker q m p hfree hstep he => exact he.hist h hi.mem.toRunInv (hi.worker q)
  | tick => exact h.sameSubs Same.tick.sameSubs

theorem histInv_of_reachable {s : State Q W T} (h : Reachable (workQueueSystem Q W T) s) :
    HistInv s.mem :=
  ReachableVia.invariant (I := fun s => HistInv s.mem) (fun _ => HistInv.init)
    (fun _ _ _ hr hi _ hs => hi.step (stateInv_of_reachable hr) hs) h

/-- **The refinement.** In every reachable state: the submissions that the worker of `q` has
started are a prefix of those that `q` accepted and no cancel removed; each accepted submission
is on the list, canceled, or started once; and the item that `q` runs carries the identifier of
the submission started last. -/
theorem work_queue_refines_fifo {s : State Q W T} (h : Reachable (workQueueSystem Q W T) s) :
    (∀ q, s.mem.hist.started q <+:
      (s.mem.hist.accepted q).filter (!s.mem.hist.canceled.contains ·)) ∧
    (∀ q, ∀ x ∈ s.mem.hist.accepted q,
      ExactlyOne (x ∈ pendingSubmissions s.mem q) (x ∈ s.mem.hist.canceled)
        ((s.mem.hist.started q).count x = 1)) ∧
    (∀ q w, (s.mem.queue q).current = some w → ∃ k,
      (s.mem.hist.started q).getLast? = some (w, k) ∧
      (s.mem.work w).runningId = s.mem.hist.ids w k) := by
  have hi := histInv_of_reachable h
  refine ⟨fun q => ?_, fun q x hx => ?_, fun q w hc => ⟨_, hi.running q w hc⟩⟩
  · obtain ⟨D, hD⟩ := hi.refines q
    have := D.started_prefix
    rwa [hD.started, hD.accepted, hD.deleted] at this
  · obtain ⟨D, hD⟩ := hi.refines q
    have := D.exactlyOne (hD.accepted ▸ hx)
    rwa [hD.pending, hD.deleted, hD.started] at this

/-- Two items are submitted, the first is canceled and the worker starts the second. -/
def cancelRun : List (Act Unit Nat Nat) :=
  [.call (.thread 0) (.submitToQueue (some ()) 0), .step (.thread 0), .step (.thread 0),
    .step (.thread 0), .call (.thread 0) (.submitToQueue (some ()) 1), .step (.thread 0),
    .step (.thread 0), .step (.thread 0), .call (.thread 1) (.cancel 0), .step (.thread 1),
    .step (.thread 1), .worker (), .worker (), .worker (), .worker ()]

theorem work_queue_refines_fifo_canceled : ∃ s : State Unit Nat Nat,
    exec (workQueueSystem Unit Nat Nat) .initial cancelRun = some s ∧
    s.mem.hist.accepted () = [(0, 1), (1, 1)] ∧ s.mem.hist.canceled = [(0, 1)] ∧
    s.mem.hist.started () = [(1, 1)] ∧ s.mem.hist.started () <+:
      (s.mem.hist.accepted ()).filter (!s.mem.hist.canceled.contains ·) :=
  ⟨_, rfl, rfl, rfl, rfl,
    (work_queue_refines_fifo (reachable_of_exec cancelRun State.init_initial rfl)).1 ()⟩

end HazelOsal
