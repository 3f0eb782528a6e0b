import HazelOsal.WorkQueue.Promotion
import Mathlib.Order.Bounds.Basic

/-! # A call of `os_work_promote_delayed` on its own

Where no other thread interleaves and the tick stands still, a call takes the due items off the
delayed list, one round for each, and submits them to the queue in the order in which they stand. It
returns the shortest of the remaining times. -/

namespace HazelOsal

open TransitionSystem

variable {Q W T : Type} [DecidableEq Q] [DecidableEq W] [DecidableEq T]

/-! ## The scan -/

section
variable {deadline : W → UInt32} {now timeout : UInt32} {ds : List W}

section
omit [DecidableEq W]

/-- The scan stops at the first due item. -/
theorem promoteScan_fst : (promoteScan deadline now ds timeout).1 =
    ds.find? fun d => osWorkDeadlineRemaining (deadline d) now = 0 := by
  induction ds generalizing timeout with
  | nil => rfl
  | cons d ds ih =>
    rw [promoteScan, List.find?_cons]
    by_cases h0 : osWorkDeadlineRemaining (deadline d) now = 0
    · simp only [h0, if_true, decide_true]
    · simp only [h0, if_false, decide_false, ih]

/-- What a scan that has passed `l` has found. -/
structure Shortest (remaining : W → UInt32) (l : List W) (timeout : UInt32) : Prop where
  forever : l = [] → timeout = OS_WAIT_FOREVER
  mem : l ≠ [] → ∃ d ∈ l, timeout = remaining d
  le : ∀ d ∈ l, timeout ≤ remaining d

theorem Shortest.nil {remaining : W → UInt32} : Shortest remaining [] OS_WAIT_FOREVER :=
  ⟨fun _ => rfl, fun h => absurd rfl h, fun _ hd => absurd hd List.not_mem_nil⟩

theorem Shortest.snoc {remaining : W → UInt32} {l : List W} {d : W}
    (h : Shortest remaining l timeout) (hr : ∀ d, remaining d < OS_WAIT_FOREVER) :
    Shortest remaining (l ++ [d])
      (if timeout = OS_WAIT_FOREVER ∨ remaining d < timeout then remaining d else timeout) := by
  refine ⟨fun hnil => absurd hnil (List.concat_ne_nil d l), fun _ => ?_, fun e he => ?_⟩
  · split
    case isTrue => exact ⟨d, List.mem_append_right l List.mem_cons_self, rfl⟩
    case isFalse hn =>
      obtain ⟨e, he, heq⟩ := h.mem fun hl => hn (.inl (h.forever hl))
      exact ⟨e, List.mem_append_left [d] he, heq⟩
  · rcases List.mem_append.mp he with he | he
    · have hle := h.le e he
      split
      case isTrue hlt =>
        rcases hlt with rfl | hlt
        · exact absurd (hr e) (UInt32.not_lt.mpr hle)
        · exact UInt32.le_trans (UInt32.le_of_lt hlt) hle
      case isFalse => exact hle
    · obtain rfl := List.mem_singleton.mp he
      split
      case isTrue => exact UInt32.le_refl _
      case isFalse hn => exact UInt32.not_lt.mp fun hlt => hn (.inr hlt)

theorem remaining_lt_forever {deadline : UInt32} :
    osWorkDeadlineRemaining deadline now < OS_WAIT_FOREVER := by
  rw [UInt32.lt_iff_toNat_lt]
  exact Nat.lt_trans (SerialTicks.ahead_lt deadline now) (by decide)

/-- A scan that finds nothing due returns the shortest remaining time. -/
theorem promoteScan_shortest {l : List W}
    (h : Shortest (fun d => osWorkDeadlineRemaining (deadline d) now) l timeout)
    (hd : ∀ d ∈ ds, osWorkDeadlineRemaining (deadline d) now ≠ 0) :
    Shortest (fun d => osWorkDeadlineRemaining (deadline d) now) (l ++ ds)
      (promoteScan deadline now ds timeout).2 := by
  induction ds generalizing l timeout with
  | nil => rwa [List.append_nil]
  | cons d ds ih =>
    rw [promoteScan, List.append_cons]
    simp only [hd d List.mem_cons_self, if_false]
    exact ih (h.snoc fun _ => remaining_lt_forever) fun e he => hd e (List.mem_cons_of_mem d he)

end

/-- The first item that meets a test comes off a list. -/
theorem filter_of_find? {p : W → Bool} {d : W} (h : ds.find? p = some d) :
    ds.filter p = d :: (ds.erase d).filter p ∧
    (ds.erase d).filter (!p ·) = ds.filter (!p ·) := by
  obtain ⟨hd, l, l', rfl, hl⟩ := List.find?_eq_some_iff_append.mp h
  have hnot : d ∉ l := fun hmem => by simpa [hd] using hl d hmem
  have hnil : l.filter p = [] := List.filter_eq_nil_iff.mpr fun a ha => by simpa using hl a ha
  rw [List.erase_append_right _ hnot, List.erase_cons_head]
  simp [List.filter_append, hnil, hd]

end

/-! ## One round -/

/-- The fifo once the items `ws` have been submitted to it. -/
def OsFifo.submitted (fifo : OsFifo (FifoNode W)) (ws : List W) : OsFifo (FifoNode W) :=
  { fifo with
    list := fifo.list ++ ws.map .work
    count := fifo.count + UInt32.ofNat ws.length
    items := OsSem.give^[ws.length] fifo.items }

omit [DecidableEq W] in
theorem OsFifo.submitted_nil (fifo : OsFifo (FifoNode W)) : fifo.submitted [] = fifo := by
  simp [submitted]

omit [DecidableEq W] in
theorem OsFifo.submitted_append (fifo : OsFifo (FifoNode W)) (ws ws' : List W) :
    fifo.submitted (ws ++ ws') = (fifo.submitted ws).submitted ws' := by
  simp only [submitted, List.map_append, List.append_assoc, List.length_append, UInt32.ofNat_add,
    UInt32.add_assoc, ← Function.iterate_add_apply, Nat.add_comm ws'.length]

/-- An item, initialized with a handler, that is neither `CANCELING` nor active on a queue other
than `q`: the worker of `q` may submit it to `q`. -/
@[mk_iff] structure Submittable (m : Mem Q W) (q : Q) (d : W) : Prop where
  magic : (m.work d).magic = OS_WORK_MAGIC
  handler : (m.work d).handler = true
  syncInitialized : (m.work d).syncInitialized = true
  canceling : (m.work d).flags.canceling = false
  queue : (m.work d).flags.queued = true ∨ (m.work d).flags.running = true →
    (m.work d).queue = some q

instance (m : Mem Q W) (q : Q) (d : W) : Decidable (Submittable m q d) :=
  decidable_of_iff' _ (submittable_iff m q d)

/-- A step of the worker of `q` inside `os_work_promote_delayed`. -/
def WorkerPc.promoting : WorkerPc Q W → Bool
  | .promote | .promoteLock _ | .promoteSubmit .. | .promoteNotify _ => true
  | _ => false

/-- Steps of the worker of `q` inside `os_work_promote_delayed`. -/
abbrev Promotes (q : Q) : Mem Q W × WorkerPc Q W → Mem Q W × WorkerPc Q W → Prop :=
  Relation.ReflTransGen fun x y => x.2.promoting = true ∧ workerStep x.1 q x.2 = some y

/-- What the round for `d` does to the memory. -/
structure Round (q : Q) (d : W) (m m' : Mem Q W) : Prop where
  queue : m'.queue q =
    { m.queue q with
      delayed := (m.queue q).delayed.erase d
      fifo := (m.queue q).fifo.submitted (if (m.work d).flags.queued then [] else [d]) }
  work : ∀ w, w ≠ d → m'.work w = m.work w
  dwork : m'.dwork = m.dwork
  tick : m'.tick = m.tick

section
variable {m : Mem Q W} {q : Q} {d : W}

/-- The submission that a round makes. -/
theorem Submittable.submits {j : Nat} (h : Submittable m q d)
    (hstarted : (m.queue q).started = true) (hstopping : (m.queue q).stopping = false)
    (hroom : (m.work d).flags.queued = false → (m.queue q).fifo.count < UINT16_MAX) :
    ∃ m', Promotes q (m, .promoteSubmit d j (.enter (some q) d)) (m', .promote) ∧
      m'.queue q =
        { m.queue q with
          fifo := (m.queue q).fifo.submitted (if (m.work d).flags.queued then [] else [d]) } ∧
      (∀ w, w ≠ d → m'.work w = m.work w) ∧ m'.dwork = m.dwork ∧ m'.tick = m.tick := by
  have henter : workerStep m q (.promoteSubmit d j (.enter (some q) d)) =
      some (m, .promoteSubmit d j (.lock q d)) := by
    simp [workerStep, SubmitPc.step, settleSubmit, h.magic, h.handler, h.syncInitialized, hstarted]
  by_cases hq : (m.work d).flags.queued = true
  · have hlock : workerStep m q (.promoteSubmit d j (.lock q d)) =
        some (m.settle d j .coalesced, .promote) := by
      simp [workerStep, SubmitPc.step, osWorkSubmitToQueueCritical, settleSubmit, Fate.ofSubmit,
        hstopping, h.canceling, hq, h.queue (.inl hq)]
    refine ⟨_, .tail (.single ⟨rfl, henter⟩) ⟨rfl, hlock⟩, ?_, fun _ _ => rfl, rfl, rfl⟩
    rw [if_pos hq, OsFifo.submitted_nil]
    rfl
  · have hq := Bool.eq_false_of_not_eq_true hq
    rcases submit_cases (some q) m q d with ⟨-, hcritical⟩ | ⟨hn, -⟩
    case inr =>
      exact absurd ⟨hstopping, .inr rfl, h.canceling, hq, fun hr => h.queue (.inr hr), hroom hq⟩ hn
    have hpos : (0 : Int) < if (m.work d).flags.running then 2 else 1 := by split <;> decide
    have hlock : workerStep m q (.promoteSubmit d j (.lock q d)) =
        some ((osWorkEnqueue m q d).settle d j .submitted, .promoteSubmit d j
          (.give q d (if (m.work d).flags.running then 2 else 1))) := by
      simp only [workerStep, SubmitPc.step, hcritical, hpos, if_true, settleSubmit, Fate.ofSubmit]
    have hgive : workerStep ((osWorkEnqueue m q d).settle d j .submitted) q (.promoteSubmit d j
        (.give q d (if (m.work d).flags.running then 2 else 1))) =
        some (((osWorkEnqueue m q d).settle d j .submitted).giveItems q, .promote) := rfl
    refine ⟨_, .tail (.tail (.single ⟨rfl, henter⟩) ⟨rfl, hlock⟩) ⟨rfl, hgive⟩, ?_,
      fun w hw => ?_, rfl, rfl⟩
    · have hqueue : ((osWorkEnqueue m q d).settle d j .submitted).queue q = _ :=
        enqueue_queue.trans (if_pos rfl)
      rw [Mem.giveItems, Mem.setQueue_queue, if_pos rfl, hqueue, hq]
      rfl
    · exact enqueue_work.trans (if_neg hw)

/-- **A round** takes the first due item off the list and submits it. -/
theorem Submittable.round {timeout : UInt32} (h : Submittable m q d)
    (hscan : promoteScan (fun d => (m.dwork d).deadline) (osTickGet m) (m.queue q).delayed
      OS_WAIT_FOREVER = (some d, timeout))
    (hstarted : (m.queue q).started = true) (hplugged : (m.queue q).plugged = false)
    (hstopping : (m.queue q).stopping = false)
    (hroom : (m.work d).flags.queued = false → (m.queue q).fifo.count < UINT16_MAX) :
    ∃ m', Promotes q (m, .promote) (m', .promote) ∧ Round q d m m' := by
  have hpromote : workerStep m q .promote = some (m, .promoteLock m.tick) := rfl
  have hcritical : workerStep m q (.promoteLock m.tick) =
      some (clearDelayed m d, .promoteSubmit d (m.hist.scheduled d) (.enter (some q) d)) := by
    rw [osTickGet] at hscan
    simp [workerStep, osWorkPromoteDelayedCritical, hscan, hplugged, hstopping]
  have hclear : (clearDelayed m d).work d =
      { m.work d with flags := { (m.work d).flags with delayed := false } } :=
    clearDelayed_work.trans (if_pos rfl)
  have hsub : Submittable (clearDelayed m d) q d := by
    constructor <;> rw [hclear]
    exacts [h.magic, h.handler, h.syncInitialized, h.canceling, h.queue]
  obtain ⟨m', hrun, hqueue, hwork, hdwork, htick⟩ :=
    hsub.submits (j := m.hist.scheduled d) hstarted hstopping (by rwa [hclear])
  refine ⟨m', .head ⟨rfl, hpromote⟩ (.head ⟨rfl, hcritical⟩ hrun), ?_, fun w hw => ?_, hdwork,
    htick⟩
  · rw [hqueue, hclear, clearDelayed_queue]
  · exact (hwork w hw).trans (clearDelayed_work.trans (if_neg hw))

end

/-! ## The whole call -/

/-- The delayed item `d` reads as due. -/
def Mem.isDue (m : Mem Q W) (d : W) : Bool :=
  osWorkDeadlineRemaining (m.dwork d).deadline (osTickGet m) = 0

/-- The queue `q` is started, neither plugged nor stopping, and its worker may submit the items of
its delayed list to it. -/
@[mk_iff] structure Promotable (m : Mem Q W) (q : Q) : Prop where
  started : (m.queue q).started = true
  plugged : (m.queue q).plugged = false
  stopping : (m.queue q).stopping = false
  nodup : (m.queue q).delayed.Nodup
  item : ∀ d ∈ (m.queue q).delayed, Submittable m q d

instance (m : Mem Q W) (q : Q) : Decidable (Promotable m q) :=
  decidable_of_iff' _ (promotable_iff m q)

section
variable {m m' : Mem Q W} {q : Q} {d : W}

section
omit [DecidableEq Q]

theorem Round.isDue (h : Round q d m m') : m'.isDue = m.isDue :=
  funext fun d => by rw [Mem.isDue, Mem.isDue, osTickGet, osTickGet, h.dwork, h.tick]

theorem Promotable.round (h : Promotable m q) (hr : Round q d m m') : Promotable m' q := by
  have hqueue := hr.queue
  refine ⟨?_, ?_, ?_, ?_, fun e he => ?_⟩
  · rw [hqueue]; exact h.started
  · rw [hqueue]; exact h.plugged
  · rw [hqueue]; exact h.stopping
  · rw [hqueue]; exact h.nodup.erase d
  · rw [hqueue] at he
    obtain ⟨hne, he⟩ := h.nodup.mem_erase_iff.mp he
    have hitem := h.item e he
    constructor <;> rw [hr.work e hne]
    exacts [hitem.magic, hitem.handler, hitem.syncInitialized, hitem.canceling, hitem.queue]

/-- The items that a call submits. -/
def newlyDue (m : Mem Q W) (q : Q) : List W :=
  ((m.queue q).delayed.filter m.isDue).filter fun d => !(m.work d).flags.queued

/-- The items that the rounds after that of `d` submit. -/
theorem newlyDue_of_round (h : Promotable m q) (hfind : (m.queue q).delayed.find? m.isDue = some d)
    (hr : Round q d m m') :
    newlyDue m q = (if (m.work d).flags.queued then [] else [d]) ++ newlyDue m' q := by
  have hlist : (m'.queue q).delayed = (m.queue q).delayed.erase d := by rw [hr.queue]
  have hrest : newlyDue m' q = (((m.queue q).delayed.erase d).filter m.isDue).filter
      fun e => !(m.work e).flags.queued := by
    rw [newlyDue, hr.isDue, hlist]
    apply List.filter_congr
    intro e he
    rw [hr.work e (h.nodup.mem_erase_iff.mp (List.mem_filter.mp he).1).1]
  rw [hrest, newlyDue, (filter_of_find? hfind).1, List.filter_cons]
  by_cases hq : (m.work d).flags.queued = true <;> simp [hq]

theorem Round.room (hr : Round q d m m') {ws : List W}
    (hws : newlyDue m q = (if (m.work d).flags.queued then [] else [d]) ++ ws)
    (h : (m.queue q).fifo.count.toNat + (newlyDue m q).length ≤ 65535) :
    (m'.queue q).fifo.count.toNat + ws.length ≤ 65535 := by
  rw [hws, List.length_append] at h
  have hcount : (m'.queue q).fifo.count = (m.queue q).fifo.count +
      UInt32.ofNat (if (m.work d).flags.queued then [] else [d]).length := by
    rw [hr.queue]
    rfl
  rw [hcount, UInt32.toNat_add, UInt32.toNat_ofNat']
  omega

end

/-- **A call takes the due items off the delayed list** and submits them in the order in which they
stand. -/
theorem Promotable.run (h : Promotable m q)
    (hroom : (m.queue q).fifo.count.toNat + (newlyDue m q).length ≤ 65535) :
    ∃ m' timeout, Promotes q (m, .promote) (m', .take timeout m.tick) ∧
      m'.queue q =
        { m.queue q with
          delayed := (m.queue q).delayed.filter (!m.isDue ·)
          fifo := (m.queue q).fifo.submitted (newlyDue m q) } ∧
      Shortest (fun d => osWorkDeadlineRemaining (m.dwork d).deadline (osTickGet m))
        ((m.queue q).delayed.filter (!m.isDue ·)) timeout := by
  -- the number of due items is what a round makes smaller
  generalize hn : ((m.queue q).delayed.filter m.isDue).length = n
  induction n generalizing m with
  | zero =>
    have hnil := List.length_eq_zero_iff.mp hn
    have hnot := List.filter_eq_nil_iff.mp hnil
    have hall : (m.queue q).delayed.filter (!m.isDue ·) = (m.queue q).delayed :=
      List.filter_eq_self.mpr fun d hd => by simpa using hnot d hd
    have hnew : newlyDue m q = [] := by rw [newlyDue, hnil, List.filter_nil]
    obtain ⟨timeout, hscan⟩ : ∃ timeout, promoteScan (fun d => (m.dwork d).deadline) (osTickGet m)
        (m.queue q).delayed OS_WAIT_FOREVER = (none, timeout) :=
      ⟨_, Prod.ext (promoteScan_fst.trans (List.find?_eq_none.mpr hnot)) rfl⟩
    have hshort : Shortest (fun d => osWorkDeadlineRemaining (m.dwork d).deadline (osTickGet m))
        ([] ++ (m.queue q).delayed)
        (promoteScan (fun d => (m.dwork d).deadline) (osTickGet m) (m.queue q).delayed
          OS_WAIT_FOREVER).2 := by
      apply promoteScan_shortest .nil
      intro d hd
      simpa [Mem.isDue] using hnot d hd
    rw [hscan] at hshort
    have hcritical : workerStep m q (.promoteLock m.tick) = some (m, .take timeout m.tick) := by
      rw [osTickGet] at hscan
      simp [workerStep, osWorkPromoteDelayedCritical, hscan]
    rw [hall, hnew, OsFifo.submitted_nil]
    exact ⟨m, timeout, .tail (.single ⟨rfl, rfl⟩) ⟨rfl, hcritical⟩, rfl, hshort⟩
  | succ n ih =>
    obtain ⟨d, hfind⟩ : ∃ d, (m.queue q).delayed.find? m.isDue = some d := by
      apply Option.ne_none_iff_exists'.mp
      intro hnone
      rw [List.filter_eq_nil_iff.mpr (List.find?_eq_none.mp hnone)] at hn
      cases hn
    obtain ⟨hcons, hkeep⟩ := filter_of_find? hfind
    have hscan : promoteScan (fun d => (m.dwork d).deadline) (osTickGet m) (m.queue q).delayed
        OS_WAIT_FOREVER = (some d, _) :=
      Prod.ext (promoteScan_fst.trans hfind) rfl
    have hitem := h.item d (List.mem_of_find?_eq_some hfind)
    obtain ⟨m₁, hrun, hr⟩ := hitem.round hscan h.started h.plugged h.stopping fun hq => by
      have hpos : 0 < (newlyDue m q).length := by
        rw [newlyDue, hcons, List.filter_cons_of_pos (by simp [hq])]
        exact Nat.succ_pos _
      have hmax : UINT16_MAX.toNat = 65535 := rfl
      rw [UInt32.lt_iff_toNat_lt]
      omega
    have hnew := newlyDue_of_round h hfind hr
    have hlist : (m₁.queue q).delayed = (m.queue q).delayed.erase d := by rw [hr.queue]
    obtain ⟨m', timeout, hruns, hqueue, hshort⟩ := ih (h.round hr) (hr.room hnew hroom)
      (by rw [hr.isDue, hlist]; simpa [hcons] using hn)
    refine ⟨m', timeout, hr.tick ▸ hrun.trans hruns, ?_, ?_⟩
    · rw [hqueue, hr.isDue, hlist, hkeep, hr.queue, hnew, OsFifo.submitted_append]
    · rw [hr.isDue, hlist, hkeep] at hshort
      rwa [osTickGet, hr.dwork, hr.tick] at hshort

end

/-! ## In the system -/

section
variable {s : State Q W T} {q : Q} {d : W}

/-- The steps of one worker alone. -/
theorem exec_promotes {x y : Mem Q W × WorkerPc Q W} (h : Promotes q x y)
    (hx : (s.mem, s.worker q) = x) :
    ∃ n, exec (workQueueSystem Q W T) s (.replicate n (.worker q)) =
        some (s.setWorker q y.1 y.2) ∧
      execOk (workQueueSystem Q W T) (fun s _ => (s.worker q).promoting) s
        (.replicate n (.worker q)) = true := by
  induction h using Relation.ReflTransGen.head_induction_on generalizing s with
  | refl =>
    subst hx
    refine ⟨0, ?_, rfl⟩
    rw [State.setWorker, Function.update_eq_self]
    rfl
  | @head x z hstep _ ih =>
    subst hx
    obtain ⟨hpromoting, hstep⟩ := hstep
    have hhandling : (s.worker q).handling = false := by
      cases hp : s.worker q with
      | run w => rw [hp] at hpromoting; cases hpromoting
      | _ => rfl
    have hs : (workQueueSystem Q W T).step s (.worker q) = some (s.setWorker q z.1 z.2) := by
      simp [workQueueSystem, step, hhandling, hstep]
    obtain ⟨n, hexec, hok⟩ := ih (s := s.setWorker q z.1 z.2)
      (Prod.ext rfl (Function.update_self ..))
    refine ⟨n + 1, ?_, ?_⟩
    · rw [List.replicate_succ, exec, hs, Option.bind_some, hexec, State.setWorker, State.setWorker,
        Function.update_idem]
      rfl
    · rw [List.replicate_succ, execOk, hs, Option.all_some, hok, hpromoting]
      rfl

/-- The delayed item `d` comes due at tick `due`, which is at most `2 ^ 31 - 1` ticks from now. What
passed more than half the range ago reads as ahead. -/
@[mk_iff] structure DueAt (m : Mem Q W) (d : W) (due : Int) : Prop where
  deadline : (m.dwork d).deadline = UInt32.ofInt due
  ahead : due ≤ m.tick + (2 ^ 31 - 1)
  behind : m.tick ≤ due + 2 ^ 31

instance (m : Mem Q W) (d : W) (due : Int) : Decidable (DueAt m d due) :=
  decidable_of_iff' _ (dueAt_iff m d due)

omit [DecidableEq Q] [DecidableEq W] in
theorem exists_dueAt (m : Mem Q W) (d : W) : ∃ due, DueAt m d due := by
  obtain ⟨due, hdeadline, hahead, hbehind⟩ := SerialTicks.exists_ofInt (m.dwork d).deadline m.tick
  exact ⟨due, hdeadline, by omega, hbehind⟩

omit [DecidableEq Q] [DecidableEq W] in
theorem DueAt.remaining {m : Mem Q W} {due : Int} (h : DueAt m d due) :
    ((osWorkDeadlineRemaining (m.dwork d).deadline (osTickGet m)).toNat : Int) =
      max (due - m.tick) 0 := by
  have hahead := h.ahead
  rw [h.deadline]
  exact SerialTicks.ahead_ofInt (by omega) h.behind

omit [DecidableEq Q] [DecidableEq W] in
theorem DueAt.isDue {m : Mem Q W} {due : Int} (h : DueAt m d due) :
    m.isDue d = decide (due ≤ m.tick) := by
  have hr := h.remaining
  rw [Mem.isDue, decide_eq_decide, SerialTicks.eq_zero_iff]
  omega

/-- In a reachable state a delayed item comes due within half the range. -/
theorem dueAt_of_reachable (h : Reachable (workQueueSystem Q W T) s)
    (hd : d ∈ (s.mem.queue q).delayed) (hp : s.mem.tick ≤ s.mem.currentDue d + 2 ^ 31) :
    DueAt s.mem d (s.mem.currentDue d) := by
  have hdelayed := ((stateInv_of_reachable h).mem.delay.delayed_of_mem hd).1
  have hlt := horizonInv_of_reachable h d hdelayed
  refine ⟨?_, by omega, by omega⟩
  rw [deadlineInv_of_reachable h d hdelayed, ← UInt32.toNat_inj, ← Int.natCast_inj,
    SerialTicks.toNat_ofInt, UInt32.toNat_ofNat']
  omega

/-- In a reachable state the delayed list holds an item once, and its items are initialized. -/
theorem promotable_of_reachable (h : Reachable (workQueueSystem Q W T) s)
    (hstarted : (s.mem.queue q).started = true) (hplugged : (s.mem.queue q).plugged = false)
    (hstopping : (s.mem.queue q).stopping = false)
    (hitem : ∀ d ∈ (s.mem.queue q).delayed, (s.mem.work d).handler = true ∧
      (s.mem.work d).flags.canceling = false ∧
      ((s.mem.work d).flags.queued = true ∨ (s.mem.work d).flags.running = true →
        (s.mem.work d).queue = some q)) :
    Promotable s.mem q := by
  have hm := (stateInv_of_reachable h).mem
  refine ⟨hstarted, hplugged, hstopping, ?_, fun d hd => ?_⟩
  · apply List.nodup_iff_count.mpr
    intro d
    rw [hm.delay.list d q]
    split <;> omega
  · obtain ⟨hhandler, hcanceling, hqueue⟩ := hitem d hd
    exact ⟨hm.magic d, hhandler, hm.syncInitialized d, hcanceling, hqueue⟩

/-- **Promotion is exact.** Where the worker of `q` is alone and the tick stands still, a call of
`os_work_promote_delayed` returns. It takes exactly the due items off the delayed list, and those
that were not queued are at the end of the fifo, in their order. It returns the shortest of the
remaining times. -/
theorem promotion_exact {due : W → Int} (hcall : s.worker q = .promote)
    (h : Promotable s.mem q) (hdue : ∀ d ∈ (s.mem.queue q).delayed, DueAt s.mem d (due d))
    (hroom : (s.mem.queue q).fifo.count.toNat + ((s.mem.queue q).delayed.filter fun d =>
      due d ≤ s.mem.tick ∧ (s.mem.work d).flags.queued = false).length ≤ 65535) :
    ∃ n m' timeout,
      exec (workQueueSystem Q W T) s (.replicate n (.worker q)) =
        some (s.setWorker q m' (.take timeout s.mem.tick)) ∧
      execOk (workQueueSystem Q W T) (fun s _ => (s.worker q).promoting) s
        (.replicate n (.worker q)) = true ∧
      (m'.queue q).delayed = (s.mem.queue q).delayed.filter (fun d => s.mem.tick < due d) ∧
      (m'.queue q).fifo = (s.mem.queue q).fifo.submitted ((s.mem.queue q).delayed.filter fun d =>
        due d ≤ s.mem.tick ∧ (s.mem.work d).flags.queued = false) ∧
      ((m'.queue q).delayed = [] → timeout = OS_WAIT_FOREVER) ∧
      ((m'.queue q).delayed ≠ [] → 1 ≤ timeout.toNat ∧
        IsLeast ((fun d => due d - s.mem.tick) '' {d | d ∈ (m'.queue q).delayed})
          timeout.toNat) := by
  have hnew : newlyDue s.mem q = (s.mem.queue q).delayed.filter fun d =>
      due d ≤ s.mem.tick ∧ (s.mem.work d).flags.queued = false := by
    rw [newlyDue, List.filter_filter]
    apply List.filter_congr
    intro d hd
    simp [(hdue d hd).isDue, Bool.and_comm]
  have hkept : (s.mem.queue q).delayed.filter (!s.mem.isDue ·) =
      (s.mem.queue q).delayed.filter (fun d => s.mem.tick < due d) := by
    apply List.filter_congr
    intro d hd
    rw [(hdue d hd).isDue, ← decide_not]
    exact decide_eq_decide.mpr Int.not_le
  rw [← hnew] at hroom ⊢
  obtain ⟨m', timeout, hrun, hqueue, hshort⟩ := h.run hroom
  obtain ⟨n, hexec, hok⟩ := exec_promotes (s := s) hrun (Prod.ext rfl hcall)
  rw [hkept] at hqueue hshort
  refine ⟨n, m', timeout, hexec, hok, ?_, ?_, ?_, ?_⟩
  · rw [hqueue]
  · rw [hqueue]
  · rw [hqueue]
    exact hshort.forever
  · rw [hqueue]
    intro hne
    have hleft (d : W) (hd : d ∈ (s.mem.queue q).delayed.filter fun d => s.mem.tick < due d) :
        ((osWorkDeadlineRemaining (s.mem.dwork d).deadline (osTickGet s.mem)).toNat : Int) =
            due d - s.mem.tick ∧ s.mem.tick < due d := by
      obtain ⟨hd, hlt⟩ := List.mem_filter.mp hd
      have hlt := of_decide_eq_true hlt
      exact ⟨(hdue d hd).remaining.trans (max_eq_left (by omega)), hlt⟩
    obtain ⟨d, hd, ht⟩ := hshort.mem hne
    obtain ⟨hr, hlt⟩ := hleft d hd
    refine ⟨by rw [ht]; omega, ⟨d, hd, ?_⟩, ?_⟩
    · rw [ht, hr]
    · rintro _ ⟨e, he, rfl⟩
      have hle := UInt32.le_iff_toNat_le.mp (hshort.le e he)
      have hr := (hleft e he).1
      dsimp only at hle ⊢
      omega

end

/-- Items 0 and 1 are scheduled for one tick and item 2 for five; item 0 is queued before they come
due. -/
def twoDueRun : List (Act Unit Nat Nat) :=
  [.call (.thread 0) (.scheduleForQueue () 0 1), .step (.thread 0), .step (.thread 0),
    .step (.thread 0), .call (.thread 0) (.submitToQueue (some ()) 0), .step (.thread 0),
    .step (.thread 0), .step (.thread 0), .call (.thread 0) (.scheduleForQueue () 2 5),
    .step (.thread 0), .step (.thread 0), .step (.thread 0),
    .call (.thread 0) (.scheduleForQueue () 1 1), .step (.thread 0), .step (.thread 0),
    .step (.thread 0), .tick]

theorem promotion_exact_two : ∃ s : State Unit Nat Nat, ∃ n m' timeout,
    exec (workQueueSystem Unit Nat Nat) .initial twoDueRun = some s ∧
    (s.mem.queue ()).delayed = [0, 2, 1] ∧ (s.mem.queue ()).fifo.list = [.work 0] ∧
    exec (workQueueSystem Unit Nat Nat) s (.replicate n (.worker ())) =
      some (s.setWorker () m' (.take timeout s.mem.tick)) ∧
    (m'.queue ()).delayed = [2] ∧ (m'.queue ()).fifo.list = [.work 0, .work 1] ∧
    timeout.toNat = 4 := by
  obtain ⟨s, hs, hdelayed, hlist, htick, h, hdue, hqueued, hcount⟩ := exists_of_exec twoDueRun
    (M := workQueueSystem Unit Nat Nat) (s := .initial)
    (P := fun s => (s.mem.queue ()).delayed = [0, 2, 1] ∧
      (s.mem.queue ()).fifo.list = [.work 0] ∧ s.mem.tick = 1 ∧ Promotable s.mem () ∧
      (∀ d ∈ (s.mem.queue ()).delayed, DueAt s.mem d (if d = 2 then 5 else 1)) ∧
      ((s.mem.work 0).flags.queued = true ∧ (s.mem.work 1).flags.queued = false) ∧
      (s.mem.queue ()).fifo.count = 1)
    (by decide +kernel)
  have hcall : s.worker () = .promote := by cases hs; rfl
  obtain ⟨n, m', timeout, hrun, -, hkept, hfifo, -, hleast⟩ := promotion_exact hcall h hdue
    (by rw [hdelayed, hcount, htick]; simp [hqueued])
  rw [hdelayed, htick] at hkept hfifo
  have hkept : (m'.queue ()).delayed = [2] := hkept
  refine ⟨s, n, m', timeout, hs, hdelayed, hlist, hrun, hkept, ?_, ?_⟩
  · rw [hfifo, OsFifo.submitted, hlist]
    simp [hqueued]
  · obtain ⟨-, ⟨d, hd, htimeout⟩, -⟩ := hleast (by simp [hkept])
    rw [hkept] at hd
    obtain rfl := List.mem_singleton.mp hd
    rw [htick] at htimeout
    exact Int.ofNat_inj.mp htimeout.symm

end HazelOsal
