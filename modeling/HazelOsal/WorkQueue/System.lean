import HazelOsal.WorkQueue.Calls
import HazelOsal.Library.Transition

/-! # Workers and the whole system

`WorkerPc` is the point a queue's worker has reached in `os_work_queue_entry` and in the
functions it calls; after the stop marker it goes on in `os_task_entry`. A system has any number
of queues, items and contexts, and interleaves their steps in any order with the ticks of the
clock. -/

namespace HazelOsal

open TransitionSystem

variable {Q W T : Type} [DecidableEq Q] [DecidableEq W] [DecidableEq T]

/-- `sampled` is the true tick of the last `os_tick_get` of `os_work_promote_delayed`, of which
the code keeps the low 32 bits; `j` is the schedule that is being promoted. -/
inductive WorkerPc (Q W : Type) where
  -- os_work_promote_delayed
  | promote
  | promoteLock (sampled : Nat)
  | promoteSubmit (due : W) (j : Nat) (p : SubmitPc Q W)
  | promoteNotify (due : W)
  -- os_sem_take on the items semaphore
  | take (timeout : UInt32) (sampled : Nat)
  | blocked (expiry : Option Nat)
  -- the rest of the loop
  | pop
  | run (w : W)
  | complete (w : W)
  | notify (w : W)
  | yield
  -- os_task_entry after the return
  | exitComplete
  | exitGive
  | exitSignal
  | terminated

/-- No call is in progress. -/
def Pc.free : Pc Q W → Bool
  | .idle | .done _ => true
  | _ => false

def WorkerPc.handling : WorkerPc Q W → Bool
  | .run _ => true
  | _ => false

/-- The schedule being promoted is settled by the step that decides the submission. -/
def settleSubmit (m : Mem Q W) (d : W) (j : Nat) (p : SubmitPc Q W) : SubmitPc Q W ⊕ Int → Mem Q W
  | .inl (.give _ _ result) => m.settle d j (.ofSubmit result)
  | .inl _ => m
  | .inr result =>
    match p with
    | .give .. => m
    | _ => m.settle d j (.ofSubmit result)

/-- The next step of the worker of `q` outside the handler; `none` while it waits. -/
def workerStep (m : Mem Q W) (q : Q) : WorkerPc Q W → Option (Mem Q W × WorkerPc Q W)
  | .promote => some (m, .promoteLock m.tick)
  | .promoteLock sampled =>
    let (m', next) := osWorkPromoteDelayedCritical m q (UInt32.ofNat sampled)
    some (m', match next with
      | .ret timeout => .take timeout sampled
      | .submit due => .promoteSubmit due (m.hist.scheduled due) (.enter (some q) due)
      | .notify due => .promoteNotify due)
  | .promoteSubmit due j p =>
    let (m, next) := p.step (some q) m
    some (settleSubmit m due j p next, match next with
      | .inl p' => .promoteSubmit due j p'
      | .inr _ => .promote)
  | .promoteNotify due => some (m.osWorkNotify due, .promote)
  | .take timeout _ =>
    if !(m.queue q).fifo.items.handle then some (m, .promote)
    else
      match m.takeItems? q with
      | some m => some (m, .pop)
      | none =>
        if timeout = 0 then some (m, .promote)
        else some (m, .blocked (waitExpiry m.tick timeout))
  | .blocked _ => (m.takeItems? q).map fun m => (m, .pop)
  | .pop =>
    let (m, popped) := osWorkQueueEntryPop m q
    some (m, match popped with
      | .empty => .promote
      | .stop => .exitComplete
      | .run w => .run w)
  | .run w => some (m, .complete w)
  | .complete w => some (osWorkQueueEntryComplete m q w, .notify w)
  | .notify w =>
    some (m.osWorkNotify w, if (m.queue q).noYield then .promote else .yield)
  | .yield => some (m, .promote)
  | .exitComplete => some (m.setThread q (m.queue q).thread.entryComplete, .exitGive)
  | .exitGive => some (m.setThread q (m.queue q).thread.entryGive, .exitSignal)
  | .exitSignal => some (m.setThread q (m.queue q).thread.entrySignal, .terminated)
  | .terminated => none

/-- The worker's timed wait expires. -/
def workerExpire (m : Mem Q W) : WorkerPc Q W → Option (WorkerPc Q W)
  | .blocked (some expiry) => if expiry ≤ m.tick then some .promote else none
  | _ => none

/-- The state of the whole system. -/
structure State (Q W T : Type) where
  mem : Mem Q W
  call : Ctx Q T → Pc Q W
  worker : Q → WorkerPc Q W

namespace State

variable (s : State Q W T)

def setCall (c : Ctx Q T) (m : Mem Q W) (p : Pc Q W) : State Q W T :=
  { s with mem := m, call := Function.update s.call c p }

def setWorker (q : Q) (m : Mem Q W) (p : WorkerPc Q W) : State Q W T :=
  { s with mem := m, worker := Function.update s.worker q p }

/-- Context `c` may call the API: no call of it is in progress, and it is a handler only while
its worker is running one. -/
def mayCall : Ctx Q T → Bool
  | .handler q => (s.call (.handler q)).free && (s.worker q).handling
  | c => (s.call c).free

end State

/-- What may happen next. -/
inductive Act (Q W T : Type) where
  | call (c : Ctx Q T) (op : Op Q W)
  | step (c : Ctx Q T)
  | expire (c : Ctx Q T)
  | worker (q : Q)
  | workerExpire (q : Q)
  | tick

/-- A handler returns only when no call it made is in progress. -/
def step (s : State Q W T) : Act Q W T → Option (State Q W T)
  | .call c op => if s.mayCall c then some (s.setCall c s.mem op.entry) else none
  | .step c => (callStep c s.mem (s.call c)).map fun (m, p) => s.setCall c m p
  | .expire c => (callExpire s.mem (s.call c)).map fun p => s.setCall c s.mem p
  | .worker q =>
    if (s.worker q).handling && !(s.call (.handler q)).free then none
    else (workerStep s.mem q (s.worker q)).map fun (m, p) => s.setWorker q m p
  | .workerExpire q => (workerExpire s.mem (s.worker q)).map fun p => s.setWorker q s.mem p
  | .tick => some { s with mem := { s.mem with tick := s.mem.tick + 1 } }

/-- Every queue has just been started and every item initialized. -/
structure Init (s : State Q W T) : Prop where
  queue : ∀ q, ∃ noYield, s.mem.queue q = osWorkQueueStarted noYield
  work : ∀ w, ∃ handler, s.mem.work w = osWorkInit handler
  dwork : ∀ w, s.mem.dwork w = osWorkInitDelayable
  hist : s.mem.hist = .empty
  call : ∀ c, s.call c = .idle
  worker : ∀ q, s.worker q = .promote

/-- The initial state in which every item has a handler and every worker yields. -/
def State.initial : State Q W T where
  mem :=
    { queue := fun _ => osWorkQueueStarted false
      work := fun _ => osWorkInit true
      dwork := fun _ => osWorkInitDelayable
      tick := 0
      hist := .empty }
  call := fun _ => .idle
  worker := fun _ => .promote

omit [DecidableEq Q] [DecidableEq W] [DecidableEq T] in
theorem State.init_initial : Init (.initial : State Q W T) :=
  ⟨fun _ => ⟨false, rfl⟩, fun _ => ⟨true, rfl⟩, fun _ => rfl, rfl, fun _ => rfl, fun _ => rfl⟩

/-- The work queues `Q`, items `W` and contexts over `T` as a transition system. -/
def workQueueSystem (Q W T : Type) [DecidableEq Q] [DecidableEq W] [DecidableEq T] :
    System (State Q W T) (Act Q W T) where
  init := Init
  step := step

end HazelOsal
