import HazelOsal.Fifo.System
import HazelOsal.Library.Located
import HazelOsal.Library.Parties
import HazelOsal.Library.SerialTicks

/-! # Every FIFO is exact

A node is on one FIFO at most, and its flag says whether it is. The semaphore of a FIFO counts the
nodes on its list that no call in flight has put without giving yet, or is about to remove. So the
list is not empty when a get removes a node, and the semaphore is not full when a put gives. -/

namespace HazelOsal.Fifo

open TransitionSystem

variable {F E T N : Type} [DecidableEq F] [DecidableEq E] [DecidableEq T] [DecidableEq N]

/-- What the FIFOs owe their users in a state. -/
structure Exact (s : State F E T N) : Prop where
  on_one : ∀ node f g, node ∈ (s.mem.fifo f).list → node ∈ (s.mem.fifo g).list → f = g
  nodup : ∀ f, (s.mem.fifo f).list.Nodup
  queued : ∀ node, s.mem.queued node = true ↔ ∃ f, node ∈ (s.mem.fifo f).list
  count_eq : ∀ f, (s.mem.fifo f).count.toNat = (s.mem.fifo f).list.length
  count_le : ∀ f, (s.mem.fifo f).count ≤ UINT16_MAX
  /-- The items, the gives still to come and the takers that have not removed a node yet. -/
  items : ∀ f, Conserved (s.mem.fifo f).items.count (s.phase Pc.inFlight) f
    (s.mem.fifo f).count.toNat
  /-- The critical sections, in the order in which they have run, are a run of a bounded FIFO. -/
  legal : ∀ f, exec (boundedFifo 65535) [] (s.mem.log f) = some (s.mem.fifo f).list
  /-- The nodes are got in the order in which they have been put. -/
  fifo : ∀ f, (s.mem.log f).filterMap FifoEvent.get? <+: (s.mem.log f).filterMap FifoEvent.put?
  put_queued : ∀ c f node, s.call c = .putCritical f node → s.mem.queued node = true →
    program.act s (.step c) = some (s.set c s.mem (.done (-EBUSY)))
  put_full : ∀ c f node, s.call c = .putCritical f node → s.mem.queued node = false →
    (s.mem.fifo f).list.length = 65535 →
    program.act s (.step c) = some (s.set c s.mem (.done (-ENOSPC)))
  put : ∀ c f node, s.call c = .putCritical f node → s.mem.queued node = false →
    (s.mem.fifo f).list.length < 65535 →
    ∃ m', program.act s (.step c) = some (s.set c m' (.putGive f)) ∧
      m'.log = Function.update s.mem.log f (s.mem.log f ++ [.put node])
  /-- A give leaves the semaphore with one more token: it is not full before. -/
  give : ∀ c f, s.call c = .putGive f →
    ∃ m', program.act s (.step c) = some (s.set c m' (.done 0)) ∧
      (m'.fifo f).items.count = (s.mem.fifo f).items.count + 1
  /-- A get that has taken a token gets a node. -/
  get : ∀ c f, s.call c = .getCritical f → ∃ node list m', (s.mem.fifo f).list = node :: list ∧
    program.act s (.step c) = some (s.set c m' (.got node)) ∧
    m'.log = Function.update s.mem.log f (s.mem.log f ++ [.get node])

/-- The lists, the flags and the counts agree; `place` says on which FIFO a node is. -/
structure Holds (m : Mem F E) (place : E → Option F) : Prop where
  located : Located (fun f => (m.fifo f).list) place
  queued : ∀ node, m.queued node = (place node).isSome
  count : ∀ f, (m.fifo f).count.toNat = (m.fifo f).list.length
  legal : ∀ f, exec (boundedFifo 65535) [] (m.log f) = some (m.fifo f).list
  count_le : ∀ f, (m.fifo f).list.length ≤ 65535
  handle : ∀ f, (m.fifo f).items.handle = true

section
variable {m m' : Mem F E} {place : E → Option F} {f g : F} {node : E} {c : Caller T N}

/-! ## The critical sections -/

omit [DecidableEq E] in
theorem Mem.setFifo_fifo (fifo : OsFifo E) :
    (m.setFifo f fifo).fifo g = if g = f then fifo else m.fifo g := Function.update_apply ..

omit [DecidableEq E] in
theorem Mem.setFifo_list (fifo : OsFifo E) :
    (fun g => ((m.setFifo f fifo).fifo g).list) =
      Function.update (fun g => (m.fifo g).list) f fifo.list := by
  funext g
  rw [setFifo_fifo, Function.update_apply]
  split <;> rfl

theorem Holds.setItems (h : Holds m place) {items : OsSem 65535} (hi : items.handle = true) :
    Holds (m.setItems f items) place := by
  have hsame (g) : ((m.setItems f items).fifo g).list = (m.fifo g).list ∧
      ((m.setItems f items).fifo g).count = (m.fifo g).count := by
    rw [Mem.setItems, Mem.setFifo_fifo]
    split
    case isTrue hg => exact hg ▸ ⟨rfl, rfl⟩
    case isFalse => exact ⟨rfl, rfl⟩
  refine ⟨?_, h.queued, fun g => ?_, fun g => ?_, fun g => ?_, fun g => ?_⟩
  · exact h.located.perm fun g => (hsame g).1 ▸ .refl _
  · rw [(hsame g).1, (hsame g).2]; exact h.count g
  · rw [(hsame g).1]; exact h.legal g
  · rw [(hsame g).1]; exact h.count_le g
  · rw [Mem.setItems, Mem.setFifo_fifo]
    split
    case isTrue => exact hi
    case isFalse => exact h.handle g

theorem Holds.put_queued (hq : m.queued node = true) :
    osFifoPutCritical m f node = .error (-EBUSY) := if_pos hq

theorem Holds.put_full (h : Holds m place) (hq : m.queued node = false)
    (hf : (m.fifo f).list.length = 65535) : osFifoPutCritical m f node = .error (-ENOSPC) := by
  have hge : (m.fifo f).count ≥ UINT16_MAX := by
    rw [ge_iff_le, UInt32.le_iff_toNat_le, h.count, hf]
    decide
  rw [osFifoPutCritical, if_neg (by simp [hq]), if_pos hge]

/-- One FIFO goes through an event. -/
theorem Holds.event (h : Holds m place) {fifo : OsFifo E} {queued : E → Bool}
    {place' : E → Option F} {e : FifoEvent E}
    (hl : Located (Function.update (fun g => (m.fifo g).list) f fifo.list) place')
    (hq : ∀ node, queued node = (place' node).isSome)
    (hcount : fifo.count.toNat = fifo.list.length)
    (he : fifoStep 65535 (m.fifo f).list e = some fifo.list) (hle : fifo.list.length ≤ 65535)
    (hi : fifo.items = (m.fifo f).items) :
    Holds (({ m with queued }.setFifo f fifo).record f e) place' := by
  refine ⟨?_, hq, fun g => ?_, fun g => ?_, fun g => ?_, fun g => ?_⟩
  · rw [← Mem.setFifo_list] at hl
    exact hl
  all_goals
    simp only [Mem.record, Mem.setFifo, Function.update_apply]
    split
  · exact hcount
  · exact h.count g
  · exact exec_fifo_snoc (h.legal f) he
  · exact h.legal g
  · exact hle
  · exact h.count_le g
  · exact hi ▸ h.handle f
  · exact h.handle g

/-- **`os_fifo_put` adds a node that is on no FIFO at the end of a list with room for it.** -/
theorem Holds.put (h : Holds m place) (hq : m.queued node = false)
    (hlt : (m.fifo f).list.length < 65535) :
    ∃ m', osFifoPutCritical m f node = .ok m' ∧ Holds m' (Function.update place node (some f)) ∧
      m'.fifo = Function.update m.fifo f
        { m.fifo f with list := (m.fifo f).list ++ [node], count := (m.fifo f).count + 1 } ∧
      (m.fifo f).count.toNat + 1 = ((m.fifo f).count + 1).toNat ∧
      m'.log = Function.update m.log f (m.log f ++ [.put node]) := by
  have hcount := h.count f
  have hnext := SerialTicks.toNat_succ (a := (m.fifo f).count) (by omega)
  have hroom : ¬ (m.fifo f).count ≥ UINT16_MAX := by
    rw [ge_iff_le, UInt32.le_iff_toNat_le, hcount]
    exact Nat.not_le.mpr hlt
  have hplace : place node = none := by
    rw [h.queued] at hq
    exact Option.not_isSome_iff_eq_none.mp (Bool.eq_false_iff.mp hq)
  rw [osFifoPutCritical, if_neg (by simp [hq]), if_neg hroom]
  refine ⟨_, rfl, h.event ?_ (fun d => ?_) ?_ (fifoStep_put hlt) ?_ rfl, rfl, hnext.symm, rfl⟩
  · exact h.located.insert hplace (List.perm_append_singleton ..)
  · rw [Function.update_apply, Function.update_apply]
    split
    case isTrue => rfl
    case isFalse => exact h.queued d
  · rw [hnext, hcount, List.length_append]
    rfl
  · rw [List.length_append]
    exact hlt

theorem Holds.of_put (h : Holds m place) (hput : osFifoPutCritical m f node = .ok m') :
    m.queued node = false ∧ (m.fifo f).list.length < 65535 := by
  have hq : m.queued node = false := by
    by_contra hq
    rw [put_queued (Bool.not_eq_false _ ▸ hq)] at hput
    cases hput
  refine ⟨hq, Nat.lt_of_le_of_ne (h.count_le f) fun hf => ?_⟩
  rw [h.put_full hq hf] at hput
  cases hput

/-- **`os_fifo_get` removes the node at the head.** -/
theorem Holds.get (h : Holds m place) {list : List E} (hl : (m.fifo f).list = node :: list) :
    ∃ m', osFifoGetCritical m f = .ok (m', node) ∧ Holds m' (Function.update place node none) ∧
      m'.fifo = Function.update m.fifo f
        { m.fifo f with list, count := (m.fifo f).count - 1 } ∧
      (m.fifo f).count.toNat - 1 = ((m.fifo f).count - 1).toNat ∧
      m'.log = Function.update m.log f (m.log f ++ [.get node]) := by
  have hcount := h.count f
  have hle := h.count_le f
  rw [hl, List.length_cons] at hcount hle
  have hprev := SerialTicks.toNat_pred (a := (m.fifo f).count) (by omega)
  have hget : osFifoGetCritical m f = .ok
      ((({ m with queued := Function.update m.queued node false }.setFifo f
        { m.fifo f with list, count := (m.fifo f).count - 1 }).record f (.get node)), node) := by
    simp only [osFifoGetCritical, hl]
    rfl
  refine ⟨_, hget, h.event ?_ (fun d => ?_) ?_ ?_ ?_ rfl, rfl, hprev.symm, rfl⟩
  · exact h.located.pop hl
  · rw [Function.update_apply, Function.update_apply]
    split
    case isTrue => rfl
    case isFalse => exact h.queued d
  · rw [hprev, hcount]
    rfl
  · rw [hl]
    exact fifoStep_get
  · exact Nat.le_of_succ_le hle

end

/-! ## The invariant -/

/-- The invariant of the FIFOs. -/
structure FifoInv (s : State F E T N) : Prop where
  holds : ∃ place, Holds s.mem place
  initialized : ∀ f, (s.mem.fifo f).initialized = true
  items : ∀ f, Conserved (s.mem.fifo f).items.count (s.phase Pc.inFlight) f
    (s.mem.fifo f).count.toNat

section
variable {s s' : State F E T N} {c : Caller T N} {m' : Mem F E} {p' : Pc F E} {f : F}
  {a : Act F E T N}

omit [DecidableEq F] [DecidableEq T] [DecidableEq N] in
theorem initial_inv (hm : s.mem = .initial) (hcall : ∀ c, s.call c = .idle) : FifoInv s where
  holds := by
    rw [hm]
    exact ⟨fun _ => none, {
      located := ⟨fun _ => List.nodup_nil, fun _ _ => by simp [Mem.initial, osFifoInit]⟩
      queued := fun _ => rfl
      count := fun _ => rfl
      legal := fun _ => rfl
      count_le := fun _ => Nat.zero_le _
      handle := fun _ => rfl }⟩
  initialized _ := by rw [hm]; rfl
  items _ := by
    rw [hm]
    exact .of_none fun c => by simp [Callers.phase, hcall, Pc.inFlight]

/-- A caller that touches one FIFO leaves the accounts of the others alone. -/
theorem FifoInv.items_setCall (h : FifoInv s) {fifo : OsFifo E}
    (hm : m'.fifo = Function.update s.mem.fifo f fifo)
    (hp : ∀ g, s.phase Pc.inFlight c = some g → g = f) (hp' : ∀ g, p'.inFlight = some g → g = f)
    (hf : Conserved fifo.items.count (Function.update (s.phase Pc.inFlight) c p'.inFlight) f
      fifo.count.toNat) (g : F) :
    Conserved ((s.set c m' p').mem.fifo g).items.count ((s.set c m' p').phase Pc.inFlight) g
      ((s.set c m' p').mem.fifo g).count.toNat := by
  rw [Callers.set_phase, Callers.set_mem, hm, Function.update_apply]
  split
  case isTrue hg => exact hg ▸ hf
  case isFalse hg => exact (h.items g).other (fun hs => hg (hp g hs)) fun hs => hg (hp' g hs)

omit [DecidableEq F] in
/-- A caller that is in flight for no FIFO, before and after. -/
theorem FifoInv.items_other (h : FifoInv s) (hp : s.phase Pc.inFlight c = none)
    (hp' : p'.inFlight = none) (g : F) : Conserved ((s.set c s.mem p').mem.fifo g).items.count
      ((s.set c s.mem p').phase Pc.inFlight) g ((s.set c s.mem p').mem.fifo g).count.toNat := by
  rw [Callers.set_phase]
  exact (h.items g).other (by simp [hp]) (by simp [hp'])

theorem FifoInv.initialized_setCall (h : FifoInv s) {fifo : OsFifo E}
    (hm : m'.fifo = Function.update s.mem.fifo f fifo)
    (hf : fifo.initialized = (s.mem.fifo f).initialized) (g : F) :
    ((s.set c m' p').mem.fifo g).initialized = true := by
  rw [Callers.set_mem, hm, Function.update_apply]
  split
  case isTrue => rw [hf, h.initialized f]
  case isFalse => exact h.initialized g

omit [DecidableEq F] in
/-- The semaphore is not full when a put gives. -/
theorem FifoInv.give_count (h : FifoInv s) (hc : s.phase Pc.inFlight c = some f) :
    (s.mem.fifo f).items.give.count = (s.mem.fifo f).items.count + 1 := by
  obtain ⟨place, hh⟩ := h.holds
  have hlt := (h.items f).lt hc
  have hle := hh.count_le f
  rw [← hh.count] at hle
  rw [OsSem.give_count_of_handle (hh.handle f)]
  omega

omit [DecidableEq F] in
/-- The list is not empty when a get removes a node. -/
theorem FifoInv.exists_node (h : FifoInv s) (hc : s.phase Pc.inFlight c = some f) :
    ∃ node list, (s.mem.fifo f).list = node :: list := by
  obtain ⟨place, hh⟩ := h.holds
  have hlt := (h.items f).lt hc
  rw [hh.count] at hlt
  exact List.exists_cons_of_length_pos (Nat.zero_lt_of_lt hlt)

/-- **A step of a call keeps the accounts.** -/
theorem FifoInv.callStep (h : FifoInv s)
    (hs : callStep c s.mem (s.call c) = some (m', p')) : FifoInv (s.set c m' p') := by
  have he := callStep_effect hs
  obtain ⟨place, hh⟩ := h.holds
  generalize hp : s.call c = p at he
  have hflight : s.phase Pc.inFlight c = p.inFlight := congrArg Pc.inFlight hp
  cases he with
  | quiet hnone hnone' =>
    exact ⟨⟨place, hh⟩, h.initialized, h.items_other (hflight.trans hnone) hnone'⟩
  | @take _ f items hnone ht =>
    obtain ⟨hhandle, htaken⟩ := OsSem.tryTake_eq_some ht
    have hitems := h.items f
    rw [htaken] at hitems
    refine ⟨⟨place, hh.setItems (hhandle.trans (hh.handle f))⟩, h.initialized_setCall rfl rfl,
      h.items_setCall rfl (fun g hg => ?_) (fun g hg => (Option.some.inj hg).symm) ?_⟩
    · rw [hflight, hnone] at hg
      cases hg
    · exact hitems.take (by simp [hflight, hnone])
  | @put f node m' hput =>
    obtain ⟨hq, hlt⟩ := hh.of_put hput
    obtain ⟨m₁, hput₁, hnext, hm, hcount, -⟩ := hh.put hq hlt
    cases hput.symm.trans hput₁
    refine ⟨⟨_, hnext⟩, h.initialized_setCall hm rfl,
      h.items_setCall hm (fun g hg => ?_) (fun g hg => (Option.some.inj hg).symm) ?_⟩
    · rw [hflight] at hg
      cases hg
    · have hmake := (h.items f).make (c := c) (by simp [hflight, Pc.inFlight])
      rw [hcount] at hmake
      exact hmake
  | @give f =>
    have hlt := (h.items f).lt hflight
    have hgive := (h.items f).give (b := none) hflight (by simp)
    rw [← h.give_count hflight] at hgive
    refine ⟨⟨place, hh.setItems ((OsSem.give_handle _).trans (hh.handle f))⟩,
      h.initialized_setCall rfl rfl,
      h.items_setCall rfl (fun g hg => ?_) (fun g hg => by cases hg) hgive⟩
    rw [hflight] at hg
    exact (Option.some.inj hg).symm
  | @get f m' node hget =>
    obtain ⟨node₁, list, hl⟩ := h.exists_node hflight
    obtain ⟨m₁, hget₁, hnext, hm, hcount, -⟩ := hh.get hl
    cases hget.symm.trans hget₁
    have huse := (h.items f).use (b := none) hflight (by simp)
    rw [hcount] at huse
    refine ⟨⟨_, hnext⟩, h.initialized_setCall hm rfl,
      h.items_setCall hm (fun g hg => ?_) (fun g hg => by cases hg) huse⟩
    rw [hflight] at hg
    exact (Option.some.inj hg).symm
  | again hget =>
    obtain ⟨node, list, hl⟩ := h.exists_node hflight
    obtain ⟨m₁, hget₁, -⟩ := hh.get hl
    cases hget.symm.trans hget₁

theorem FifoInv.move (h : FifoInv s) (hs : program.Move s a s') : FifoInv s' := by
  cases hs with
  | @call c op hfree =>
    have hp : (s.call c).inFlight = none := by
      generalize s.call c = p at hfree
      cases p <;> first | rfl | cases hfree
    exact ⟨h.holds, h.initialized, h.items_other hp (by cases op <;> rfl)⟩
  | step hstep => exact h.callStep hstep
  | expire hexpire =>
    obtain ⟨hp, rfl⟩ := callExpire_eq hexpire
    exact ⟨h.holds, h.initialized, h.items_other hp rfl⟩
  | event hevent => cases hevent

theorem inv_of_reachable (h : Reachable (system (F := F) (E := E) (T := T) (N := N)) s) :
    FifoInv s := by
  refine Program.invariant (fun s hm hcall => ?_) (fun _ _ _ hi _ hs => hi.move hs) h
  exact initial_inv hm hcall

/-! ## What the callers see -/

theorem FifoInv.exact (h : FifoInv s) : Exact s := by
  obtain ⟨place, hh⟩ := h.holds
  refine ⟨fun _ _ _ => hh.located.unique, hh.located.nodup, fun node => ?_, hh.count, fun f => ?_,
    h.items, hh.legal, fun f => gets_prefix_puts (hh.legal f), fun c f node hc hq => ?_,
    fun c f node hc hq hf => ?_, fun c f node hc hq hlt => ?_, fun c f hc => ?_, fun c f hc => ?_⟩
  case refine_1 =>
    rw [hh.queued, Option.isSome_iff_exists]
    exact exists_congr fun f => (hh.located.mem node f).symm
  case refine_2 =>
    rw [UInt32.le_iff_toNat_le, hh.count]
    exact hh.count_le f
  case refine_3 =>
    refine Program.act_step hc ?_
    simp only [program, Fifo.callStep, Holds.put_queued hq]
  case refine_4 =>
    refine Program.act_step hc ?_
    simp only [program, Fifo.callStep, hh.put_full hq hf]
  case refine_5 =>
    obtain ⟨m₁, hput, -, -, -, hlog⟩ := hh.put hq hlt
    refine ⟨m₁, Program.act_step hc ?_, hlog⟩
    simp only [program, Fifo.callStep, hput]
  case refine_6 =>
    refine ⟨_, Program.act_step hc rfl, ?_⟩
    rw [Mem.setItems, Mem.setFifo_fifo, if_pos rfl]
    exact h.give_count (congrArg Pc.inFlight hc)
  case refine_7 =>
    obtain ⟨node, list, hl⟩ := h.exists_node (congrArg Pc.inFlight hc)
    obtain ⟨m₁, hget, -, -, -, hlog⟩ := hh.get hl
    refine ⟨node, list, m₁, hl, Program.act_step hc ?_, hlog⟩
    simp only [program, Fifo.callStep, hget]

/-- **Every FIFO is exact**, whatever FIFOs the nodes are offered to and by whom. -/
theorem fifo_exact (h : Reachable (system (F := F) (E := E) (T := T) (N := N)) s) : Exact s :=
  (inv_of_reachable h).exact

end

/-! ## A concrete run -/

/-- One caller puts two nodes in a FIFO and a third one in another, which a second caller offers to
the first FIFO as well; then it gets the head of that one. -/
def twoFifosRun {T : Type} (t u : T) : List (Act Bool Nat T Unit) :=
  callSteps (Caller.thread t) (Op.put false 7) 3 ++
    callSteps (Caller.thread t) (Op.put false 8) 3 ++
    callSteps (Caller.thread t) (Op.put true 9) 3 ++
    callSteps (Caller.thread u) (Op.put false 9) 2 ++
    callSteps (Caller.thread u) (Op.get false 0) 3

theorem fifo_exact_twoFifos : ∃ s : State Bool Nat (Fin 2) Unit,
    exec system ⟨.initial, fun _ => .idle⟩ (twoFifosRun 0 1) = some s ∧
    s.call (.thread 1) = .got 7 ∧ (s.mem.fifo false).list = [8] ∧ Exact s := by
  obtain ⟨s, hs, hc, hl⟩ := exists_of_exec (twoFifosRun (0 : Fin 2) 1)
    (M := system) (s := ⟨.initial, fun _ => .idle⟩)
    (P := fun s => s.call (.thread 1) = .got 7 ∧ (s.mem.fifo false).list = [8]) (by decide +kernel)
  exact ⟨s, hs, hc, hl, fifo_exact (reachable_of_exec (twoFifosRun 0 1) ⟨rfl, fun _ => rfl⟩ hs)⟩

end HazelOsal.Fifo
