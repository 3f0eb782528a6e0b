import HazelOsal.Dlist.Clients
import HazelOsal.Fifo.Exact

/-! # The nodes of the FIFOs

`fifo.c` keeps the nodes of a FIFO in a `sys_dlist_t`. The calls that the critical sections of
`os_fifo_put` and `os_fifo_get` make on it run on a heap of nodes: they follow no null pointer,
whoever puts and gets in whatever order. `os_fifo_deinit` is not among the calls: it clears the
list, and an append that comes after it follows a null pointer (`sysDlistAppend_cleared`). -/

namespace HazelOsal.Fifo

open TransitionSystem Dlist

variable {F E T N : Type} [DecidableEq F] [DecidableEq E] [DecidableEq T] [DecidableEq N]

/-- `&fifo->list` and `&node->node`. -/
inductive Addr (F E : Type) where
  | list (fifo : F)
  | node (node : E)
  deriving DecidableEq

/-- The lists of the FIFOs, by their heads. -/
def Mem.lists (m : Mem F E) : Addr F E → Option (List (Addr F E))
  | .list f => some ((m.fifo f).list.map .node)
  | .node _ => none

/-- The calls of a step on lists, with the values that the code goes on with. -/
def dlistCalls (m : Mem F E) : Pc F E → List (Dlist.Call (Addr F E) × Dlist.Value (Addr F E))
  | .putCritical f node =>
    match osFifoPutCritical m f node with
    | .ok _ => [(.append (.list f) (.node node), .void)]
    | .error _ => []
  | .getCritical f =>
    match osFifoGetCritical m f with
    | .ok (_, node) => [(.get (.list f), .node (some (.node node)))]
    | .error _ => [(.get (.list f), .node none)]
  | _ => []

def actCalls (s : State F E T N) :
    Act F E T N → List (Dlist.Call (Addr F E) × Dlist.Value (Addr F E))
  | .step c => dlistCalls s.mem (s.call c)
  | _ => []

section
variable {m m' : Mem F E} {f : F} {node : E} {list : List E} {c : Caller T N}
  {s t : State F E T N} {p' : Pc F E}

theorem lists_update {fifo : OsFifo E} (hm : m'.fifo = Function.update m.fifo f fifo) :
    m'.lists = Function.update m.lists (.list f) (some (fifo.list.map .node)) := by
  funext a
  cases a with
  | list g =>
    simp only [Mem.lists, hm, Function.update_apply, Addr.list.injEq]
    split <;> rfl
  | node => rfl

theorem lists_same {items : OsSem 65535} : (m.setItems f items).lists = m.lists := by
  rw [lists_update (f := f) rfl]
  exact Function.update_eq_self (.list f) m.lists

/-- A node that is not queued is on no list. -/
theorem FifoInv.onNone (h : FifoInv s) (hq : s.mem.queued node = false) :
    Family.OnNone s.mem.lists (.node node) := by
  refine ⟨rfl, fun {r l} hr hmem => ?_⟩
  cases r with
  | node => cases hr
  | list f =>
    cases hr
    obtain ⟨e, he, ⟨⟩⟩ := List.mem_map.mp hmem
    have hqueued := (h.exact.queued node).mpr ⟨f, he⟩
    rw [hq] at hqueued
    cases hqueued

/-- **A step keeps the contract of its calls on lists.** -/
theorem FifoInv.relists (h : FifoInv s) (hs : Fifo.callStep c s.mem (s.call c) = some (m', p')) :
    Relists s.mem.lists (dlistCalls s.mem (s.call c)) m'.lists := by
  obtain ⟨place, hh⟩ := h.holds
  generalize hp : s.call c = p at hs ⊢
  cases p with
  | idle | done | got => cases hs
  | putEnter | getEnter =>
    cases hs
    exact .nil
  | putCritical f node =>
    simp only [Fifo.callStep] at hs
    cases hput : osFifoPutCritical s.mem f node with
    | error result =>
      rw [hput] at hs
      cases hs
      simp only [dlistCalls, hput]
      exact .nil
    | ok m₁ =>
      rw [hput] at hs
      cases hs
      obtain ⟨hq, hlt⟩ := hh.of_put hput
      obtain ⟨m₂, hput₂, -, hm, -⟩ := hh.put hq hlt
      cases hput.symm.trans hput₂
      simp only [dlistCalls, hput, lists_update hm, List.map_append, List.map_singleton]
      exact .append_node rfl (h.onNone hq)
  | putGive f =>
    cases hs
    exact .of_eq lists_same.symm
  | getTake f timeout =>
    simp only [Fifo.callStep] at hs
    split at hs
    case h_1 => cases hs; exact .nil
    case h_2 => cases hs; exact .of_eq lists_same.symm
    case h_3 => cases hs; exact .nil
  | getWaiting f timeout =>
    obtain ⟨items, -, hs⟩ := Option.map_eq_some_iff.mp hs
    cases hs
    exact .of_eq lists_same.symm
  | getCritical f =>
    obtain ⟨node, list, hl⟩ := h.exists_node (congrArg Pc.inFlight hp)
    obtain ⟨m₁, hget, -, hm, -⟩ := hh.get hl
    simp only [Fifo.callStep, hget, Option.some.injEq, Prod.mk.injEq] at hs
    obtain ⟨rfl, -⟩ := hs
    simp only [dlistCalls, hget, lists_update hm]
    have hlist : s.mem.lists (.list f) = some (.node node :: list.map .node) := by
      rw [Mem.lists, hl]
      rfl
    exact .get_node hlist rfl

/-- **The puts and gets never follow a null pointer.** Whatever the callers do and in whatever
order, the calls on lists that the critical sections have made run on the heap of nodes and return
what the code goes on with; the heap then holds the list of each FIFO, in order, and a node is
linked exactly while it is queued. -/
theorem fifo_nodes_safe {h : Links (Addr F E)} {r : State F E T N × List _}
    (hinit : h.Holds (Mem.initial (F := F) (E := E)).lists)
    (hr : Reachable (system.recording actCalls) r) :
    ∃ h', Executes h r.2 h' ∧ h'.Holds r.1.mem.lists ∧
      ∀ node, sysDnodeIsLinked h' (.node node) = r.1.mem.queued node := by
  have hsteps (s : State F E T N) (a : Act F E T N) (t : State F E T N)
      (hs : ReachableVia system anyStep s) (ht : system.step s a = some t) :
      Relists s.mem.lists (actCalls s a) t.mem.lists := by
    have hinv := inv_of_reachable hs
    cases Program.act_move ht with
    | call | expire => exact .nil
    | step hstep => exact hinv.relists hstep
    | event hevent => cases hevent
  obtain ⟨h', hexec, hholds⟩ := executes_of_relists (fun s a t hs _ => hsteps s a t hs)
    (fun s hs => hs.1 ▸ hinit) hr
  refine ⟨h', hexec, hholds, fun node => ?_⟩
  have hinv := inv_of_reachable (hr.recorded anyStep)
  rw [sysDnodeIsLinked]
  cases hq : r.1.mem.queued node with
  | false =>
    rw [(hholds.unlinked (hinv.onNone hq)).1]
    rfl
  | true =>
    obtain ⟨f, hf⟩ := (hinv.exact.queued node).mp hq
    obtain ⟨b, hb⟩ := hholds.linked (r := .list f) rfl (List.mem_map.mpr ⟨node, hf, rfl⟩)
    rw [hb]
    rfl

end

/-- The heap of the nodes after a run of two callers and two FIFOs. -/
theorem fifo_nodes_safe_twoFifos : ∃ (h h' : Links (Addr Bool Nat))
    (r : State Bool Nat (Fin 2) Unit × List _),
    exec (system.recording actCalls) (⟨.initial, fun _ => .idle⟩, []) (twoFifosRun 0 1) = some r ∧
    Executes h r.2 h' ∧ sysDlistPeekHead h' (.list false) = some (.node 8) := by
  obtain ⟨r, hr, hl⟩ := exists_of_exec (twoFifosRun (0 : Fin 2) 1)
    (M := system.recording actCalls) (s := (⟨.initial, fun _ => .idle⟩, []))
    (P := fun r => (r.1.mem.fifo false).list = [8]) (by decide +kernel)
  have hfresh := Links.Holds.fresh (Mem.initial (F := Bool) (E := Nat)).lists
    fun a l hl => by cases a <;> cases hl; rfl
  obtain ⟨h', hexec, hholds, -⟩ := fifo_nodes_safe hfresh
    (reachable_of_exec (twoFifosRun 0 1) ⟨⟨rfl, fun _ => rfl⟩, rfl⟩ hr)
  refine ⟨_, h', r, hr, hexec, ?_⟩
  rw [sysDlistPeekHead_eq (hholds.ring (r := .list false) rfl), hl]
  rfl

end HazelOsal.Fifo
