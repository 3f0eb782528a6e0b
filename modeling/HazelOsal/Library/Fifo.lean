import HazelOsal.Library.Transition

/-! # Bounded queues

`boundedFifo capacity` is the queue as its users see it: a list of at most `capacity` elements, to
which events add at the end and from which they remove the head. A list of events that it can run
is a legal history, and what such a history gets is, in order, what it has put. -/

namespace TransitionSystem

/-- What happens to a queue. -/
inductive FifoEvent (α : Type) where
  | put (a : α)
  | get (a : α)
  deriving DecidableEq

namespace FifoEvent

def put? : FifoEvent α → Option α
  | .put a => some a
  | .get _ => none

def get? : FifoEvent α → Option α
  | .put _ => none
  | .get a => some a

end FifoEvent

variable {α : Type} [DecidableEq α] {capacity : Nat} {l l' : List α} {log : List (FifoEvent α)}

def fifoStep (capacity : Nat) : List α → FifoEvent α → Option (List α)
  | l, .put a => if l.length < capacity then some (l ++ [a]) else none
  | b :: l, .get a => if b = a then some l else none
  | [], .get _ => none

/-- A queue of at most `capacity` elements, at first empty. -/
def boundedFifo (capacity : Nat) : System (List α) (FifoEvent α) where
  init l := l = []
  step := fifoStep capacity

theorem fifoStep_put {a : α} (h : l.length < capacity) :
    fifoStep capacity l (.put a) = some (l ++ [a]) := if_pos h

theorem fifoStep_get {a : α} : fifoStep capacity (a :: l) (.get a) = some l := if_pos rfl

/-- **First in, first out.** What has been put is what has been got, followed by what is there. -/
theorem puts_eq_gets_append (h : exec (boundedFifo capacity) l log = some l') :
    l ++ log.filterMap FifoEvent.put? = log.filterMap FifoEvent.get? ++ l' := by
  induction log generalizing l with
  | nil => cases h; simp
  | cons e log ih =>
    obtain ⟨l₁, hs, h⟩ := Option.bind_eq_some_iff.mp h
    have ih := ih h
    cases e with
    | put a =>
      obtain ⟨-, hs⟩ := Option.ite_none_right_eq_some.mp hs
      cases hs
      simpa [List.filterMap_cons, FifoEvent.put?, FifoEvent.get?] using ih
    | get a =>
      cases l with
      | nil => cases hs
      | cons b l =>
        obtain ⟨rfl, rfl⟩ : b = a ∧ l = l₁ := by simpa [boundedFifo, fifoStep] using hs
        simpa [List.filterMap_cons, FifoEvent.put?, FifoEvent.get?] using ih

theorem gets_prefix_puts (h : exec (boundedFifo capacity) [] log = some l') :
    log.filterMap FifoEvent.get? <+: log.filterMap FifoEvent.put? :=
  ⟨l', (puts_eq_gets_append h).symm⟩

/-- An event that follows a legal history. -/
theorem exec_fifo_snoc {e : FifoEvent α} (h : exec (boundedFifo capacity) l log = some l')
    {l'' : List α} (he : fifoStep capacity l' e = some l'') :
    exec (boundedFifo capacity) l (log ++ [e]) = some l'' := by
  rw [exec_append, h, Option.bind_some, exec]
  show (fifoStep capacity l' e).bind _ = _
  rw [he]
  rfl

end TransitionSystem
