import HazelOsal.Library.DoublyLinked

/-! # The doubly linked list

`dlist.h` on a heap of nodes. A `struct _dnode` is both a list and a node, its `head` and `tail`
being the same words as its `next` and `prev`, so a `Links` holds every list and node. A store
through a null pointer is undefined, and so are all functions that make one: they give `none`. A
list or a node that a caller passes is an address, and a pointer that a function reads or returns is
an `Option` of one. -/

namespace HazelOsal.Dlist

variable {α : Type} [DecidableEq α]

section
variable (h : Links α)

/-- `a->next = v`. -/
def setNext (a : α) (v : Option α) : Links α := { h with next := Function.update h.next a v }

/-- `a->prev = v`. -/
def setPrev (a : α) (v : Option α) : Links α := { h with prev := Function.update h.prev a v }

/-- `p->next = v` for a pointer that may be null. -/
def storeNext (p v : Option α) : Option (Links α) := p.map fun a => setNext h a v

/-- `p->prev = v` for a pointer that may be null. -/
def storePrev (p v : Option α) : Option (Links α) := p.map fun a => setPrev h a v

def sysDlistInit (list : α) : Links α := setPrev (setNext h list (some list)) list (some list)

def sysDnodeInit (node : α) : Links α := setPrev (setNext h node none) node none

omit [DecidableEq α] in
def sysDnodeIsLinked (node : α) : Bool := (h.next node).isSome

def sysDlistIsHead (list node : α) : Bool := h.next list = some node

def sysDlistIsTail (list node : α) : Bool := h.prev list = some node

def sysDlistIsEmpty (list : α) : Bool := h.next list = some list

def sysDlistHasMultipleNodes (list : α) : Bool := h.next list ≠ h.prev list

def sysDlistPeekHead (list : α) : Option α :=
  if sysDlistIsEmpty h list then none else h.next list

def sysDlistPeekNextNoCheck (list node : α) : Option α :=
  if some node = h.prev list then none else h.next node

def sysDlistPeekNext (list : α) (node : Option α) : Option α :=
  node.bind fun node => sysDlistPeekNextNoCheck h list node

def sysDlistPeekPrevNoCheck (list node : α) : Option α :=
  if some node = h.next list then none else h.prev node

def sysDlistPeekPrev (list : α) (node : Option α) : Option α :=
  node.bind fun node => sysDlistPeekPrevNoCheck h list node

def sysDlistPeekTail (list : α) : Option α :=
  if sysDlistIsEmpty h list then none else h.prev list

def sysDlistAppend (list node : α) : Option (Links α) := do
  let tail := h.prev list
  let h := setNext h node (some list)
  let h := setPrev h node tail
  let h ← storeNext h tail (some node)
  return setPrev h list (some node)

def sysDlistPrepend (list node : α) : Option (Links α) := do
  let head := h.next list
  let h := setNext h node head
  let h := setPrev h node (some list)
  let h ← storePrev h head (some node)
  return setNext h list (some node)

def sysDlistInsert (successor node : α) : Option (Links α) := do
  let prev := h.prev successor
  let h := setPrev h node prev
  let h := setNext h node (some successor)
  let h ← storeNext h prev (some node)
  return setPrev h successor (some node)

def sysDlistDequeue (node : α) : Option (Links α) := do
  let prev := h.prev node
  let next := h.next node
  let h ← storeNext h prev next
  storePrev h next prev

def sysDlistRemove (node : α) : Option (Links α) := do
  let prev := h.prev node
  let next := h.next node
  let h ← storeNext h prev next
  let h ← storePrev h next prev
  return sysDnodeInit h node

def sysDlistRangePrepend (dest start last : α) : Option (Links α) := do
  let head := h.next dest
  let prev := h.prev start
  let next := h.next last
  -- Remove the range from its current list.
  let h ← storeNext h prev next
  let h ← storePrev h next prev
  -- Prepend the range to the destination list.
  let h := setNext h last head
  let h := setPrev h start (some dest)
  let h ← storePrev h head (some last)
  return setNext h dest (some start)

def sysDlistRangeAppend (dest start last : α) : Option (Links α) := do
  let tail := h.prev dest
  let prev := h.prev start
  let next := h.next last
  -- Remove the range from its current list.
  let h ← storeNext h prev next
  let h ← storePrev h next prev
  -- Append the range to the destination list.
  let h := setNext h last (some dest)
  let h := setPrev h start tail
  let h ← storeNext h tail (some start)
  return setPrev h dest (some last)

def sysDlistGet (list : α) : Option (Links α × Option α) :=
  if sysDlistIsEmpty h list then some (h, none)
  else do
    let node ← h.next list
    let h ← sysDlistRemove h node
    return (h, some node)

/-! ## Loops

A loop is given the number of rounds that it may take. -/

/-- The rest of `SYS_DLIST_FOR_EACH_NODE(list, node)` from `node` on. `body` changes what the loop
keeps, and says whether to break; the loop leaves that, and `node`. -/
def forEachNodeFrom {S : Type} (list : α) (body : S → α → S × Bool) :
    Nat → Option α → S → Option (S × Option α)
  | 0, _, _ => none
  | _ + 1, none, s => some (s, none)
  | rounds + 1, some node, s =>
    match body s node with
    | (s, true) => some (s, some node)
    | (s, false) => forEachNodeFrom list body rounds (sysDlistPeekNext h list (some node)) s

/-- `SYS_DLIST_FOR_EACH_NODE(list, node)`. -/
def forEachNode {S : Type} (list : α) (body : S → α → S × Bool) (rounds : Nat) (s : S) :
    Option (S × Option α) :=
  forEachNodeFrom h list body rounds (sysDlistPeekHead h list) s

/-- `SYS_DLIST_ITERATE_FROM_NODE(list, node)`. -/
def iterateFromNode {S : Type} (list : α) (body : S → α → S × Bool) (rounds : Nat)
    (node : Option α) (s : S) : Option (S × Option α) :=
  forEachNodeFrom h list body rounds
    (match node with
      | some node => sysDlistPeekNextNoCheck h list node
      | none => sysDlistPeekHead h list) s

def sysDlistLen (list : α) (rounds : Nat) : Option Nat :=
  (forEachNode h list (fun len _ => (len + 1, false)) rounds 0).map Prod.fst

/-- `cond` is the function and its `data` together. -/
def sysDlistInsertAt (list node : α) (cond : α → Bool) (rounds : Nat) : Option (Links α) :=
  if sysDlistIsEmpty h list then sysDlistAppend h list node
  else do
    -- the `while` is the loop above, with a break where `cond` holds
    let (_, pos) ← forEachNode h list (fun _ pos => ((), cond pos)) rounds ()
    match pos with
    | some pos => sysDlistInsert h pos node
    | none => sysDlistAppend h list node

end

/-- The rest of `SYS_DLIST_FOR_EACH_NODE_SAFE(list, node, next)`. `body` may change the links. -/
def forEachNodeSafeFrom {S : Type} (list : α) (body : Links α × S → α → Option (Links α × S)) :
    Nat → Option α → Option α → Links α × S → Option (Links α × S)
  | 0, _, _, _ => none
  | _ + 1, none, _, s => some s
  | rounds + 1, some node, next, s => do
    let s ← body s node
    forEachNodeSafeFrom list body rounds next (sysDlistPeekNext s.1 list next) s

/-- `SYS_DLIST_FOR_EACH_NODE_SAFE(list, node, next)`. -/
def forEachNodeSafe {S : Type} (list : α) (body : Links α × S → α → Option (Links α × S))
    (rounds : Nat) (s : Links α × S) : Option (Links α × S) :=
  let node := sysDlistPeekHead s.1 list
  forEachNodeSafeFrom list body rounds node (sysDlistPeekNext s.1 list node) s

end HazelOsal.Dlist
