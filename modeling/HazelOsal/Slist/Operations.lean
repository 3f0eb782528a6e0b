import HazelOsal.Library.SinglyLinked

/-! # The singly linked list

`slist.h`, whose functions `list_gen.h` makes. A list or a node that a caller passes is an address,
and a pointer that may be null is an `Option` of one. A function that reads or writes through a null
pointer is undefined and gives `none`. -/

namespace HazelOsal.Slist

variable {K α : Type} [DecidableEq K] [DecidableEq α]

section
variable (h : SinglyLinks K α)

/-- `z_snode_next_set`. -/
def nextSet (parent : α) (child : Option α) : SinglyLinks K α :=
  { h with next := Function.update h.next parent child }

/-- `z_slist_head_set`. -/
def headSet (list : K) (node : Option α) : SinglyLinks K α :=
  { h with head := Function.update h.head list node }

/-- `z_slist_tail_set`. -/
def tailSet (list : K) (node : Option α) : SinglyLinks K α :=
  { h with tail := Function.update h.tail list node }

def sysSlistInit (list : K) : SinglyLinks K α := tailSet (headSet h list none) list none

omit [DecidableEq K] [DecidableEq α]

def sysSlistPeekHead (list : K) : Option α := h.head list

def sysSlistPeekTail (list : K) : Option α := h.tail list

def sysSlistIsEmpty (list : K) : Bool := (sysSlistPeekHead h list).isNone

def sysSlistPeekNextNoCheck (node : α) : Option α := h.next node

def sysSlistPeekNext (node : Option α) : Option α := node.bind (sysSlistPeekNextNoCheck h)

end

section
variable (h : SinglyLinks K α)

def sysSlistPrepend (list : K) (node : α) : SinglyLinks K α :=
  let h := nextSet h node (sysSlistPeekHead h list)
  let h := headSet h list (some node)
  if (sysSlistPeekTail h list).isNone then tailSet h list (sysSlistPeekHead h list) else h

def sysSlistAppend (list : K) (node : α) : SinglyLinks K α :=
  let h := nextSet h node none
  match sysSlistPeekTail h list with
  | none => headSet (tailSet h list (some node)) list (some node)
  | some tail => tailSet (nextSet h tail (some node)) list (some node)

def sysSlistAppendList (list : K) (head tail : Option α) : SinglyLinks K α :=
  match head, tail with
  | some head, some tail =>
    let h :=
      match sysSlistPeekTail h list with
      | none => headSet h list (some head)
      | some last => nextSet h last (some head)
    tailSet h list (some tail)
  | _, _ => h

def sysSlistMergeSlist (list listToAppend : K) : SinglyLinks K α :=
  let head := sysSlistPeekHead h listToAppend
  let tail := sysSlistPeekTail h listToAppend
  let h := sysSlistAppendList h list head tail
  sysSlistInit h listToAppend

def sysSlistInsert (list : K) (prev : Option α) (node : α) : SinglyLinks K α :=
  match prev with
  | none => sysSlistPrepend h list node
  | some prev =>
    if (h.next prev).isNone then sysSlistAppend h list node
    else
      let h := nextSet h node (h.next prev)
      nextSet h prev (some node)

def sysSlistGetNotEmpty (list : K) : Option (SinglyLinks K α × α) := do
  let node ← sysSlistPeekHead h list
  let h := headSet h list (h.next node)
  let h :=
    if sysSlistPeekTail h list = some node then tailSet h list (sysSlistPeekHead h list) else h
  return (h, node)

def sysSlistGet (list : K) : Option (SinglyLinks K α × Option α) :=
  if sysSlistIsEmpty h list then some (h, none)
  else (sysSlistGetNotEmpty h list).map fun (h, node) => (h, some node)

def sysSlistRemove (list : K) (prevNode : Option α) (node : α) : SinglyLinks K α :=
  let h :=
    match prevNode with
    | none =>
      let h := headSet h list (h.next node)
      -- was the node also the tail?
      if sysSlistPeekTail h list = some node then tailSet h list (sysSlistPeekHead h list) else h
    | some prev =>
      let h := nextSet h prev (h.next node)
      -- was the node the tail?
      if sysSlistPeekTail h list = some node then tailSet h list (some prev) else h
  nextSet h node none

/-! ## Loops

A loop is given the number of rounds that it may take. -/

/-- The rest of the loop of `sys_slist_find_and_remove` from `test` on. -/
def findAndRemoveFrom (list : K) (node : α) :
    Nat → Option α → Option α → Option (SinglyLinks K α × Bool)
  | 0, _, _ => none
  | _ + 1, _, none => some (h, false)
  | rounds + 1, prev, some test =>
    if test = node then some (sysSlistRemove h list prev node, true)
    else findAndRemoveFrom list node rounds (some test) (sysSlistPeekNext h (some test))

def sysSlistFindAndRemove (list : K) (node : α) (rounds : Nat) : Option (SinglyLinks K α × Bool) :=
  findAndRemoveFrom h list node rounds none (sysSlistPeekHead h list)

end

section
variable (h : SinglyLinks K α) {S : Type}

omit [DecidableEq K] [DecidableEq α]

/-- The rest of `SYS_SLIST_FOR_EACH_NODE(list, node)` from `node` on. -/
def forEachNodeFrom (body : S → α → S) : Nat → Option α → S → Option S
  | 0, _, _ => none
  | _ + 1, none, s => some s
  | rounds + 1, some node, s =>
    forEachNodeFrom body rounds (sysSlistPeekNext h (some node)) (body s node)

/-- `SYS_SLIST_FOR_EACH_NODE(list, node)`. -/
def forEachNode (list : K) (body : S → α → S) (rounds : Nat) (s : S) : Option S :=
  forEachNodeFrom h body rounds (sysSlistPeekHead h list) s

/-- `SYS_SLIST_ITERATE_FROM_NODE(list, node)`. -/
def iterateFromNode (list : K) (body : S → α → S) (rounds : Nat) (node : Option α) (s : S) :
    Option S :=
  forEachNodeFrom h body rounds
    (match node with
      | some node => sysSlistPeekNextNoCheck h node
      | none => sysSlistPeekHead h list) s

/-- The rest of `SYS_SLIST_FOR_EACH_NODE_SAFE(list, node, next)`. `body` may change the lists. -/
def forEachNodeSafeFrom (body : SinglyLinks K α × S → α → SinglyLinks K α × S) :
    Nat → Option α → Option α → SinglyLinks K α × S → Option (SinglyLinks K α × S)
  | 0, _, _, _ => none
  | _ + 1, none, _, s => some s
  | rounds + 1, some node, next, s =>
    let s := body s node
    forEachNodeSafeFrom body rounds next (sysSlistPeekNext s.1 next) s

/-- `SYS_SLIST_FOR_EACH_NODE_SAFE(list, node, next)`. -/
def forEachNodeSafe (list : K) (body : SinglyLinks K α × S → α → SinglyLinks K α × S) (rounds : Nat)
    (s : SinglyLinks K α × S) : Option (SinglyLinks K α × S) :=
  let node := sysSlistPeekHead s.1 list
  forEachNodeSafeFrom body rounds node (sysSlistPeekNext s.1 node) s

end

end HazelOsal.Slist
