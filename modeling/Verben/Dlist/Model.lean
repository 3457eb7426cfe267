import Mathlib.Algebra.Group.Int.Defs
import Verben.Lib.Links

/-!
# Linked lists

`src/dlist.c`. The list of connections in `conn.c` is walked from its head, is searched for a
value without a `match` method, and gains and loses nodes; other programs use the rest. A function
has no result where it follows a null pointer or one to a node that was freed.
`dlist_search_key` and `dlist_dup` do so when there is no memory for their iterator, which they do
not check.
-/

namespace Verben

open Links

/-- `dlist`. The nodes are those in memory that belong to the list; `len` is an
`unsigned int`. -/
structure Dlist (α : Type) : Type where
  nodes : Nodes α
  head : Link
  tail : Link
  len : UInt32

/-- `DLIST_START_HEAD` and `DLIST_START_TAIL`. -/
inductive DlistDirection : Type
  | head
  | tail
  deriving DecidableEq

/-- `dlist_iter`. -/
structure DlistIter : Type where
  next : Link
  direction : DlistDirection

variable {α : Type}

/-- `dlist_init`. -/
def dlistInit : Dlist α := ⟨fun _ => none, none, none, 0⟩

/-- `dlist_add_node_tail`, with what `malloc` returns: whether the value was added. -/
def dlistAddNodeTail (dl : Dlist α) (malloc : Option Nat) (value : α) : Option (Bool × Dlist α) :=
  match malloc with
  | none => some (false, dl)
  | some addr =>
      if dl.len = 0 then
        some (true, {
          nodes := Function.update dl.nodes addr (some ⟨none, none, value⟩)
          head := some addr
          tail := some addr
          len := dl.len + 1 })
      else do
        let last ← dl.tail
        let nodes := Function.update dl.nodes addr (some ⟨dl.tail, none, value⟩)
        let node ← nodes last
        some (true, { dl with
          nodes := Function.update nodes last (some { node with next := some addr })
          tail := some addr
          len := dl.len + 1 })

/-- `dlist_add_node_head`. -/
def dlistAddNodeHead (dl : Dlist α) (malloc : Option Nat) (value : α) : Option (Bool × Dlist α) :=
  match malloc with
  | none => some (false, dl)
  | some addr =>
      if dl.len = 0 then
        some (true, {
          nodes := Function.update dl.nodes addr (some ⟨none, none, value⟩)
          head := some addr
          tail := some addr
          len := dl.len + 1 })
      else do
        let front ← dl.head
        let nodes := Function.update dl.nodes addr (some ⟨none, dl.head, value⟩)
        let node ← nodes front
        some (true, { dl with
          nodes := Function.update nodes front (some { node with prev := some addr })
          head := some addr
          len := dl.len + 1 })

/-- `if (node->prev != NULL) node->prev->next = node`. -/
def Dlist.linkNext (dl : Dlist α) (prev : Link) (addr : Nat) : Option (Dlist α) :=
  match prev with
  | none => some dl
  | some p =>
      (dl.nodes p).map fun node =>
        { dl with nodes := Function.update dl.nodes p (some { node with next := some addr }) }

/-- `if (node->next != NULL) node->next->prev = node`. -/
def Dlist.linkPrev (dl : Dlist α) (next : Link) (addr : Nat) : Option (Dlist α) :=
  match next with
  | none => some dl
  | some n =>
      (dl.nodes n).map fun node =>
        { dl with nodes := Function.update dl.nodes n (some { node with prev := some addr }) }

/-- `dlist_insert_node`. -/
def dlistInsertNode (dl : Dlist α) (malloc : Option Nat) (oldNode : Nat) (value : α)
    (after : Bool) : Option (Bool × Dlist α) :=
  match malloc with
  | none => some (false, dl)
  | some addr => do
      let old ← dl.nodes oldNode
      let node : Node α :=
        if after then ⟨some oldNode, old.next, value⟩ else ⟨old.prev, some oldNode, value⟩
      let dl := { dl with
        nodes := Function.update dl.nodes addr (some node)
        head := if !after ∧ dl.head = some oldNode then some addr else dl.head
        tail := if after ∧ dl.tail = some oldNode then some addr else dl.tail }
      let dl ← dl.linkNext node.prev addr
      let dl ← dl.linkPrev node.next addr
      some (true, { dl with len := dl.len + 1 })

/-- What comes behind `prev`, which is the head if there is no `prev`. -/
def Dlist.setNext (dl : Dlist α) (prev next : Link) : Option (Dlist α) :=
  match prev with
  | none => some { dl with head := next }
  | some addr =>
      (dl.nodes addr).map fun node =>
        { dl with nodes := Function.update dl.nodes addr (some { node with next := next }) }

/-- What comes before `next`, which is the tail if there is no `next`. -/
def Dlist.setPrev (dl : Dlist α) (next prev : Link) : Option (Dlist α) :=
  match next with
  | none => some { dl with tail := prev }
  | some addr =>
      (dl.nodes addr).map fun node =>
        { dl with nodes := Function.update dl.nodes addr (some { node with prev := prev }) }

/-- `dlist_delete_node`, and the value that goes to the list's `free` method. -/
def dlistDeleteNode (dl : Dlist α) (addr : Nat) : Option (Dlist α × α) := do
  let node ← dl.nodes addr
  let dl ← dl.setNext node.prev node.next
  let node ← dl.nodes addr
  let dl ← dl.setPrev node.next node.prev
  let node ← dl.nodes addr
  some ({ dl with nodes := Function.update dl.nodes addr none, len := dl.len - 1 }, node.value)

/-- `dlist_rewind`. -/
def dlistRewind (dl : Dlist α) : DlistIter := ⟨dl.head, .head⟩

/-- `dlist_rewind_tail`. -/
def dlistRewindTail (dl : Dlist α) : DlistIter := ⟨dl.tail, .tail⟩

/-- `dlist_get_iterator`, and whether `malloc` finds memory for it. -/
def dlistGetIterator (dl : Dlist α) (malloc : Bool) (direction : DlistDirection) :
    Option DlistIter :=
  if malloc then
    some (match direction with
      | .head => dlistRewind dl
      | .tail => dlistRewindTail dl)
  else none

/-- `dlist_next`. -/
def dlistNext (dl : Dlist α) (iter : DlistIter) : Option (Link × DlistIter) :=
  match iter.next with
  | none => some (none, iter)
  | some addr =>
      (dl.nodes addr).map fun curr =>
        (some addr, { iter with
          next := match iter.direction with
            | .head => curr.next
            | .tail => curr.prev })

/-- The loop of `dlist_search_key`. -/
def dlistSearchLoop [DecidableEq α] (dl : Dlist α) (key : α) : Nat → DlistIter → Option Link
  | 0, _ => none
  | fuel + 1, iter => do
      let (node, iter) ← dlistNext dl iter
      match node with
      | none => some none
      | some addr =>
          let node ← dl.nodes addr
          if key = node.value then some (some addr) else dlistSearchLoop dl key fuel iter

/-- `dlist_search_key`, on a list without a `match` method. The iterator is not checked. -/
def dlistSearchKey [DecidableEq α] (fuel : Nat) (dl : Dlist α) (malloc : Bool) (key : α) :
    Option Link := do
  let iter ← dlistGetIterator dl malloc .head
  dlistSearchLoop dl key fuel iter

/-- The loops of `dlist_index`, which go `index` links on. -/
def dlistIndexLoop (dl : Dlist α) (direction : DlistDirection) : Nat → Link → Option Link
  | 0, node => some node
  | _ + 1, none => some none
  | index + 1, some addr => do
      let node ← dl.nodes addr
      dlistIndexLoop dl direction index
        (match direction with
        | .head => node.next
        | .tail => node.prev)

/-- `dlist_index`. There is no `-index` for the least `int`. -/
def dlistIndex (dl : Dlist α) (index : Int) : Option Link :=
  if index < 0 then
    if index = -2 ^ 31 then none else dlistIndexLoop dl .tail (-index - 1).toNat dl.tail
  else
    dlistIndexLoop dl .head index.toNat dl.head

/-- The loop of `dlist_destroy`: the nodes that are left, and the values that go to the list's
`free` method. -/
def dlistDestroyLoop (nodes : Nodes α) : Nat → Link → Option (Nodes α × List α)
  | 0, _ => some (nodes, [])
  | len + 1, curr => do
      let addr ← curr
      let node ← nodes addr
      let (nodes, freed) ← dlistDestroyLoop (Function.update nodes addr none) len node.next
      some (nodes, node.value :: freed)

/-- `dlist_destroy`. -/
def dlistDestroy (dl : Dlist α) : Option (Nodes α × List α) :=
  dlistDestroyLoop dl.nodes dl.len.toNat dl.head

/-- What `dlist_dup` returns: a copy; or `NULL`, where it destroyed the copy and `freed` went to
the `free` method that the copy has from the list. -/
inductive DlistDup (α : Type) : Type
  | copied (copy : Dlist α)
  | failed (freed : List α)

/-- The value of a copied node, or `NULL`. -/
def dupValue (dup : Option (α → Option α)) (value : α) : Option α :=
  match dup with
  | some dup => dup value
  | none => some value

/-- The loop of `dlist_dup`. `dup` is the list's method, which may return `NULL`, and `malloc`
has the addresses that `dlist_add_node_tail` gets. -/
def dlistDupLoop (orig : Dlist α) (dup : Option (α → Option α)) :
    Nat → Dlist α → DlistIter → List (Option Nat) → Option (DlistDup α)
  | 0, _, _, _ => none
  | fuel + 1, copy, iter, mallocs => do
      let (node, iter) ← dlistNext orig iter
      match node with
      | none => some (.copied copy)
      | some addr =>
          let node ← orig.nodes addr
          match dupValue dup node.value with
          | none => (dlistDestroy copy).map fun (_, freed) => .failed freed
          | some value =>
              let (added, copy) ← dlistAddNodeTail copy mallocs.head?.join value
              if added then dlistDupLoop orig dup fuel copy iter mallocs.tail
              else (dlistDestroy copy).map fun (_, freed) => .failed freed

/-- `dlist_dup`, and whether `dlist_init` and `dlist_get_iterator` find memory. The iterator is not
checked. -/
def dlistDup (fuel : Nat) (orig : Dlist α) (dup : Option (α → Option α)) (init iterator : Bool)
    (mallocs : List (Option Nat)) : Option (DlistDup α) :=
  if init then do
    let iter ← dlistGetIterator orig iterator .head
    dlistDupLoop orig dup fuel dlistInit iter mallocs
  else
    some (.failed [])

end Verben
