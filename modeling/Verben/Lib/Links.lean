import Mathlib.Data.List.Nodup
import Mathlib.Logic.Function.Basic
import Mathlib.Tactic.Common

/-!
# Doubly linked nodes

Nodes with links in both directions, in a memory of nodes by address. `Segment` says that the
nodes from one link on are those of a list, and which links lead into and out of it; a whole
list is a segment between two null links.

The rules below cut segments apart and put them together, and say what is left of one when a
link of its first or last node changes, or when memory elsewhere does. Seen from the other end
(`mirror`) a segment is one again, so what holds of one direction holds of both.
-/

namespace Links

/-- A link: an address, or null. -/
abbrev Link : Type := Option Nat

structure Node (α : Type) : Type where
  prev : Link
  next : Link
  value : α

/-- The nodes that are allocated, by address. -/
abbrev Nodes (α : Type) : Type := Nat → Option (Node α)

variable {α : Type} {nodes nodes' : Nodes α} {before here last after : Link}
  {xs ys : List (Nat × α)} {addr : Nat} {v : α}

/-- From `here` on there are nodes at these addresses with these values. The first of them links
back to `before`, the last is `last`, and it links on to `after`. -/
def Segment (nodes : Nodes α) (before here : Link) : List (Nat × α) → Link → Link → Prop
  | [], last, after => here = after ∧ last = before
  | (addr, v) :: rest, last, after =>
      here = some addr ∧ ∃ next, nodes addr = some ⟨before, next, v⟩ ∧
        Segment nodes (some addr) next rest last after

/-- A segment falls into two at any place. -/
theorem segment_append :
    Segment nodes before here (xs ++ ys) last after ↔
      ∃ mid next, Segment nodes before here xs mid next ∧
        Segment nodes mid next ys last after := by
  induction xs generalizing before here with
  | nil =>
      constructor
      · intro segment
        exact ⟨before, here, ⟨rfl, rfl⟩, segment⟩
      · rintro ⟨mid, next, ⟨rfl, rfl⟩, segment⟩
        exact segment
  | cons entry xs ih =>
      rcases entry with ⟨addr, v⟩
      constructor
      · rintro ⟨start, link, node, rest⟩
        obtain ⟨mid, next, first, second⟩ := ih.mp rest
        exact ⟨mid, next, ⟨start, link, node, first⟩, second⟩
      · rintro ⟨mid, next, ⟨start, link, node, first⟩, second⟩
        exact ⟨start, link, node, ih.mpr ⟨mid, next, first, second⟩⟩

/-- Only the nodes of a segment matter. -/
theorem Segment.congr (segment : Segment nodes before here xs last after)
    (same : ∀ addr ∈ xs.map Prod.fst, nodes' addr = nodes addr) :
    Segment nodes' before here xs last after := by
  induction xs generalizing before here with
  | nil => exact segment
  | cons entry xs ih =>
      rcases entry with ⟨addr, v⟩
      obtain ⟨start, link, node, rest⟩ := segment
      refine ⟨start, link, (same addr List.mem_cons_self).trans node, ih rest ?_⟩
      intro addr' mem
      exact same addr' (List.mem_cons_of_mem _ mem)

/-- Memory that is no node of the segment can change. -/
theorem Segment.update_of_notMem (segment : Segment nodes before here xs last after)
    (apart : addr ∉ xs.map Prod.fst) (node : Option (Node α)) :
    Segment (Function.update nodes addr node) before here xs last after := by
  refine segment.congr ?_
  intro addr' mem
  have ne : addr' ≠ addr := by
    rintro rfl
    exact apart mem
  exact Function.update_of_ne ne _ _

/-- The last link of a segment is that of its last node, if it has nodes. -/
theorem Segment.last_cases (segment : Segment nodes before here xs last after) :
    (xs = [] ∧ last = before) ∨ ∃ addr ∈ xs.map Prod.fst, last = some addr := by
  induction xs generalizing before here with
  | nil => exact .inl ⟨rfl, segment.2⟩
  | cons entry xs ih =>
      rcases entry with ⟨addr, v⟩
      obtain ⟨_, link, _, rest⟩ := segment
      rcases ih rest with ⟨rfl, same⟩ | ⟨addr', mem, same⟩
      · exact .inr ⟨addr, List.mem_cons_self, same⟩
      · exact .inr ⟨addr', List.mem_cons_of_mem _ mem, same⟩

/-- The last node is there, and it links out of the segment. -/
theorem Segment.node_last (segment : Segment nodes before here xs (some addr) after)
    (mem : addr ∈ xs.map Prod.fst) (nodup : (xs.map Prod.fst).Nodup) :
    ∃ node, nodes addr = some node ∧ ∀ after',
      Segment (Function.update nodes addr (some { node with next := after' }))
        before here xs (some addr) after' := by
  induction xs generalizing before here with
  | nil => cases mem
  | cons entry xs ih =>
      rcases entry with ⟨addr', v⟩
      obtain ⟨start, link, node, rest⟩ := segment
      obtain ⟨apart, nodup⟩ := List.nodup_cons.mp nodup
      rcases rest.last_cases with ⟨rfl, same⟩ | ⟨addr'', mem'', same⟩
      · cases same
        refine ⟨_, node, fun after' => ⟨start, after', ?_, rfl, rfl⟩⟩
        exact Function.update_self _ _ _
      · cases same
        have ne : addr' ≠ addr := fun same => apart (same ▸ mem'')
        obtain ⟨node', there, relinked⟩ := ih rest mem'' nodup
        refine ⟨node', there, fun after' => ⟨start, link, ?_, relinked after'⟩⟩
        exact (Function.update_of_ne ne _ _).trans node

/-- The first node is there, and it links back out of the segment. -/
theorem Segment.node_first (segment : Segment nodes before here ((addr, v) :: xs) last after)
    (apart : addr ∉ xs.map Prod.fst) :
    ∃ node, nodes addr = some node ∧ ∀ before',
      Segment (Function.update nodes addr (some { node with prev := before' }))
        before' here ((addr, v) :: xs) last after := by
  obtain ⟨start, link, node, rest⟩ := segment
  refine ⟨_, node, fun before' => ⟨start, link, ?_, rest.update_of_notMem apart _⟩⟩
  exact Function.update_self _ _ _

/-- The address that a segment starts with. -/
def first : List (Nat × α) → Link
  | [] => none
  | (addr, _) :: _ => some addr

theorem Segment.here_eq (segment : Segment nodes before here xs last none) :
    here = first xs := by
  cases xs with
  | nil => exact segment.1
  | cons entry xs => exact segment.1

/-! ## The other direction -/

def Node.mirror (node : Node α) : Node α := ⟨node.next, node.prev, node.value⟩

/-- The same nodes with their links exchanged. -/
def mirror (nodes : Nodes α) : Nodes α := fun addr => (nodes addr).map Node.mirror

@[simp] theorem mirror_mirror (nodes : Nodes α) : mirror (mirror nodes) = nodes := by
  funext addr
  unfold mirror
  cases nodes addr <;> rfl

theorem mirror_update (nodes : Nodes α) (addr : Nat) (node : Node α) :
    mirror (Function.update nodes addr (some node)) =
      Function.update (mirror nodes) addr (some node.mirror) := by
  funext addr'
  unfold mirror
  by_cases same : addr' = addr
  · rw [same, Function.update_self, Function.update_self]
    rfl
  · rw [Function.update_of_ne same, Function.update_of_ne same]

theorem Segment.mirror (segment : Segment nodes before here xs last after) :
    Segment (mirror nodes) after last xs.reverse here before := by
  induction xs generalizing before here with
  | nil => exact ⟨segment.2, segment.1⟩
  | cons entry xs ih =>
      rcases entry with ⟨addr, v⟩
      obtain ⟨start, next, node, rest⟩ := segment
      rw [List.reverse_cons]
      refine segment_append.mpr ⟨next, some addr, ih rest, rfl, before, ?_, rfl, start⟩
      unfold Links.mirror
      rw [node]
      rfl

end Links
