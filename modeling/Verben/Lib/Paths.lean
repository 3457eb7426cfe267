import Mathlib.Data.List.Infix
import Mathlib.Tactic.Common

/-!
# Paths

A path is a walk through directories, and each of its moves goes up or into a name. Where a walk
leads to is a `Place`: how often it went up with no name left to leave, and the names it is in.
A walk that goes on from a place leads to where it leads from the start, seen from that place
(`Place.walk_eq`). So it stays below the place if and only if it does not go up at all in the
end, or comes back through the names that it left (`below_seenFrom_iff`).
-/

namespace Paths

section Walk

variable {α : Type*}

/-- A move of a walk. -/
inductive Move (α : Type*) : Type _
  | up
  | into (name : α)

/-- A place: how far up it is from the start, and the names from there, the innermost first. -/
structure Place (α : Type*) : Type _ where
  ups : Nat
  names : List α

/-- The place where a walk starts. -/
def start : Place α := ⟨0, []⟩

def Place.move (p : Place α) : Move α → Place α
  | .into name => ⟨p.ups, name :: p.names⟩
  | .up =>
      match p.names with
      | [] => ⟨p.ups + 1, []⟩
      | _ :: names => ⟨p.ups, names⟩

def Place.walk (p : Place α) (moves : List (Move α)) : Place α := moves.foldl Place.move p

/-- A place that is given as it is seen from `p`. -/
def Place.seenFrom (q p : Place α) : Place α :=
  ⟨p.ups + (q.ups - p.names.length), q.names ++ p.names.drop q.ups⟩

theorem Place.walk_append (p : Place α) (first second : List (Move α)) :
    p.walk (first ++ second) = (p.walk first).walk second := List.foldl_append

theorem Place.move_seenFrom (p q : Place α) (m : Move α) :
    (q.seenFrom p).move m = (q.move m).seenFrom p := by
  obtain ⟨ups, names⟩ := q
  cases m with
  | into name => rfl
  | up =>
      cases names with
      | cons name names => rfl
      | nil =>
          unfold seenFrom move
          dsimp only
          rw [List.nil_append, List.nil_append]
          by_cases far : ups < p.names.length
          case pos =>
            rw [List.drop_eq_getElem_cons far]
            dsimp only
            rw [show ups - p.names.length = 0 by omega,
              show ups + 1 - p.names.length = 0 by omega]
          case neg =>
            rw [List.drop_eq_nil_of_le (by omega), List.drop_eq_nil_of_le (by omega)]
            dsimp only
            rw [show ups + 1 - p.names.length = ups - p.names.length + 1 by omega]
            rfl

/-- A walk from a place leads to where it leads from the start, seen from the place. -/
theorem Place.walk_eq (p : Place α) (moves : List (Move α)) :
    p.walk moves = (start.walk moves).seenFrom p := by
  induction moves using List.reverseRecOn with
  | nil =>
      unfold seenFrom start walk
      simp only [List.foldl_nil, Nat.zero_sub, Nat.add_zero, List.drop_zero, List.nil_append]
  | append_singleton moves m ih =>
      rw [walk_append, walk_append, ih]
      exact move_seenFrom p _ m

/-- A place is below another one that is as far up, if its outermost names are the same. The top
of an absolute path cannot be left, so there it does not matter how far up a place is. -/
def Below (absolute : Bool) (p q : Place α) : Prop :=
  (absolute = true ∨ q.ups = p.ups) ∧ p.names <:+ q.names

/-- The names that a walk left are those that it has to come back through. -/
theorem below_seenFrom_iff (absolute : Bool) (p q : Place α) :
    Below absolute p (q.seenFrom p) ↔
      (absolute = true ∨ q.ups ≤ p.names.length) ∧ p.names.take q.ups <:+ q.names := by
  have height : p.ups + (q.ups - p.names.length) = p.ups ↔ q.ups ≤ p.names.length := by omega
  have back : p.names <:+ q.names ++ p.names.drop q.ups ↔ p.names.take q.ups <:+ q.names := by
    have split := List.take_append_drop q.ups p.names
    constructor
    case mp =>
      rintro ⟨front, eq⟩
      have whole : (front ++ p.names.take q.ups) ++ p.names.drop q.ups =
          q.names ++ p.names.drop q.ups := by rw [List.append_assoc, split, eq]
      exact ⟨front, List.append_cancel_right whole⟩
    case mpr =>
      rintro ⟨front, eq⟩
      refine ⟨front, ?_⟩
      rw [← eq, List.append_assoc, split]
  unfold Below Place.seenFrom
  dsimp only
  rw [height, back]

end Walk

end Paths
