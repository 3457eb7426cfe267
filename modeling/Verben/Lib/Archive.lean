import Mathlib.Data.List.Basic
import Mathlib.Tactic.Common

/-!
# A log in pieces

What is written to a log goes to the piece that is open. This piece may be laid behind the
pieces that are kept, and a new one is begun when something is written again; and the oldest
piece may be dropped. Nothing else happens, so the pieces that were dropped, those that are
kept and the open one are together all that was ever written, in order.
-/

/-- The pieces of a log, the oldest first. -/
structure Archive (L : Type*) where
  dropped : List (List L)
  kept : List (List L)
  active : Option (List L)

namespace Archive

variable {L : Type*}

/-- All that was ever written. -/
def all (ar : Archive L) : List L :=
  ar.dropped.flatten ++ (ar.kept.flatten ++ ar.active.getD [])

/-- Write to the open piece. -/
def append (ar : Archive L) (ls : List L) : Archive L :=
  { ar with active := some (ar.active.getD [] ++ ls) }

/-- Keep the open piece. -/
def rotate (ar : Archive L) : Archive L :=
  { ar with kept := ar.kept ++ [ar.active.getD []], active := none }

/-- Drop the oldest piece. -/
def drop (ar : Archive L) : Archive L :=
  { ar with dropped := ar.dropped ++ ar.kept.take 1, kept := ar.kept.tail }

@[simp] theorem all_append (ar : Archive L) (ls : List L) : (ar.append ls).all = ar.all ++ ls := by
  unfold append all
  rw [Option.getD_some, List.append_assoc, List.append_assoc]

@[simp] theorem all_rotate (ar : Archive L) : ar.rotate.all = ar.all := by
  unfold rotate all
  rw [Option.getD_none, List.append_nil, List.flatten_append, List.flatten_singleton]

@[simp] theorem all_drop (ar : Archive L) : ar.drop.all = ar.all := by
  unfold drop all
  dsimp only
  cases ar.kept with
  | nil => rw [List.take_nil, List.append_nil, List.tail_nil]
  | cons piece rest =>
      rw [List.take_succ_cons, List.take_zero, List.tail_cons, List.flatten_append,
        List.flatten_singleton, List.flatten_cons, List.append_assoc, List.append_assoc]

end Archive
