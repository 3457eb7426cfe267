import Mathlib.Data.List.Basic
import Mathlib.Tactic.Common

/-!
# Cursors

A cursor is moved through a collection by `next`, which may get stuck, and says when there is
nothing more. `Sees` relates a position to what is seen from there on, up to the end. To show
what a cursor sees, say at each position what is left there (`sees_of_rest`).
-/

namespace Cursor

section Sees

variable {S A : Type*} {next : S → Option (Option S)} {view : S → A}

/-- What is seen from a position on, up to the last one. -/
inductive Sees (next : S → Option (Option S)) (view : S → A) : S → List A → Prop
  | last {s : S} : next s = some none → Sees next view s [view s]
  | more {s s' : S} {seen : List A} :
    next s = some (some s') → Sees next view s' seen → Sees next view s (view s :: seen)

/-- At a valid position the cursor shows the first of what is left, and it moves on to a valid
position with the others, or there are none. -/
structure Leaves (next : S → Option (Option S)) (view : S → A) (Valid : S → Prop)
    (rest : S → List A) (s : S) : Prop where
  shown : ∃ others, rest s = view s :: others
  ended : (rest s).tail = [] → next s = some none
  moved : (rest s).tail ≠ [] → ∃ s', next s = some (some s') ∧ Valid s' ∧ rest s' = (rest s).tail

/-- Then all of it is visited. -/
theorem sees_of_rest {Valid : S → Prop} {rest : S → List A}
    (leaves : ∀ s, Valid s → Leaves next view Valid rest s) {s : S} (valid : Valid s) :
    Sees next view s (rest s) := by
  generalize left : rest s = seen
  induction seen generalizing s with
  | nil =>
      obtain ⟨others, shown⟩ := (leaves s valid).shown
      exact nomatch left.symm.trans shown
  | cons a seen ih =>
      obtain ⟨⟨others, shown⟩, ended, moved⟩ := leaves s valid
      rw [left] at shown ended moved
      obtain ⟨rfl, -⟩ := List.cons.inj shown
      rw [List.tail_cons] at ended moved
      by_cases more : seen = []
      case pos =>
        rw [more]
        exact .last (ended more)
      case neg =>
        obtain ⟨s', next', valid', left'⟩ := moved more
        exact .more next' (ih valid' left')

end Sees

end Cursor
