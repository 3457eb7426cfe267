import Mathlib.Algebra.BigOperators.Group.Finset.Basic
import Mathlib.Algebra.Order.BigOperators.Group.Finset
import Mathlib.Logic.Relation
import Mathlib.Order.WellFounded

/-!
# Nested calls

A computation goes on or opens a call of its own, and the calls that are open have labels. Where
it goes on only for a while in each call, it can only run for ever by opening calls without end;
so with finitely many labels, each of which is open only so often at once, it ends
(`acc_of_bounded`).
-/

namespace Nesting

open Relation

variable {S L : Type*} {step : S → S → Prop} {stack : S → List L} {rank : S → Nat} {start : S}

/-- A step opens a call, or goes on with less to do. -/
def Descends (step : S → S → Prop) (stack : S → List L) (rank : S → Nat) : Prop :=
  ∀ s t, step s t → (∃ label, stack t = label :: stack s) ∨ stack t = stack s ∧ rank t < rank s

/-- The measure is the number of calls that may still be opened, and then the rank. -/
theorem acc_of_length_le {n : Nat} (descends : Descends step stack rank)
    (short : ∀ s, ReflTransGen step start s → (stack s).length ≤ n) :
    Acc (flip step) start := by
  have order : WellFounded (Prod.Lex (· < ·) (· < ·) : Nat × Nat → Nat × Nat → Prop) :=
    WellFounded.prod_lex Nat.lt_wfRel.wf Nat.lt_wfRel.wf
  have all : ∀ s, ReflTransGen step start s → Acc (flip step) s := by
    intro s
    induction s using (InvImage.wf (fun s => (n - (stack s).length, rank s)) order).induction with
    | _ s ih =>
        intro reached
        refine ⟨s, fun t next => ?_⟩
        have reached' : ReflTransGen step start t := reached.tail next
        refine ih t ?_ reached'
        rcases descends s t next with ⟨label, opened⟩ | ⟨same, less⟩
        · have short' := short t reached'
          rw [opened, List.length_cons] at short'
          refine Prod.Lex.left _ _ ?_
          rw [opened, List.length_cons]
          omega
        · change Prod.Lex _ _ (n - (stack t).length, rank t) (n - (stack s).length, rank s)
          rw [same]
          exact Prod.Lex.right _ less
  exact all start .refl

variable [BEq L] [LawfulBEq L]

theorem length_le_of_count {labels : Finset L} {k : Nat} {ls : List L}
    (inside : ∀ l ∈ ls, l ∈ labels) (bounded : ∀ l, ls.count l ≤ k) :
    ls.length ≤ labels.card * k := by
  classical
  have same : ‹BEq L› = instBEqOfDecidableEq := lawful_beq_subsingleton ..
  subst same
  have sub : ls.toFinset ⊆ labels := fun l mem => inside l (List.mem_toFinset.mp mem)
  calc ls.length = ∑ l ∈ ls.toFinset, ls.count l := (List.sum_toFinset_count_eq_length ls).symm
    _ ≤ ls.toFinset.card * k := Finset.sum_le_card_nsmul _ _ _ fun l _ => bounded l
    _ ≤ labels.card * k := Nat.mul_le_mul_right k (Finset.card_le_card sub)

/-- **Nested calls end**, where no label is open more than `k` times at once. -/
theorem acc_of_bounded {labels : Finset L} {k : Nat} (descends : Descends step stack rank)
    (inside : ∀ s, ReflTransGen step start s → ∀ l ∈ stack s, l ∈ labels)
    (bounded : ∀ s, ReflTransGen step start s → ∀ l, (stack s).count l ≤ k) :
    Acc (flip step) start :=
  acc_of_length_le descends fun s reached =>
    length_le_of_count (inside s reached) (bounded s reached)

end Nesting
