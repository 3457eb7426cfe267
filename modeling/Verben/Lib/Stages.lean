import Mathlib.Data.List.Infix
import Mathlib.Tactic.Common

/-!
# The states between the steps of a fold

A program that makes a list of small updates, one after the other, passes through
one state for each prefix of the list. `Stages f P s as` says that `P` holds in all
of them, from `s` to the last. It is proved along the list: `stages_cons` for one
update, `stages_append` for two parts.
-/

namespace Fold

variable {S A : Type*} {f : S → A → S} {P : S → Prop} {s : S} {a : A} {as bs : List A}

/-- `P` holds after every prefix of the updates. -/
def Stages (f : S → A → S) (P : S → Prop) (s : S) (as : List A) : Prop :=
  ∀ pre, pre <+: as → P (pre.foldl f s)

theorem stages_nil : Stages f P s [] ↔ P s := by
  constructor
  · intro each
    exact each [] (List.prefix_refl _)
  · intro first pre before
    rw [List.prefix_nil.mp before]
    exact first

theorem stages_cons : Stages f P s (a :: as) ↔ P s ∧ Stages f P (f s a) as := by
  constructor
  · intro each
    refine ⟨each [] List.nil_prefix, ?_⟩
    intro pre before
    exact each (a :: pre) (List.cons_prefix_cons.mpr ⟨rfl, before⟩)
  · intro both pre before
    rcases both with ⟨first, rest⟩
    cases pre with
    | nil => exact first
    | cons b pre =>
        obtain ⟨same, inside⟩ := List.cons_prefix_cons.mp before
        subst same
        exact rest pre inside

theorem Stages.first (each : Stages f P s as) : P s := each [] List.nil_prefix

theorem stages_append :
    Stages f P s (as ++ bs) ↔ Stages f P s as ∧ Stages f P (as.foldl f s) bs := by
  induction as generalizing s with
  | nil =>
      rw [stages_nil, List.nil_append]
      exact ⟨fun each => ⟨each.first, each⟩, fun both => both.2⟩
  | cons a as ih => rw [List.cons_append, stages_cons, stages_cons, ih, List.foldl_cons, and_assoc]

/-- A property that every update of the list keeps. -/
theorem Stages.of_keep {Q : A → Prop} (keep : ∀ {s a}, P s → Q a → P (f s a)) (first : P s)
    (updates : ∀ a ∈ as, Q a) : Stages f P s as := by
  induction as generalizing s with
  | nil => exact stages_nil.mpr first
  | cons a as ih =>
      have one := keep first (updates a List.mem_cons_self)
      exact stages_cons.mpr ⟨first, ih one fun b mem => updates b (List.mem_cons_of_mem _ mem)⟩

/-- All states but the last. -/
theorem Stages.proper (each : Stages f P s as) {pre : List A} (before : pre <+: as ++ [a])
    (proper : pre ≠ as ++ [a]) : P (pre.foldl f s) := by
  rcases List.prefix_concat_iff.mp before with same | before
  · exact absurd same proper
  · exact each pre before

end Fold
