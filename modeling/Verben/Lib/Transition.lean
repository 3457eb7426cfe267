import Mathlib.Logic.Relation
import Mathlib.Tactic.Common

/-!
# Guarded transition systems

A system is a partial step function `step : S → A → Option S`; the action
carries every choice of the environment. `Reach step ok` relates a state to the
states its runs reach in which every action meets the guard `ok`, a condition
on the state before the step and the action. The unguarded runs are those of
`fun _ _ => True`.

`Reach.invariant` is the induction rule: an invariant is proved of the first
state and of one step. `run` replays a given list of actions, so a concrete run
can be evaluated.
-/

namespace Transition

variable {S A : Type*} {step : S → A → Option S} {ok : S → A → Prop}

/-- One step by an action that meets the guard. -/
def Step (step : S → A → Option S) (ok : S → A → Prop) (s t : S) : Prop :=
  ∃ a, ok s a ∧ step s a = some t

/-- The states runs of guarded steps reach. -/
abbrev Reach (step : S → A → Option S) (ok : S → A → Prop) : S → S → Prop :=
  Relation.ReflTransGen (Step step ok)

/-- The guard that admits every action. -/
abbrev always : S → A → Prop := fun _ _ => True

/-- A property of the first state that guarded steps keep holds wherever the
run goes. -/
theorem Reach.invariant {P : S → Prop} {s t : S} (reach : Reach step ok s t) (init : P s)
    (keep : ∀ {s a t}, P s → ok s a → step s a = some t → P t) : P t := by
  induction reach with
  | refl => exact init
  | tail _ taken ih =>
      rcases taken with ⟨a, guard, stepped⟩
      exact keep ih guard stepped

theorem Reach.weaken {ok' : S → A → Prop} {s t : S} (reach : Reach step ok s t)
    (weaker : ∀ {s a}, ok s a → ok' s a) : Reach step ok' s t := by
  induction reach with
  | refl => exact .refl
  | tail _ taken ih =>
      rcases taken with ⟨a, guard, stepped⟩
      exact ih.tail ⟨a, weaker guard, stepped⟩

/-- Replay a list of actions. -/
def run (step : S → A → Option S) : S → List A → Option S
  | s, [] => some s
  | s, a :: as => (step s a).bind (run step · as)

theorem reach_of_run {s t : S} {as : List A} (ran : run step s as = some t) :
    Reach step always s t := by
  induction as generalizing s with
  | nil =>
      cases ran
      exact .refl
  | cons a as ih =>
      obtain ⟨u, stepped, rest⟩ := Option.bind_eq_some_iff.mp ran
      exact .head ⟨a, trivial, stepped⟩ (ih rest)

theorem run_cons {s t u : S} {a : A} {as : List A} (stepped : step s a = some t)
    (ran : run step t as = some u) : run step s (a :: as) = some u := by
  unfold run
  rw [stepped]
  exact ran

theorem run_append (s : S) (as bs : List A) :
    run step s (as ++ bs) = (run step s as).bind (run step · bs) := by
  induction as generalizing s with
  | nil => rfl
  | cons a as ih =>
      simp only [List.cons_append, run]
      cases step s a with
      | none => rfl
      | some t => exact ih t

/-- One more time the same action. -/
theorem run_concat {s t u : S} {a : A} {n : Nat}
    (ran : run step s (List.replicate n a) = some t) (stepped : step t a = some u) :
    run step s (List.replicate (n + 1) a) = some u := by
  rw [List.replicate_succ', run_append, ran]
  exact run_cons stepped rfl

/-- Replay a list of actions as long as they meet the guard. -/
def runGuarded (step : S → A → Option S) (ok : S → A → Prop) [∀ s a, Decidable (ok s a)] :
    S → List A → Option S
  | s, [] => some s
  | s, a :: as => if ok s a then (step s a).bind (runGuarded step ok · as) else none

theorem reach_of_runGuarded [∀ s a, Decidable (ok s a)] {s t : S} {as : List A}
    (ran : runGuarded step ok s as = some t) : Reach step ok s t := by
  induction as generalizing s with
  | nil =>
      cases ran
      exact .refl
  | cons a as ih =>
      unfold runGuarded at ran
      split at ran
      · next guard =>
          obtain ⟨u, stepped, rest⟩ := Option.bind_eq_some_iff.mp ran
          exact .head ⟨a, guard, stepped⟩ (ih rest)
      · cases ran

/-! ## What holds along a run -/

/-- Every action of a run meets a condition in the state where it is taken. -/
def Along (step : S → A → Option S) (ok : S → A → Prop) : S → List A → Prop
  | _, [] => True
  | s, a :: as => ok s a ∧ ∀ t, step s a = some t → Along step ok t as

/-- Every state of a run has a property, the first and the last one too. -/
def Throughout (step : S → A → Option S) (P : S → Prop) : S → List A → Prop
  | s, [] => P s
  | s, a :: as => P s ∧ ∀ t, step s a = some t → Throughout step P t as

theorem along_of_runGuarded [∀ s a, Decidable (ok s a)] {s : S} {as : List A}
    (ran : (runGuarded step ok s as).isSome) : Along step ok s as := by
  induction as generalizing s with
  | nil => trivial
  | cons a as ih =>
      unfold runGuarded at ran
      split at ran
      · next guard =>
          refine ⟨guard, fun t stepped => ih ?_⟩
          rwa [stepped, Option.bind_some] at ran
      · cases ran

theorem Along.append {s : S} {as bs : List A} (first : Along step ok s as)
    (second : ∀ t, run step s as = some t → Along step ok t bs) : Along step ok s (as ++ bs) := by
  induction as generalizing s with
  | nil => exact second s rfl
  | cons a as ih =>
      refine ⟨first.1, fun t stepped => ih (first.2 t stepped) fun u ran => second u ?_⟩
      exact run_cons stepped ran

theorem Throughout.head {P : S → Prop} {s : S} {as : List A}
    (throughout : Throughout step P s as) : P s := by
  cases as with
  | nil => exact throughout
  | cons a as => exact throughout.1

theorem Throughout.of_append {P : S → Prop} {s : S} {as bs : List A}
    (throughout : Throughout step P s (as ++ bs)) : Throughout step P s as := by
  induction as generalizing s with
  | nil => exact throughout.head
  | cons a as ih => exact ⟨throughout.1, fun t stepped => ih (throughout.2 t stepped)⟩

/-- Where actions that meet a condition are taken and keep an invariant, and one that does not
spoils the property at once, a run is right exactly if all of its actions meet the condition. -/
theorem along_iff {Inv P : S → Prop} (right : ∀ {s}, Inv s → P s)
    (keep : ∀ {s a}, Inv s → ok s a → ∃ t, step s a = some t ∧ Inv t)
    (spoil : ∀ {s a t}, Inv s → step s a = some t → P t → ok s a) {s : S} (inv : Inv s)
    (as : List A) :
    ((run step s as).isSome ∧ Throughout step P s as) ↔ Along step ok s as := by
  induction as generalizing s with
  | nil => exact ⟨fun _ => trivial, fun _ => ⟨rfl, right inv⟩⟩
  | cons a as ih =>
      constructor
      case mp =>
        rintro ⟨ends, -, rest⟩
        obtain ⟨u, ran⟩ := Option.isSome_iff_exists.mp ends
        obtain ⟨t, stepped, ran'⟩ := Option.bind_eq_some_iff.mp ran
        have meets := spoil inv stepped (rest t stepped).head
        obtain ⟨t', same, inv'⟩ := keep inv meets
        cases same.symm.trans stepped
        refine ⟨meets, fun t' same => ?_⟩
        cases same.symm.trans stepped
        refine (ih inv').mp ⟨?_, rest t stepped⟩
        rw [ran']
        rfl
      case mpr =>
        rintro ⟨meets, rest⟩
        obtain ⟨t, stepped, inv'⟩ := keep inv meets
        obtain ⟨ends, throughout⟩ := (ih inv').mpr (rest t stepped)
        refine ⟨?_, right inv, fun t' same => ?_⟩
        · unfold run
          rw [stepped]
          exact ends
        · cases same.symm.trans stepped
          exact throughout

/-! ## Simulation -/

/-- Where each action that is allowed takes two systems on alike, a run of allowed actions goes
through in both. -/
theorem run_of_simulates {T : Type*} {step' : T → A → Option T} {allowed : T → A → Prop}
    {R : S → T → Prop}
    (simulates : ∀ {s t a}, R s t → allowed t a →
      ∃ s' t', step s a = some s' ∧ step' t a = some t' ∧ R s' t')
    {s : S} {t : T} {as : List A} (related : R s t) (all : Along step' allowed t as) :
    ∃ s' t', run step s as = some s' ∧ run step' t as = some t' ∧ R s' t' := by
  induction as generalizing s t with
  | nil => exact ⟨s, t, rfl, rfl, related⟩
  | cons a as ih =>
      obtain ⟨u, v, stepped, stepped', related'⟩ := simulates related all.1
      obtain ⟨s', t', ran, ran', ends⟩ := ih related' (all.2 v stepped')
      exact ⟨s', t', run_cons stepped ran, run_cons stepped' ran', ends⟩

/-! ## Variants -/

section Variants

variable {P : S → Prop} (variant : S → Nat) (counted : A → Bool) {may : A → Prop} {s t : S}
  {as : List A}

/-- Where the counted actions bring a variant down and no other action brings it up, a run has
no more of them than the variant was at its start. -/
theorem countP_add_le
    (down : ∀ {s a t}, P s → may a → step s a = some t →
      P t ∧ variant t + (if counted a then 1 else 0) ≤ variant s)
    (inv : P s) (all : ∀ a ∈ as, may a) (ran : run step s as = some t) :
    P t ∧ as.countP counted + variant t ≤ variant s := by
  induction as generalizing s with
  | nil =>
      cases ran
      exact ⟨inv, Nat.le_of_eq (Nat.zero_add _)⟩
  | cons a as ih =>
      obtain ⟨u, stepped, rest⟩ := Option.bind_eq_some_iff.mp ran
      obtain ⟨inv', less⟩ := down inv (all a List.mem_cons_self) stepped
      obtain ⟨inv'', fewer⟩ := ih inv' (fun b mem => all b (List.mem_cons_of_mem _ mem)) rest
      refine ⟨inv'', ?_⟩
      rw [List.countP_cons]
      omega

/-- Where some action brings the variant down as long as it is not zero, there is a run of such
actions to its end. -/
theorem exists_run_to_zero (may : A → Prop)
    (down : ∀ {s}, P s → variant s ≠ 0 →
      ∃ a t, may a ∧ step s a = some t ∧ P t ∧ variant t < variant s) (inv : P s) :
    ∃ as t, (∀ a ∈ as, may a) ∧ run step s as = some t ∧ P t ∧ variant t = 0 := by
  induction measure : variant s using Nat.strongRecOn generalizing s with
  | ind n ih =>
      by_cases zero : variant s = 0
      · exact ⟨[], s, nofun, rfl, inv, zero⟩
      · obtain ⟨a, u, goes, stepped, inv', less⟩ := down inv zero
        obtain ⟨as, t, all, ran, ends⟩ := ih _ (measure ▸ less) inv' rfl
        exact ⟨a :: as, t, List.forall_mem_cons.mpr ⟨goes, all⟩, run_cons stepped ran, ends⟩

end Variants

end Transition
