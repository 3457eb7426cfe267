import Mathlib.Data.Fintype.Pigeonhole
import Mathlib.Data.Set.Finite.List
import Mathlib.Logic.Relation
import Mathlib.Tactic.Common

/-!
# Orbits

A partial step is taken again and again from one state. Where it can only come to finitely many
states, it stops just when no state comes twice (`stops_iff`).
-/

namespace Orbit

variable {S : Type*} {step : S → Option S} {s t : S} {m n : Nat}

/-- The state after some steps, if there were so many. -/
def after (step : S → Option S) (s : S) : Nat → Option S
  | 0 => some s
  | n + 1 => (after step s n).bind step

theorem after_succ : after step s (n + 1) = (step s).bind (after step · n) := by
  induction n with
  | zero =>
      change (step s) = (step s).bind some
      rw [Option.bind_fun_some]
  | succ n ih =>
      change (after step s (n + 1)).bind step = _
      rw [ih, Option.bind_assoc]
      rfl

theorem after_add : after step s (m + n) = (after step s m).bind (after step · n) := by
  induction n with
  | zero => rw [Nat.add_zero]; exact (Option.bind_fun_some _).symm
  | succ n ih =>
      change (after step s (m + n)).bind step = _
      rw [ih, Option.bind_assoc]
      rfl

/-- What has stopped does not go on. -/
theorem after_eq_none (stopped : after step s m = none) (later : m ≤ n) :
    after step s n = none := by
  rw [← Nat.add_sub_cancel' later, after_add, stopped]
  rfl

/-- No state comes twice. -/
def Acyclic (step : S → Option S) (s : S) : Prop :=
  ∀ i j t, i < j → after step s i = some t → after step s j ≠ some t

/-- From a state that comes again, it comes again and again. -/
theorem after_mul (again : after step t m = some t) (k : Nat) :
    after step t (k * m) = some t := by
  induction k with
  | zero => rw [Nat.zero_mul]; rfl
  | succ k ih => rw [Nat.succ_mul, after_add, ih, Option.bind_some, again]

theorem acyclic_of_stops (stops : ∃ n, after step s n = none) : Acyclic step s := by
  obtain ⟨n, stopped⟩ := stops
  intro i j t before first second
  have again : after step t (j - i) = some t := by
    rw [← Nat.add_sub_cancel' (Nat.le_of_lt before), after_add, first, Option.bind_some] at second
    exact second
  have round := after_mul again n
  have late : n ≤ i + n * (j - i) :=
    Nat.le_trans (Nat.le_mul_of_pos_right n (Nat.sub_pos_of_lt before)) (Nat.le_add_left _ _)
  have gone := after_eq_none stopped late
  rw [after_add, first, Option.bind_some, round] at gone
  cases gone

/-- With finitely many states to come to, one of them comes twice, or there is a stop. -/
theorem stops_of_acyclic (finite : {t | ∃ n, after step s n = some t}.Finite)
    (acyclic : Acyclic step s) : ∃ n, after step s n = none := by
  by_contra never
  have goes : ∀ n, ∃ t, after step s n = some t := by
    intro n
    exact Option.ne_none_iff_exists'.mp fun stopped => never ⟨n, stopped⟩
  choose state at' using goes
  have := finite.to_subtype
  obtain ⟨i, j, ne, same⟩ := Finite.exists_ne_map_eq_of_infinite
    fun n => (⟨state n, n, at' n⟩ : {t | ∃ n, after step s n = some t})
  have same : state i = state j := congrArg Subtype.val same
  rcases Nat.lt_or_gt_of_ne ne with before | before
  · exact acyclic i j _ before (at' i) (same ▸ at' j)
  · exact acyclic j i _ before (at' j) (same ▸ at' i)

/-- One step leads from `s` to `t`. -/
def Leads (step : S → Option S) (s t : S) : Prop := step s = some t

theorem reflTransGen_leads :
    Relation.ReflTransGen (Leads step) s t ↔ ∃ n, after step s n = some t := by
  constructor
  · intro reached
    induction reached with
    | refl => exact ⟨0, rfl⟩
    | tail _ leads ih =>
        obtain ⟨n, at'⟩ := ih
        exact ⟨n + 1, Option.bind_eq_some_iff.mpr ⟨_, at', leads⟩⟩
  · rintro ⟨n, at'⟩
    induction n generalizing t with
    | zero =>
        cases at'
        exact .refl
    | succ n ih =>
        obtain ⟨u, before, leads⟩ := Option.bind_eq_some_iff.mp at'
        exact (ih before).tail leads

theorem transGen_leads :
    Relation.TransGen (Leads step) s t ↔ ∃ n, after step s (n + 1) = some t := by
  rw [Relation.TransGen.tail'_iff]
  constructor
  · rintro ⟨u, reached, leads⟩
    obtain ⟨n, at'⟩ := reflTransGen_leads.mp reached
    exact ⟨n, Option.bind_eq_some_iff.mpr ⟨u, at', leads⟩⟩
  · rintro ⟨n, at'⟩
    obtain ⟨u, before, leads⟩ := Option.bind_eq_some_iff.mp at'
    exact ⟨u, reflTransGen_leads.mpr ⟨n, before⟩, leads⟩

/-- No state comes twice just when none that is reached leads back to itself. -/
theorem acyclic_iff_leads :
    Acyclic step s ↔
      ∀ t, Relation.ReflTransGen (Leads step) s t → ¬ Relation.TransGen (Leads step) t t := by
  constructor
  · intro acyclic t reached back
    obtain ⟨i, first⟩ := reflTransGen_leads.mp reached
    obtain ⟨n, again⟩ := transGen_leads.mp back
    refine acyclic i (i + (n + 1)) t (Nat.lt_add_of_pos_right n.succ_pos) first ?_
    rw [after_add, first, Option.bind_some, again]
  · intro noneBack i j t before first second
    refine noneBack t (reflTransGen_leads.mpr ⟨i, first⟩) (transGen_leads.mpr ⟨j - i - 1, ?_⟩)
    rw [← Nat.add_sub_cancel' (Nat.le_of_lt before), after_add, first, Option.bind_some] at second
    rwa [Nat.sub_add_cancel (Nat.sub_pos_of_lt before)]

theorem stops_iff (finite : {t | ∃ n, after step s n = some t}.Finite) :
    (∃ n, after step s n = none) ↔ Acyclic step s :=
  ⟨acyclic_of_stops, stops_of_acyclic finite⟩

end Orbit
