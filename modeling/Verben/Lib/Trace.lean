import Mathlib.Data.List.Nodup
import Mathlib.Tactic.Common

/-!
# Order of events

A log is a list of events, the oldest first. `Precedes log a b` says that `a` occurs
in the log and `b` behind it. In a log without repetitions this is a strict order,
total on its events. A projection of the log keeps the order, and so does a queue
that gives out what it took in (`Precedes.of_append`).
-/

namespace Trace

variable {α β : Type*}

/-- `a` occurs in the log, and `b` behind it. -/
def Precedes (log : List α) (a b : α) : Prop := [a, b].Sublist log

instance [DecidableEq α] (log : List α) (a b : α) : Decidable (Precedes log a b) :=
  inferInstanceAs (Decidable ([a, b].Sublist log))

variable {log log' : List α} {a b c : α}

theorem precedes_iff :
    Precedes log a b ↔ ∃ early late, log = early ++ late ∧ a ∈ early ∧ b ∈ late := by
  unfold Precedes
  rw [List.cons_sublist_iff]
  simp only [List.singleton_sublist]

theorem Precedes.mem (order : Precedes log a b) : a ∈ log ∧ b ∈ log := by
  obtain ⟨early, late, rfl, first, second⟩ := precedes_iff.mp order
  exact ⟨List.mem_append_left _ first, List.mem_append_right _ second⟩

theorem Precedes.mono (order : Precedes log a b) (kept : log.Sublist log') :
    Precedes log' a b := List.Sublist.trans order kept

/-- The order of a log that grows by one event. -/
theorem precedes_concat (log : List α) (x : α) :
    Precedes (log ++ [x]) a b ↔ Precedes log a b ∨ (a ∈ log ∧ b = x) := by
  constructor
  · intro order
    obtain ⟨early, late, split, first, second⟩ := precedes_iff.mp order
    rcases List.eq_nil_or_concat late with rfl | ⟨late, y, rfl⟩
    · cases second
    · rw [List.concat_eq_append, ← List.append_assoc] at split
      obtain ⟨rfl, same⟩ := List.append_inj' split rfl
      cases same
      rw [List.concat_eq_append] at second
      rcases List.mem_append.mp second with second | last
      · exact .inl (precedes_iff.mpr ⟨early, late, rfl, first, second⟩)
      · exact .inr ⟨List.mem_append_left _ first, List.mem_singleton.mp last⟩
  · intro either
    rcases either with order | ⟨first, rfl⟩
    · exact order.mono (List.sublist_append_left _ _)
    · exact precedes_iff.mpr ⟨log, [b], rfl, first, List.mem_singleton_self b⟩

/-- Two events of a log are in some order. -/
theorem precedes_or_precedes (first : a ∈ log) (second : b ∈ log) (ne : a ≠ b) :
    Precedes log a b ∨ Precedes log b a := by
  obtain ⟨early, late, rfl⟩ := List.append_of_mem first
  rcases List.mem_append.mp second with mem | mem
  · exact .inr (precedes_iff.mpr ⟨early, a :: late, rfl, mem, List.mem_cons_self⟩)
  · rcases List.mem_cons.mp mem with same | mem
    · exact absurd same.symm ne
    · exact .inl (precedes_iff.mpr ⟨early ++ [a], late, by simp, by simp, mem⟩)

theorem Precedes.trans (nodup : log.Nodup) (order : Precedes log a b)
    (order' : Precedes log b c) : Precedes log a c := by
  obtain ⟨early, late, split, first, second⟩ := precedes_iff.mp order
  obtain ⟨early', late', split', second', third⟩ := precedes_iff.mp order'
  refine precedes_iff.mpr ⟨early', late', split', ?_, third⟩
  rcases List.append_eq_append_iff.mp (split.symm.trans split') with
    ⟨between, rfl, _⟩ | ⟨between, _, rfl⟩
  · exact List.mem_append_left _ first
  · -- otherwise `b` occurs in both parts
    rw [split'] at nodup
    exact absurd rfl
      ((List.nodup_append.mp nodup).2.2 b second' b (List.mem_append_right _ second))

theorem Precedes.irrefl (nodup : log.Nodup) (a : α) : ¬ Precedes log a a :=
  List.nodup_iff_sublist.mp nodup a

theorem Precedes.asymm (nodup : log.Nodup) (order : Precedes log a b) : ¬ Precedes log b a :=
  fun order' => Precedes.irrefl nodup a (order.trans nodup order')

/-- What comes out first came in first. -/
theorem Precedes.of_append {queue : List α} (nodup : (log ++ queue).Nodup)
    (order : Precedes (log ++ queue) a b) (first : a ∈ log) (second : b ∈ log) :
    Precedes log a b := by
  have ne : a ≠ b := by
    intro same
    subst same
    exact Precedes.irrefl nodup a order
  rcases precedes_or_precedes first second ne with same | other
  · exact same
  · exact absurd (other.mono (List.sublist_append_left _ _)) (order.asymm nodup)

/-! ## Projections -/

section Projection

variable {f : α → Option β} {x y : β}

theorem precedes_filterMap :
    Precedes (log.filterMap f) x y ↔ ∃ a b, f a = some x ∧ f b = some y ∧ Precedes log a b := by
  constructor
  · intro order
    obtain ⟨early, late, split, first, second⟩ := precedes_iff.mp order
    obtain ⟨before, behind, rfl, rfl, rfl⟩ := List.filterMap_eq_append_iff.mp split
    obtain ⟨a, memA, fa⟩ := List.mem_filterMap.mp first
    obtain ⟨b, memB, fb⟩ := List.mem_filterMap.mp second
    exact ⟨a, b, fa, fb, precedes_iff.mpr ⟨before, behind, rfl, memA, memB⟩⟩
  · intro both
    rcases both with ⟨a, b, fa, fb, order⟩
    have projected := List.Sublist.filterMap f order
    rwa [List.filterMap_cons_some fa, List.filterMap_cons_some fb, List.filterMap_nil] at projected

/-- A projection without repetitions has each of its values from one event. -/
theorem eq_of_filterMap_nodup (nodup : (log.filterMap f).Nodup) (memA : a ∈ log) (memB : b ∈ log)
    (fa : f a = some x) (fb : f b = some x) : a = b := by
  by_contra ne
  rcases precedes_or_precedes memA memB ne with order | order
  · exact Precedes.irrefl nodup x (precedes_filterMap.mpr ⟨a, b, fa, fb, order⟩)
  · exact Precedes.irrefl nodup x (precedes_filterMap.mpr ⟨b, a, fb, fa, order⟩)

end Projection

end Trace
