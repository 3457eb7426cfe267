import Mathlib.Data.List.DropRight
import Mathlib.Tactic.Common

/-!
# Runs between separators

The runs of a list are its maximal parts without a separator that are not empty. A list is
cut into at most `n` fields (`Fields`): the first `n - 1` are runs, and one more is the rest
of the list from the `n`-th run on, up to the last element that is no separator.

To cut, step over separators (`runs_dropWhile`) and take a run (`runs_cons`).
-/

namespace Runs

variable {α : Type*} {sep : α → Bool} {s : List α}

/-- The maximal parts without a separator, in order. -/
def runs (sep : α → Bool) (s : List α) : List (List α) := (s.splitOnP sep).filter (! ·.isEmpty)

/-- The rest of a list from its `k`-th run on, counted from 0. -/
structure From (sep : α → Bool) (s : List α) (k : Nat) (rest : List α) : Prop where
  suffix : rest <:+ s
  starts : ∃ b tail, rest = b :: tail ∧ sep b = false
  left : runs sep rest = (runs sep s).drop k

/-- A list cut into at most `n` fields. -/
structure Fields (sep : α → Bool) (s : List α) (n : Nat) (fields : List (List α)) : Prop where
  count : fields.length = min n (runs sep s).length
  firsts : fields.take (n - 1) = (runs sep s).take (n - 1)
  last : n ≤ (runs sep s).length →
    ∃ rest, From sep s (n - 1) rest ∧ fields[n - 1]? = some (rest.rdropWhile sep)

theorem runs_nil : runs sep [] = [] := by
  unfold runs
  rw [List.splitOnP_nil]
  rfl

theorem runs_cons_sep {b : α} (is : sep b = true) (s : List α) :
    runs sep (b :: s) = runs sep s := by
  unfold runs
  rw [List.splitOnP_cons_eq_if_modifyHead, if_pos is]
  rfl

/-- Separators at the front do not matter. -/
theorem runs_dropWhile (sep : α → Bool) (s : List α) :
    runs sep (s.dropWhile sep) = runs sep s := by
  induction s with
  | nil => rfl
  | cons b s ih =>
      by_cases is : sep b = true
      · rw [List.dropWhile_cons_of_pos is, ih, runs_cons_sep is]
      · rw [List.dropWhile_cons_of_neg is]

theorem filter_word {word : List α} (nonempty : word ≠ []) (words : List (List α)) :
    (word :: words).filter (! ·.isEmpty) = word :: words.filter (! ·.isEmpty) :=
  List.filter_cons_of_pos (by simpa using nonempty)

/-- The first run ends where the first separator is. -/
theorem runs_cons {b : α} (word : sep b = false) (s : List α) :
    runs sep (b :: s) =
      (b :: s).takeWhile (!sep ·) :: runs sep ((b :: s).dropWhile (!sep ·)) := by
  have split : (b :: s).takeWhile (!sep ·) ++ (b :: s).dropWhile (!sep ·) = b :: s :=
    List.takeWhile_append_dropWhile
  have clean : ∀ c ∈ (b :: s).takeWhile (!sep ·), sep c = false := fun c mem => by
    simpa using List.mem_takeWhile_imp mem
  have nonempty : (b :: s).takeWhile (!sep ·) ≠ [] := by simp [word]
  cases left : (b :: s).dropWhile (!sep ·) with
  | nil =>
      rw [left, List.append_nil] at split
      rw [split] at clean nonempty
      rw [split, runs_nil]
      unfold runs
      rw [List.splitOnP_eq_singleton clean, filter_word nonempty, List.filter_nil]
  | cons c rest =>
      have is : sep c = true := by
        have stop := List.head_dropWhile_not (!sep ·) (l := b :: s) (by simp [left])
        simpa [left] using stop
      rw [left] at split
      rw [runs_cons_sep is]
      conv_lhs => rw [← split]
      unfold runs
      rw [List.splitOnP_append_cons_of_forall_mem clean c is, filter_word nonempty]

theorem From.of_suffix {s' rest : List α} {k k' : Nat} (from' : From sep s' k rest)
    (suffix : s' <:+ s) (same : (runs sep s').drop k = (runs sep s).drop k') :
    From sep s k' rest :=
  ⟨from'.suffix.trans suffix, from'.starts, from'.left.trans same⟩

/-- A list of separators has no fields. -/
theorem fields_nil {n : Nat} (none : s.dropWhile sep = []) (positive : 1 ≤ n) :
    Fields sep s n [] := by
  have empty : runs sep s = [] := by rw [← runs_dropWhile, none, runs_nil]
  constructor
  case count => rw [empty, List.length_nil, Nat.min_zero]
  case firsts => rw [empty]
  case last =>
    intro enough
    rw [empty, List.length_nil] at enough
    omega

/-- One field holds all that is between the separators at both ends. -/
theorem fields_one {b : α} {rest : List α} (left : s.dropWhile sep = b :: rest)
    (word : sep b = false) : Fields sep s 1 [(b :: rest).rdropWhile sep] := by
  have same : runs sep (b :: rest) = runs sep s := by rw [← left, runs_dropWhile]
  have some : 1 ≤ (runs sep s).length := by
    rw [← same, runs_cons word]
    exact Nat.succ_le_succ (Nat.zero_le _)
  constructor
  case count => exact (Nat.min_eq_left some).symm
  case firsts => rfl
  case last =>
    exact fun _ => ⟨_, ⟨left ▸ List.dropWhile_suffix sep, ⟨b, rest, rfl, word⟩, same⟩, rfl⟩

/-- A run, and the fields of what is behind it. -/
theorem fields_cons {b : α} {rest : List α} {n : Nat} {fields : List (List α)}
    (left : s.dropWhile sep = b :: rest) (word : sep b = false) (positive : 1 ≤ n)
    (others : Fields sep ((b :: rest).dropWhile (!sep ·)) n fields) :
    Fields sep s (n + 1) ((b :: rest).takeWhile (!sep ·) :: fields) := by
  have all : runs sep s = (b :: rest).takeWhile (!sep ·) ::
      runs sep ((b :: rest).dropWhile (!sep ·)) := by
    rw [← runs_dropWhile, left, runs_cons word]
  obtain ⟨m, rfl⟩ := Nat.exists_eq_add_of_le' positive
  constructor
  case count =>
    rw [all, List.length_cons, List.length_cons, others.count]
    omega
  case firsts =>
    have := others.firsts
    rw [Nat.add_sub_cancel] at this ⊢
    rw [all, List.take_succ_cons, List.take_succ_cons, this]
  case last =>
    intro enough
    rw [all, List.length_cons] at enough
    obtain ⟨tail, from', field⟩ := others.last (by omega)
    rw [Nat.add_sub_cancel] at from' field ⊢
    have suffix : (b :: rest).dropWhile (!sep ·) <:+ s :=
      (List.dropWhile_suffix _).trans (left ▸ List.dropWhile_suffix sep)
    refine ⟨tail, from'.of_suffix suffix ?_, field⟩
    rw [all, List.drop_succ_cons]

end Runs
