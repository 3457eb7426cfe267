import Mathlib.Data.List.Infix
import Mathlib.Tactic.Common

/-!
# The first occurrence of a word

`find word text` is the place where a word begins in a text for the first time. A place that is
found is found in every longer text too (`find_append`). A word that lacks the last letter of the
text does not begin in it and end behind it, so it is found in a longer text where it is found
in the text, or behind it (`find_append_of_none`).
-/

namespace Search

section Places

variable {α : Type*} {word text more : List α} {i : Nat}

/-- The place is the first one where the word begins. -/
structure First (word text : List α) (i : Nat) : Prop where
  here : word <+: text.drop i
  before : ∀ j < i, ¬ word <+: text.drop j

/-- The word is inside the text. -/
theorem First.length_le (first : First word text i) (inside : word ≠ []) :
    i + word.length ≤ text.length := by
  have length := first.here.length_le
  rw [List.length_drop] at length
  have := List.length_pos_of_ne_nil inside
  omega

/-- A word that begins in the text and ends in it, in a longer text. -/
theorem prefix_drop_append (ends : i + word.length ≤ text.length) :
    word <+: (text ++ more).drop i ↔ word <+: text.drop i := by
  rw [List.drop_append_of_le_length (Nat.le_trans (Nat.le_add_right i _) ends)]
  constructor
  case mp =>
    intro here
    refine List.prefix_of_prefix_length_le here (List.prefix_append _ _) ?_
    rw [List.length_drop]
    omega
  case mpr =>
    intro here
    exact here.trans (List.prefix_append _ _)

theorem First.append (first : First word text i) (inside : word ≠ []) (more : List α) :
    First word (text ++ more) i := by
  have ends := first.length_le inside
  refine ⟨(prefix_drop_append ends).mpr first.here, fun j less => ?_⟩
  rw [prefix_drop_append (by omega)]
  exact first.before j less

/-- A word without the last letter of the text cannot begin in the text and not end before this
letter. -/
theorem not_prefix_across {last : α} {init : List α} (foreign : last ∉ word)
    (begins : i < init.length + 1) (ends : init.length < i + word.length) :
    ¬ word <+: ((init ++ [last]) ++ more).drop i := by
  intro here
  have low : init.length - i < word.length := by omega
  have letter := List.IsPrefix.getElem here low
  rw [List.getElem_drop, List.getElem_append_left (by simp; omega),
    List.getElem_append_right (by omega)] at letter
  refine foreign ?_
  have same : word[init.length - i] = last := by
    rw [letter]
    simp
  rw [← same]
  exact List.getElem_mem low

/-- So it ends before the last letter. -/
theorem First.length_le_init {last : α} {init : List α} (first : First word (init ++ [last]) i)
    (inside : word ≠ []) (foreign : last ∉ word) : i + word.length ≤ init.length := by
  by_contra ends
  have length := first.length_le inside
  have := List.length_pos_of_ne_nil inside
  rw [List.length_append, List.length_singleton] at length
  have here := first.here
  rw [← List.append_nil (init ++ [last])] at here
  exact not_prefix_across foreign (by omega) (by omega) here

end Places

section Find

variable {α : Type*} [DecidableEq α] {word text more : List α} {i : Nat}

/-- The first place where the word begins. -/
def find (word text : List α) : Option Nat :=
  (List.range (text.length + 1)).find? fun i => decide (word <+: text.drop i)

theorem find_eq_some (inside : word ≠ []) :
    find word text = some i ↔ First word text i := by
  unfold find
  rw [List.find?_range_eq_some]
  constructor
  case mp =>
    rintro ⟨here, -, before⟩
    refine ⟨of_decide_eq_true here, fun j less => ?_⟩
    have absent := before j less
    rwa [Bool.not_eq_true', decide_eq_false_iff_not] at absent
  case mpr =>
    rintro ⟨here, before⟩
    refine ⟨decide_eq_true here, ?_, fun j less => ?_⟩
    · rw [List.mem_range]
      by_contra behind
      rw [List.drop_eq_nil_of_le (by omega), List.prefix_nil] at here
      exact inside here
    · rw [Bool.not_eq_true', decide_eq_false_iff_not]
      exact before j less

theorem find_eq_none (inside : word ≠ []) :
    find word text = none ↔ ∀ i, ¬ word <+: text.drop i := by
  unfold find
  rw [List.find?_range_eq_none]
  constructor
  case mp =>
    intro absent i here
    by_cases low : i < text.length + 1
    case pos =>
      have absent' := absent i low
      rw [Bool.not_eq_true', decide_eq_false_iff_not] at absent'
      exact absent' here
    case neg =>
      rw [List.drop_eq_nil_of_le (by omega), List.prefix_nil] at here
      exact inside here
  case mpr =>
    intro absent i _
    rw [Bool.not_eq_true', decide_eq_false_iff_not]
    exact absent i

/-- A word with a letter that is not in the text is not found. -/
theorem find_eq_none_of_not_mem {a : α} (mem : a ∈ word) (foreign : a ∉ text) :
    find word text = none := by
  rw [find_eq_none (List.ne_nil_of_mem mem)]
  intro i here
  exact foreign (List.mem_of_mem_drop (here.subset mem))

/-- A text that begins with the word. -/
theorem find_of_prefix (inside : word ≠ []) (begins : word <+: text) : find word text = some 0 :=
  (find_eq_some inside).mpr ⟨begins, fun _ less => absurd less (Nat.not_lt_zero _)⟩

/-- What is found stays where it is. -/
theorem find_append (inside : word ≠ []) (found : find word text = some i) (more : List α) :
    find word (text ++ more) = some i :=
  (find_eq_some inside).mpr (((find_eq_some inside).mp found).append inside more)

/-- A letter that is not in the word does not help to find it. -/
theorem find_concat_of_none {last : α} {init : List α} (inside : word ≠ []) (foreign : last ∉ word)
    (absent : find word init = none) : find word (init ++ [last]) = none := by
  cases found : find word (init ++ [last]) with
  | none => rfl
  | some i =>
      have first := (find_eq_some inside).mp found
      have ends := first.length_le_init inside foreign
      exact absurd ((prefix_drop_append ends).mp first.here) ((find_eq_none inside).mp absent i)

/-- Such a word, which is not in the text, is found behind it. -/
theorem find_append_of_none {last : α} {init : List α} (inside : word ≠ [])
    (foreign : last ∉ word) (absent : find word (init ++ [last]) = none) :
    find word ((init ++ [last]) ++ more) =
      (find word more).map ((init ++ [last]).length + ·) := by
  have absent' := (find_eq_none inside).mp absent
  have before : ∀ j < (init ++ [last]).length, ¬ word <+: ((init ++ [last]) ++ more).drop j := by
    intro j less
    rw [List.length_append, List.length_singleton] at less
    by_cases ends : j + word.length ≤ (init ++ [last]).length
    case pos =>
      rw [prefix_drop_append ends]
      exact absent' j
    case neg =>
      rw [List.length_append, List.length_singleton] at ends
      exact not_prefix_across foreign less (by omega)
  have behind : ∀ j, ((init ++ [last]) ++ more).drop ((init ++ [last]).length + j) =
      more.drop j := by
    intro j
    rw [List.drop_append, List.drop_eq_nil_of_le (Nat.le_add_right _ _), List.nil_append,
      Nat.add_sub_cancel_left]
  cases found : find word more with
  | none =>
      rw [Option.map_none, find_eq_none inside]
      intro j here
      by_cases less : j < (init ++ [last]).length
      case pos => exact before j less here
      case neg =>
        obtain ⟨k, rfl⟩ := Nat.exists_eq_add_of_le (Nat.le_of_not_lt less)
        rw [behind] at here
        exact (find_eq_none inside).mp found k here
  | some k =>
      have first := (find_eq_some inside).mp found
      rw [Option.map_some, find_eq_some inside]
      refine ⟨?_, fun j less here => ?_⟩
      · rw [behind]
        exact first.here
      · by_cases less' : j < (init ++ [last]).length
        case pos => exact before j less' here
        case neg =>
          obtain ⟨m, rfl⟩ := Nat.exists_eq_add_of_le (Nat.le_of_not_lt less')
          rw [behind] at here
          exact first.before m (by omega) here

end Find

end Search
