import Verben.Lib.Search

/-!
# The pieces between the occurrences of a word

A text is cut where a word begins in it for the first time, and what is behind the word is cut in
the same way. There is one way to do this (`Pieces.unique`), the pieces with the word between them
are the text (`Pieces.join`), and pieces come out again of the text that they make if the word
does not begin before its place (`pieces_iff`).
-/

namespace Search

section Pieces

variable {α : Type*} {word text : List α} {pieces others : List (List α)}

/-- The pieces of a text. -/
inductive Pieces (word : List α) : List α → List (List α) → Prop
  | last {text : List α} (absent : ∀ i, ¬ word <+: text.drop i) : Pieces word text [text]
  | cut {piece rest : List α} {pieces : List (List α)}
      (first : First word (piece ++ (word ++ rest)) piece.length)
      (behind : Pieces word rest pieces) : Pieces word (piece ++ (word ++ rest)) (piece :: pieces)

theorem Pieces.ne_nil (cut : Pieces word text pieces) : pieces ≠ [] := by
  cases cut with
  | last => exact List.cons_ne_nil _ _
  | cut => exact List.cons_ne_nil _ _

theorem Pieces.join (cut : Pieces word text pieces) : word.intercalate pieces = text := by
  induction cut with
  | last absent => exact List.intercalate_singleton
  | cut first behind ih =>
      rw [List.intercalate_cons_of_ne_nil behind.ne_nil, ih, List.append_assoc]

/-- There is one first occurrence. -/
theorem First.unique {i j : Nat} (first : First word text i) (other : First word text j) :
    i = j := by
  rcases Nat.lt_trichotomy i j with less | same | less
  · exact absurd first.here (other.before i less)
  · exact same
  · exact absurd other.here (first.before j less)

theorem Pieces.unique (cut : Pieces word text pieces) (cut' : Pieces word text others) :
    pieces = others := by
  induction cut generalizing others with
  | last absent =>
      cases cut' with
      | last => rfl
      | cut first => exact absurd first.here (absent _)
  | @cut piece rest pieces first behind ih =>
      generalize whole : piece ++ (word ++ rest) = text at cut'
      cases cut' with
      | last absent => exact absurd (whole ▸ first.here) (absent _)
      | @cut piece' rest' pieces' first' behind' =>
          have length := (whole ▸ first).unique first'
          obtain ⟨rfl, tail⟩ := List.append_inj whole length
          rw [ih (List.append_cancel_left tail ▸ behind')]

/-- The first occurrence behind a place, and the pieces behind it. -/
theorem Pieces.of_place (inside : word ≠ []) {b j : Nat} (ordered : b ≤ j)
    (found : word <+: text.drop j) (absent : ∀ i, b ≤ i → i < j → ¬ word <+: text.drop i)
    (behind : Pieces word (text.drop (j + word.length)) pieces) :
    Pieces word (text.drop b) ((text.drop b).take (j - b) :: pieces) := by
  have there : (text.drop b).drop (j - b) = text.drop j := by
    rw [List.drop_drop, Nat.add_sub_cancel' ordered]
  have first : First word (text.drop b) (j - b) := by
    refine ⟨there ▸ found, fun i less => ?_⟩
    rw [List.drop_drop]
    exact absent (b + i) (Nat.le_add_right b i) (by omega)
  have length : ((text.drop b).take (j - b)).length = j - b :=
    List.length_take_of_le (Nat.le_of_add_right_le (first.length_le inside))
  have split : text.drop b = (text.drop b).take (j - b) ++
      (word ++ text.drop (j + word.length)) := by
    obtain ⟨rest, eq⟩ := found
    rw [← List.drop_drop, ← eq, List.drop_left, eq, ← there, List.take_append_drop]
  have first' : First word ((text.drop b).take (j - b) ++ (word ++ text.drop (j + word.length)))
      ((text.drop b).take (j - b)).length := by
    rw [← split, length]
    exact first
  have cut := Pieces.cut first' behind
  rwa [← split] at cut

/-- A word that begins nowhere before its place behind a piece. -/
theorem first_iff (piece rest : List α) :
    First word (piece ++ (word ++ rest)) piece.length ↔
      First word (piece ++ word) piece.length := by
  have shorter : ∀ j ≤ piece.length, word <+: (piece ++ (word ++ rest)).drop j ↔
      word <+: (piece ++ word).drop j := by
    intro j low
    rw [← List.append_assoc]
    refine prefix_drop_append ?_
    rw [List.length_append]
    omega
  constructor
  · rintro ⟨here, before⟩
    exact ⟨(shorter _ (Nat.le_refl _)).mp here,
      fun j less found => before j less ((shorter j (Nat.le_of_lt less)).mpr found)⟩
  · rintro ⟨here, before⟩
    exact ⟨(shorter _ (Nat.le_refl _)).mpr here,
      fun j less found => before j less ((shorter j (Nat.le_of_lt less)).mp found)⟩

/-- Which lists are the pieces of a text. -/
theorem pieces_iff : Pieces word text pieces ↔ word.intercalate pieces = text ∧
    ∃ init last, pieces = init ++ [last] ∧
      (∀ piece ∈ init, First word (piece ++ word) piece.length) ∧
      ∀ i, ¬ word <+: last.drop i := by
  constructor
  case mp =>
    intro cut
    refine ⟨cut.join, ?_⟩
    induction cut with
    | @last text absent => exact ⟨[], text, rfl, by simp, absent⟩
    | @cut piece rest pieces first behind ih =>
        obtain ⟨init, last, rfl, firsts, absent⟩ := ih
        refine ⟨piece :: init, last, rfl, ?_, absent⟩
        intro other mem
        rcases List.mem_cons.mp mem with rfl | mem
        · exact (first_iff other rest).mp first
        · exact firsts other mem
  case mpr =>
    rintro ⟨rfl, init, last, rfl, firsts, absent⟩
    induction init with
    | nil =>
        rw [List.nil_append, List.intercalate_singleton]
        exact .last absent
    | cons piece init ih =>
        rw [List.cons_append, List.intercalate_cons_of_ne_nil (by simp), List.append_assoc]
        exact .cut ((first_iff piece _).mpr (firsts piece List.mem_cons_self))
          (ih fun other mem => firsts other (List.mem_cons_of_mem _ mem))

end Pieces

end Search
