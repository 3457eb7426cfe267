import Mathlib.Data.List.Induction
import Mathlib.Tactic.Common

/-!
# Greedy framing

A framing function gives the length of the first frame of a stream, or 0 while it
is unknown. `frames f s` are the frames that a receiver finds in `s` one after the
other, and `rest f s` is what is left.

`oneEach` is a receiver that looks for a frame once for each piece of the stream
that arrives. It finds a prefix of the frames (`frames_of_oneEach`), and all of
them unless the pieces at the end complete more frames than they are
(`oneEach_eq_frames_iff`).
-/

namespace Framing

variable {α : Type*}

/-- A length that is known does not change when the stream grows. -/
def PrefixStable (f : List α → Nat) : Prop := ∀ s t, f s ≠ 0 → f (s ++ t) = f s

/-- The first frame is complete. -/
def Complete (f : List α → Nat) (s : List α) : Prop := 0 < f s ∧ f s ≤ s.length

instance (f : List α → Nat) (s : List α) : Decidable (Complete f s) :=
  inferInstanceAs (Decidable (_ ∧ _))

/-- The complete frames of a stream and what is left, with a bound on their number. -/
def split (f : List α → Nat) : Nat → List α → List (List α) × List α
  | 0, s => ([], s)
  | fuel + 1, s =>
      if Complete f s then
        (s.take (f s) :: (split f fuel (s.drop (f s))).1, (split f fuel (s.drop (f s))).2)
      else
        ([], s)

/-- The complete frames of a stream. -/
def frames (f : List α → Nat) (s : List α) : List (List α) := (split f s.length s).1

/-- What is left of a stream behind its complete frames. -/
def rest (f : List α → Nat) (s : List α) : List α := (split f s.length s).2

variable {f : List α → Nat} {s t : List α}

/-- A frame has at least one byte, so the length of the stream is bound enough. -/
theorem split_stable {fuel fuel' : Nat} (enough : s.length ≤ fuel) (enough' : s.length ≤ fuel') :
    split f fuel s = split f fuel' s := by
  have empty : ∀ {n : Nat}, s.length = 0 → split f n s = ([], s) := by
    intro n len
    have incomplete : ¬ Complete f s := by
      intro both
      rcases both with ⟨positive, inside⟩
      omega
    cases n with
    | zero => rfl
    | succ n => exact if_neg incomplete
  induction fuel generalizing s fuel' with
  | zero =>
      have len := Nat.le_zero.mp enough
      rw [empty len, empty len]
  | succ fuel ih =>
      cases fuel' with
      | zero =>
          have len := Nat.le_zero.mp enough'
          rw [empty len, empty len]
      | succ fuel' =>
          unfold split
          split
          · next complete =>
              rcases complete with ⟨positive, inside⟩
              have shorter := List.length_drop (l := s) (i := f s)
              have same : split f fuel (s.drop (f s)) = split f fuel' (s.drop (f s)) := by
                refine ih (by omega) (by omega) fun {n} len => ?_
                have incomplete : ¬ Complete f (s.drop (f s)) := by
                  intro both
                  rcases both with ⟨positive', inside'⟩
                  omega
                cases n with
                | zero => rfl
                | succ n => exact if_neg incomplete
              rw [same]
          · rfl

theorem split_of_complete (complete : Complete f s) :
    split f s.length s =
      (s.take (f s) :: frames f (s.drop (f s)), rest f (s.drop (f s))) := by
  rcases complete with ⟨positive, inside⟩
  have shorter := List.length_drop (l := s) (i := f s)
  obtain ⟨n, len⟩ : ∃ n, s.length = n + 1 := ⟨s.length - 1, by omega⟩
  rw [len]
  unfold split
  rw [if_pos ⟨positive, inside⟩, split_stable
    (show (s.drop (f s)).length ≤ n by omega) (Nat.le_refl (s.drop (f s)).length)]
  rfl

theorem frames_of_complete (complete : Complete f s) :
    frames f s = s.take (f s) :: frames f (s.drop (f s)) :=
  congrArg Prod.fst (split_of_complete complete)

theorem rest_of_complete (complete : Complete f s) : rest f s = rest f (s.drop (f s)) := by
  change (split f s.length s).2 = _
  rw [split_of_complete complete]

theorem split_of_incomplete (incomplete : ¬ Complete f s) :
    split f s.length s = ([], s) := by
  cases len : s.length with
  | zero => rfl
  | succ n => exact if_neg incomplete

theorem frames_of_incomplete (incomplete : ¬ Complete f s) : frames f s = [] :=
  congrArg Prod.fst (split_of_incomplete incomplete)

theorem rest_of_incomplete (incomplete : ¬ Complete f s) : rest f s = s :=
  congrArg Prod.snd (split_of_incomplete incomplete)

/-- Induction along the frames of a stream. -/
theorem frames_induction {P : List α → Prop} (incomplete : ∀ s, ¬ Complete f s → P s)
    (complete : ∀ s, Complete f s → P (s.drop (f s)) → P s) (s : List α) : P s := by
  induction len : s.length using Nat.strongRecOn generalizing s with
  | _ n ih =>
      by_cases first : Complete f s
      · have shorter := List.length_drop (l := s) (i := f s)
        have positive := first.1
        have inside := first.2
        exact complete s first (ih _ (by omega) _ rfl)
      · exact incomplete s first

/-- The frames and the rest are the stream. -/
theorem flatten_frames (f : List α → Nat) (s : List α) :
    (frames f s).flatten ++ rest f s = s := by
  induction s using frames_induction (f := f) with
  | incomplete s first =>
      rw [frames_of_incomplete first, rest_of_incomplete first]
      rfl
  | complete s first ih =>
      rw [frames_of_complete first, rest_of_complete first, List.flatten_cons, List.append_assoc,
        ih, List.take_append_drop]

/-- No complete frame is left. -/
theorem incomplete_rest (f : List α → Nat) (s : List α) : ¬ Complete f (rest f s) := by
  induction s using frames_induction (f := f) with
  | incomplete s first => rwa [rest_of_incomplete first]
  | complete s first ih => rwa [rest_of_complete first]

theorem frames_eq_nil_iff : frames f s = [] ↔ ¬ Complete f s := by
  refine ⟨fun none first => ?_, frames_of_incomplete⟩
  rw [frames_of_complete first] at none
  cases none

theorem Complete.append (stable : PrefixStable f) (first : Complete f s) (t : List α) :
    Complete f (s ++ t) ∧ f (s ++ t) = f s := by
  have same := stable s t (Nat.pos_iff_ne_zero.mp first.1)
  have inside := first.2
  refine ⟨⟨same ▸ first.1, ?_⟩, same⟩
  rw [same, List.length_append]
  omega

/-! ## One frame for each piece -/

/-- What a receiver does with a piece: at most one frame is taken. -/
def takeOne (f : List α → Nat) (state : List (List α) × List α) (piece : List α) :
    List (List α) × List α :=
  let s := state.2 ++ piece
  if Complete f s then (state.1 ++ [s.take (f s)], s.drop (f s)) else (state.1, s)

theorem takeOne_of_complete {state : List (List α) × List α} {piece : List α}
    (complete : Complete f (state.2 ++ piece)) :
    takeOne f state piece =
      (state.1 ++ [(state.2 ++ piece).take (f (state.2 ++ piece))],
        (state.2 ++ piece).drop (f (state.2 ++ piece))) :=
  if_pos complete

theorem takeOne_of_incomplete {state : List (List α) × List α} {piece : List α}
    (incomplete : ¬ Complete f (state.2 ++ piece)) :
    takeOne f state piece = (state.1, state.2 ++ piece) :=
  if_neg incomplete

/-- The frames taken from the pieces, and what is left. -/
def oneEach (f : List α → Nat) (pieces : List (List α)) : List (List α) × List α :=
  pieces.foldl (takeOne f) ([], [])

theorem oneEach_concat (f : List α → Nat) (pieces : List (List α)) (piece : List α) :
    oneEach f (pieces ++ [piece]) = takeOne f (oneEach f pieces) piece := by
  unfold oneEach
  rw [List.foldl_append]
  rfl

/-- Nothing that arrives is lost. -/
theorem flatten_oneEach (f : List α → Nat) (pieces : List (List α)) :
    (oneEach f pieces).1.flatten ++ (oneEach f pieces).2 = pieces.flatten := by
  induction pieces using List.reverseRecOn with
  | nil => rfl
  | append_singleton pieces piece ih =>
      rw [oneEach_concat, List.flatten_concat, ← ih]
      unfold takeOne
      simp only
      split
      · rw [List.flatten_concat, List.append_assoc, List.take_append_drop, List.append_assoc]
      · rw [List.append_assoc]

/-- How many complete frames the pieces have. -/
def completed (f : List α → Nat) (pieces : List (List α)) : Nat :=
  (frames f pieces.flatten).length

section OneEach

variable (stable : PrefixStable f)

include stable

/-- The frames taken, followed by those in what is left, are the frames of the stream. -/
theorem frames_of_oneEach (pieces : List (List α)) :
    frames f pieces.flatten = (oneEach f pieces).1 ++ frames f (oneEach f pieces).2 ∧
      rest f pieces.flatten = rest f (oneEach f pieces).2 ∧
      ∀ more, frames f (pieces.flatten ++ more) =
          (oneEach f pieces).1 ++ frames f ((oneEach f pieces).2 ++ more) ∧
        rest f (pieces.flatten ++ more) = rest f ((oneEach f pieces).2 ++ more) := by
  suffices later : ∀ more, frames f (pieces.flatten ++ more) =
      (oneEach f pieces).1 ++ frames f ((oneEach f pieces).2 ++ more) ∧
      rest f (pieces.flatten ++ more) = rest f ((oneEach f pieces).2 ++ more) by
    have now := later []
    rw [List.append_nil, List.append_nil] at now
    exact ⟨now.1, now.2, later⟩
  induction pieces using List.reverseRecOn with
  | nil => exact fun more => ⟨rfl, rfl⟩
  | append_singleton pieces piece ih =>
      intro more
      obtain ⟨framesEq, restEq⟩ := ih (piece ++ more)
      rw [List.flatten_concat, List.append_assoc, framesEq, restEq, oneEach_concat,
        ← List.append_assoc]
      unfold takeOne
      simp only
      split
      · next first =>
          obtain ⟨first', same⟩ := first.append stable more
          rw [frames_of_complete first', rest_of_complete first', same,
            List.take_append_of_le_length first.2, List.drop_append_of_le_length first.2,
            List.append_assoc]
          exact ⟨rfl, rfl⟩
      · exact ⟨rfl, rfl⟩

theorem completed_eq (pieces : List (List α)) :
    completed f pieces =
      (oneEach f pieces).1.length + (frames f (oneEach f pieces).2).length := by
  unfold completed
  rw [(frames_of_oneEach stable pieces).1, List.length_append]

/-- A piece has one more frame taken, unless none is left then. -/
theorem length_oneEach_concat (pieces : List (List α)) (piece : List α) :
    (oneEach f (pieces ++ [piece])).1.length =
      min ((oneEach f pieces).1.length + 1) (completed f (pieces ++ [piece])) := by
  have total := completed_eq stable (pieces ++ [piece])
  rw [oneEach_concat] at total ⊢
  unfold takeOne at total ⊢
  simp only at total ⊢
  split
  · next first =>
      rw [if_pos first] at total
      simp only [List.length_append, List.length_singleton] at total ⊢
      omega
  · next first =>
      rw [if_neg first] at total
      simp only [frames_of_incomplete first, List.length_nil] at total ⊢
      omega

/-- With more pieces come at most as many more frames. -/
theorem length_oneEach_append (early late : List (List α)) :
    (oneEach f (early ++ late)).1.length ≤ (oneEach f early).1.length + late.length := by
  induction late using List.reverseRecOn with
  | nil => rw [List.append_nil]; exact Nat.le_add_right _ _
  | append_singleton late piece ih =>
      rw [← List.append_assoc, length_oneEach_concat stable, List.length_append,
        List.length_singleton]
      omega

/-- At some point no complete frame was left, and every piece since then had one. -/
theorem exists_saturated (pieces : List (List α)) :
    ∃ early late, pieces = early ++ late ∧
      (oneEach f pieces).1.length = completed f early + late.length := by
  induction pieces using List.reverseRecOn with
  | nil => exact ⟨[], [], rfl, rfl⟩
  | append_singleton pieces piece ih =>
      rcases ih with ⟨early, late, rfl, count⟩
      have step := length_oneEach_concat stable (early ++ late) piece
      by_cases more : (oneEach f (early ++ late)).1.length + 1 ≤
          completed f (early ++ late ++ [piece])
      · refine ⟨early, late ++ [piece], List.append_assoc .., ?_⟩
        rw [step, Nat.min_eq_left more, count, List.length_append, List.length_singleton]
        omega
      · refine ⟨early ++ late ++ [piece], [], (List.append_nil _).symm, ?_⟩
        rw [step, Nat.min_eq_right (by omega)]
        rfl

/-- **One frame for each piece is enough** exactly when every final part of the pieces
completes at most as many frames as it has pieces. -/
theorem oneEach_eq_frames_iff (pieces : List (List α)) :
    oneEach f pieces = (frames f pieces.flatten, rest f pieces.flatten) ↔
      ∀ early late, pieces = early ++ late →
        completed f pieces ≤ completed f early + late.length := by
  obtain ⟨framesEq, restEq, _⟩ := frames_of_oneEach stable pieces
  have total := completed_eq stable pieces
  constructor
  · intro same early late same'
    subst same'
    have first := congrArg (fun state => state.1.length) same
    simp only at first
    have taken := length_oneEach_append stable early late
    have most := completed_eq stable early
    unfold completed at most ⊢
    omega
  · intro slow
    obtain ⟨early, late, split, count⟩ := exists_saturated stable pieces
    have none : frames f (oneEach f pieces).2 = [] := by
      have := slow early late split
      exact List.eq_nil_of_length_eq_zero (by omega)
    rw [framesEq, restEq, none, rest_of_incomplete (frames_eq_nil_iff.mp none), List.append_nil]

end OneEach

end Framing
