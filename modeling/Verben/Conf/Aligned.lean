import Verben.Conf.Round

/-!
# Texts with additional lines

Two texts that differ in lines which the parser passes over (`Aligned`), and what `fgets` reads of
them: the same line of both, or one of the additional lines (`Aligned.reads`).
-/

namespace Verben

/-- A text that ends with a newline, or is empty. -/
def Ended (text : List UInt8) : Prop := text = [] ∨ text.getLast? = some 10

/-- A line that is passed over. -/
def Idle (raw : List UInt8) : Prop :=
  lineKind (lineText raw) = .skip ∨ lineKind (lineText raw) = .blank

/-- A text of lines that are passed over, as `fgets` reads them. -/
inductive IdleLines : List UInt8 → Prop
  | nil : IdleLines []
  | cons {raw rest : List UInt8} (idle : Idle raw) (used : raw ≠ [])
      (got : ∀ after, fgets maxLine (raw ++ rest ++ after) = some (raw, rest ++ after))
      (more : IdleLines rest) : IdleLines (raw ++ rest)

/-- Two texts that are the same but for lines that are passed over: at most `d` bytes of them in
the second text. -/
inductive Aligned : Nat → List UInt8 → List UInt8 → Prop
  | same (d : Nat) (text : List UInt8) : Aligned d text text
  | more {before lines : List UInt8} (after : List UInt8) {d : Nat} (start : Ended before)
      (idle : IdleLines lines) (few : lines.length ≤ d) :
      Aligned d (before ++ after) (before ++ (lines ++ after))
  | fewer {before lines : List UInt8} (after : List UInt8) {d : Nat} (start : Ended before)
      (idle : IdleLines lines) : Aligned d (before ++ (lines ++ after)) (before ++ after)

section Lines

variable {n d d' : Nat} {s text text' raw rest after : List UInt8}

/-- A line in front of other text is read whatever that is. -/
theorem takeLine_append (ended : Ended text) (used : text ≠ []) (n : Nat) :
    ∃ raw rest, text = raw ++ rest ∧ raw ≠ [] ∧ Ended rest ∧
      ∀ after, takeLine (n + 1) (text ++ after) = (raw, rest ++ after) := by
  induction text generalizing n with
  | nil => exact absurd rfl used
  | cons b text ih =>
      by_cases newline : b = 10
      case pos =>
        refine ⟨[b], text, rfl, List.cons_ne_nil _ _, ?_, fun after => ?_⟩
        · cases text with
          | nil => exact Or.inl rfl
          | cons c text =>
              rw [Ended, List.getLast?_cons_cons] at ended
              exact Or.inr (ended.resolve_left (List.cons_ne_nil _ _))
        · simp [takeLine, newline]
      case neg =>
        have used' : text ≠ [] := by
          rintro rfl
          rcases ended with none' | last
          · cases none'
          · exact newline (Option.some.inj last)
        have ended' : Ended text := by
          obtain ⟨c, text, rfl⟩ := List.exists_cons_of_ne_nil used'
          rw [Ended, List.getLast?_cons_cons] at ended
          exact Or.inr (ended.resolve_left (List.cons_ne_nil _ _))
        cases n with
        | zero =>
            refine ⟨[b], text, rfl, List.cons_ne_nil _ _, ended', fun after => ?_⟩
            simp [takeLine, newline]
        | succ n =>
            obtain ⟨raw, rest, split, _, ended'', taken⟩ := ih ended' used' n
            refine ⟨b :: raw, rest, ?_, List.cons_ne_nil _ _, ended'', fun after => ?_⟩
            · rw [split]
              rfl
            · rw [List.cons_append, takeLine, if_neg newline, taken]

theorem fgets_eq (used : text ≠ []) : fgets maxLine text = some (takeLine 1023 text) := by
  cases text with
  | nil => exact absurd rfl used
  | cons b text => rfl

theorem fgets_append (ended : Ended text) (used : text ≠ []) :
    ∃ raw rest, text = raw ++ rest ∧ Ended rest ∧
      ∀ after, fgets maxLine (text ++ after) = some (raw, rest ++ after) := by
  obtain ⟨raw, rest, split, _, ended', taken⟩ := takeLine_append ended used 1022
  refine ⟨raw, rest, split, ended', fun after => ?_⟩
  rw [fgets_eq (List.append_ne_nil_of_left_ne_nil used after), taken]

theorem Aligned.mono (aligned : Aligned d text text') (le : d ≤ d') : Aligned d' text text' := by
  cases aligned with
  | same => exact .same ..
  | more after start idle few => exact .more after start idle (Nat.le_trans few le)
  | fewer after start idle => exact .fewer after start idle

/-- What `fgets` reads of two texts: the same line of both, or a line of one of them that is passed
over. -/
inductive ReadsAligned (d : Nat) (text text' : List UInt8) : Prop
  | ended (got : fgets maxLine text = none) (got' : fgets maxLine text' = none)
      (aligned : Aligned d text text')
  | both (raw rest rest' : List UInt8) (got : fgets maxLine text = some (raw, rest))
      (got' : fgets maxLine text' = some (raw, rest')) (aligned : Aligned d rest rest')
  | first (raw rest : List UInt8) (got : fgets maxLine text = some (raw, rest)) (idle : Idle raw)
      (aligned : Aligned d rest text')
  | second (raw rest : List UInt8) (less : Nat) (d_eq : d = less + 1)
      (got : fgets maxLine text' = some (raw, rest)) (idle : Idle raw)
      (aligned : Aligned less text rest)

theorem readsAligned_same (d : Nat) (text : List UInt8) : ReadsAligned d text text := by
  cases got : fgets maxLine text with
  | none => exact .ended got got (.same ..)
  | some line => exact .both line.1 line.2 line.2 got got (.same ..)

theorem Aligned.reads (aligned : Aligned d text text') : ReadsAligned d text text' := by
  cases aligned with
  | same => exact readsAligned_same ..
  | @more before lines after _ start idle few =>
      by_cases used : before = []
      case pos =>
        subst used
        cases idle with
        | nil => exact readsAligned_same ..
        | @cons raw rest idle used got more =>
            have length := List.length_pos_of_ne_nil used
            rw [List.length_append] at few
            refine .second raw (rest ++ after) (d - 1) (by omega) (got after) idle ?_
            exact .more after (Or.inl rfl) more (by omega)
      case neg =>
        obtain ⟨raw, rest, _, ended, got⟩ := fgets_append start used
        exact .both raw _ _ (got _) (got _) (.more after ended idle few)
  | @fewer before lines after _ start idle =>
      by_cases used : before = []
      case pos =>
        subst used
        cases idle with
        | nil => exact readsAligned_same ..
        | @cons raw rest idle used got more =>
            exact .first raw (rest ++ after) (got after) idle (.fewer after (Or.inl rfl) more)
      case neg =>
        obtain ⟨raw, rest, _, ended, got⟩ := fgets_append start used
        exact .both raw _ _ (got _) (got _) (.fewer after ended idle)

end Lines

end Verben
