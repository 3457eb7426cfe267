import Verben.Log.Rotate

/-!
# What `log_rotate` does

A name with a number stands for one number only, and is not the path itself, as long as it is
not cut off. So `log_rotate` does one of three things with the files: nothing, or it gives the
log file the first number that is free, or it moves all files with a number down by one
(`LogState.turns`).
-/

namespace Verben

/-! ## Names -/

theorem rotatedPath_injective {path : List UInt8} {i j : Nat}
    (same : rotatedPath path i = rotatedPath path j) : i = j := by
  unfold rotatedPath at same
  have digits := List.append_cancel_left same
  rw [formatInt_zero, formatInt_zero] at digits
  exact Decimal.digits_injective digits

theorem rotatedPath_ne (path : List UInt8) (i : Nat) : rotatedPath path i ≠ path := by
  intro same
  have lengths := congrArg List.length same
  unfold rotatedPath at lengths
  rw [List.length_append, List.length_append, List.length_singleton] at lengths
  omega

theorem tempPath_of_fits {path : List UInt8} {i : Nat}
    (fits : (rotatedPath path i).length < logPathMax) : tempPath path i = rotatedPath path i :=
  List.take_of_length_le (Nat.le_sub_one_of_lt fits)

/-! ## The two loops -/

section Rotate

variable {c : LogCall} {files : LogFiles} {path : List UInt8} {n : Nat}

/-- All names that the first loop comes to are whole. -/
def NamesFit (files : LogFiles) (path : List UInt8) (n : Nat) : Prop :=
  ∀ i < n, (∀ j < i, (files.content (rotatedPath path j)).isSome) →
    (rotatedPath path i).length < logPathMax

/-- Up to a number whose files before it are there, the names are whole. -/
theorem NamesFit.temp (fit : NamesFit files path n) {i : Nat} (low : i < n)
    (before : ∀ j < i, files.access (tempPath path j)) :
    tempPath path i = rotatedPath path i ∧
      ∀ j < i, (files.content (rotatedPath path j)).isSome := by
  induction i using Nat.strongRecOn with
  | _ i ih =>
      have there : ∀ j < i, (files.content (rotatedPath path j)).isSome := by
        intro j below
        have whole := (ih j below (Nat.lt_trans below low) fun k below' =>
          before k (Nat.lt_trans below' below)).1
        rw [← whole, ← Files.access_eq]
        exact before j below
      exact ⟨tempPath_of_fits (fit i low there), there⟩

/-- The first loop finds the first number that is free. -/
theorem NamesFit.find_eq_some (fit : NamesFit files path n) {i : Nat}
    (found : ((List.range n).find? fun i => !files.access (tempPath path i)) = some i) :
    i < n ∧ tempPath path i = rotatedPath path i ∧ files.content (rotatedPath path i) = none ∧
      ∀ j < i, (files.content (rotatedPath path j)).isSome := by
  rw [List.find?_range_eq_some] at found
  obtain ⟨free, inside, before⟩ := found
  have low := List.mem_range.mp inside
  obtain ⟨whole, there⟩ := fit.temp low fun j below => by
    simpa only [Bool.not_not] using before j below
  refine ⟨low, whole, ?_, there⟩
  rw [whole, Bool.not_eq_true', Files.access_eq, Option.isSome_eq_false_iff] at free
  exact Option.isNone_iff_eq_none.mp free

/-- If it finds none, all files with a number are there, under whole names. -/
theorem NamesFit.find_eq_none (fit : NamesFit files path n)
    (full : ((List.range n).find? fun i => !files.access (tempPath path i)) = none) :
    ∀ i < n, tempPath path i = rotatedPath path i ∧
      (files.content (rotatedPath path i)).isSome := by
  rw [List.find?_range_eq_none] at full
  have all : ∀ i < n, files.access (tempPath path i) := fun i low => by
    simpa only [Bool.not_not] using full i low
  intro i low
  have whole := (fit.temp low fun j below => all j (Nat.lt_trans below low)).1
  refine ⟨whole, ?_⟩
  rw [← whole, ← Files.access_eq]
  exact all i low

theorem LogCall.renameFile_of_renames {old new : List UInt8} (renames : ∀ a b, c.rename a b) :
    c.renameFile files old new = (files.rename old new).getD files := if_pos (renames old new)

/-- The second loop, with whole names. -/
theorem logShift_eq {number : Int} (renames : ∀ a b, c.rename a b)
    (whole : ∀ i < number.toNat, tempPath path i = rotatedPath path i) :
    logShift c number path files =
      Files.shiftDown (rotatedPath path) (number.toNat - 1) files := by
  unfold logShift Files.shiftDown
  refine List.foldl_ext _ _ files fun files' i inside => ?_
  rw [List.mem_range'_1] at inside
  rw [LogCall.renameFile_of_renames renames, whole i (by omega), whole (i - 1) (by omega)]

end Rotate

/-! ## The outcomes -/

/-- What the log file holds is larger than the limit. -/
def LogState.Over (st : LogState) (index : LogLevel) : Prop :=
  ∃ lines, st.files.content (st.path index) = some lines ∧ st.size < lines.flatten.length

/-- What `log_rotate` returns, and what it does with the files. -/
inductive LogState.Turns (st : LogState) (c : LogCall) (index : LogLevel) :
    Int → LogFiles → Prop
  | closed : st.log.fd index = -1 → st.Turns c index (-1) st.files
  | unknown : c.fstat = false → st.Turns c index 0 st.files
  | small : st.log.fd index ≠ -1 → ¬ st.Over index → st.Turns c index (-1) st.files
  | moved {files : LogFiles} (i : Nat) : st.log.fd index ≠ -1 → st.Over index →
      i < st.number.toNat →
      (∀ j < i, (st.files.content (rotatedPath (st.path index) j)).isSome) →
      st.files.content (rotatedPath (st.path index) i) = none →
      st.files.rename (st.path index) (rotatedPath (st.path index) i) = some files →
      st.Turns c index 0 files
  | shifted {files : LogFiles} : st.log.fd index ≠ -1 → st.Over index →
      (∀ i < st.number.toNat, (st.files.content (rotatedPath (st.path index) i)).isSome) →
      Files.Shifted (rotatedPath (st.path index)) (st.number.toNat - 1) st.files files →
      st.Turns c index (-1) files

/-- The call comes to a name that is cut off. -/
def LogState.CutsName (st : LogState) (index : LogLevel) : Prop :=
  st.log.fd index ≠ -1 ∧ st.Over index ∧
    ¬ NamesFit st.files (st.path index) st.number.toNat

/-- The descriptor of the log file, if there is one, is open on it. -/
def LogState.OpenOn (st : LogState) (index : LogLevel) : Prop :=
  st.log.fd index ≠ -1 → st.files.Opens (st.log.fd index) (st.path index)

theorem LogState.turns {st : LogState} {c : LogCall} (opens : st.OpenOn (st.index c.level))
    (number : 0 < st.number) (renames : ∀ a b, c.rename a b)
    (whole : ¬ st.CutsName (st.index c.level)) :
    st.Turns c (st.index c.level) (st.rotate c).1 (st.rotate c).2 := by
  unfold LogState.rotate
  dsimp only
  by_cases shut : st.log.fd (st.index c.level) = -1
  case pos =>
    rw [if_neg (not_not.mpr shut)]
    exact .closed shut
  case neg =>
    rw [if_pos shut]
    have opened := opens shut
    unfold logRotate
    cases known : c.fstat with
    | false => exact .unknown known
    | true =>
        rw [if_pos rfl, opened.stat_eq]
        obtain ⟨f, -, named⟩ := opened
        have content : st.files.content (st.path (st.index c.level)) = some (st.files.data f) := by
          unfold Files.content
          rw [named]
          rfl
        rw [content]
        dsimp only
        by_cases large : st.size < ((st.files.data f).flatten.length : Int)
        case neg =>
          rw [if_neg large]
          refine .small shut ?_
          rintro ⟨lines, content', large'⟩
          cases content.symm.trans content'
          exact large large'
        case pos =>
          rw [if_pos large]
          have isOver : st.Over (st.index c.level) := ⟨_, content, large⟩
          have fit : NamesFit st.files (st.path (st.index c.level)) st.number.toNat := by
            by_contra cut
            exact whole ⟨shut, isOver, cut⟩
          split
          · next i found =>
              obtain ⟨low, name, free, before⟩ := fit.find_eq_some found
              have there : (st.files.rename (st.path (st.index c.level))
                  (rotatedPath (st.path (st.index c.level)) i)).isSome := by
                rw [Files.rename_isSome, content]
                rfl
              obtain ⟨files, renamed⟩ := Option.isSome_iff_exists.mp there
              rw [name, LogCall.renameFile_of_renames renames, renamed]
              exact .moved i shut isOver low before free renamed
          · next full =>
              have all := fit.find_eq_none full
              rw [logShift_eq renames fun i low => (all i low).1]
              refine .shifted shut isOver (fun i low => (all i low).2) ?_
              refine Files.shifted_shiftDown st.files ?_ ?_
              · exact fun i _ j _ same => rotatedPath_injective same
              · exact fun i low => (all i (by omega)).2

/-- A log file that `log_rotate` leaves open is open under its name. -/
theorem LogState.Turns.opens {st : LogState} {c : LogCall} {index : LogLevel} {ret : Int}
    {files : LogFiles} (turns : st.Turns c index ret files) (opens : st.OpenOn index)
    (stays : ret ≠ 0) (open' : st.log.fd index ≠ -1) :
    files.Opens (st.log.fd index) (st.path index) := by
  cases turns with
  | closed shut => exact absurd shut open'
  | unknown _ | moved _ _ _ _ _ _ _ => exact absurd rfl stays
  | small _ _ => exact opens open'
  | shifted _ _ _ shifted =>
      exact shifted.opens _ _ (fun i _ => (rotatedPath_ne _ i).symm) (opens open')

end Verben
