import Verben.Log.Kept

/-!
# A name that is cut off

A path of 1021 bytes leaves room for a dot and one digit. With eleven numbered files, the last
one has the name of the second one, and when all names are taken, `log_rotate` gives the last
number to the file that has just got the first number but one (`log_rotation_misplaces`).
-/

namespace Verben

/-- A path that fits into its buffer. -/
def longPath : List UInt8 := List.replicate 1021 97

/-- A log of eleven files, each with a limit of 0 bytes. -/
def longLog : LogState where
  log := { buffer := some .zero, level := 4, multi := false, fd := fun _ => -1 }
  hasInit := true
  size := 0
  number := 11
  path := fun _ => longPath
  files := .empty

theorem length_longPath (i : Nat) :
    (rotatedPath longPath i).length = 1022 + (Decimal.digits i).length := by
  unfold rotatedPath longPath
  rw [formatInt_zero, List.length_append, List.length_append, List.length_replicate,
    List.length_singleton]

/-- The names of the first ten files are whole. -/
theorem longPath_fits {i : Nat} (low : i < 10) : (rotatedPath longPath i).length < logPathMax := by
  rw [length_longPath, Decimal.digits_of_lt low, List.length_singleton]
  exact Nat.lt_succ_self 1023

/-- The name of the last file is that of the second one. -/
theorem tempPath_longPath : tempPath longPath 10 = rotatedPath longPath 1 := by
  have ten : rotatedPath longPath 10 = rotatedPath longPath 1 ++ [48] := by
    unfold rotatedPath
    rw [formatInt_zero, formatInt_zero, List.append_assoc, List.append_assoc, List.append_assoc]
    rfl
  unfold tempPath
  rw [ten]
  exact List.take_left' (length_longPath 1)

/-- The log after `k + 1` calls: `k` files have a number, with one line in each. -/
structure Filled (k : Nat) (st : LogState) : Prop where
  size : st.size = 0
  number : st.number = 11
  path : st.path .fatal = longPath
  level : st.log.level = 4
  multi : st.log.multi = false
  open' : st.log.fd .fatal ≠ -1
  opens : st.files.Opens (st.log.fd .fatal) longPath
  content : st.files.content longPath = some [shortCall.line]
  names : ∀ i < 10,
    st.files.content (rotatedPath longPath i) = if i < k then some [shortCall.line] else none

section Filled

variable {st st' : LogState} {k : Nat}

theorem Filled.large (filled : Filled k st) : st.Over .fatal := by
  refine ⟨_, by rw [filled.path]; exact filled.content, ?_⟩
  rw [filled.size]
  decide

/-- Before the tenth file is there, no name is cut off. -/
theorem Filled.whole (filled : Filled k st) (few : k < 10) : ¬ st.CutsName .fatal := by
  rintro ⟨-, -, cut⟩
  refine cut fun i low before => ?_
  rw [filled.path] at before ⊢
  by_cases small : i < 10
  case pos => exact longPath_fits small
  case neg =>
    have there := before k (by omega)
    rw [filled.names k few, if_neg (Nat.lt_irrefl k)] at there
    cases there

/-- With ten files at most, the next call gives the log file the next number. -/
theorem Filled.step (filled : Filled k st) (few : k < 10) :
    ∃ st', st.write shortCall = some (st', some shortCall.line) ∧ Filled (k + 1) st' := by
  have index := LogState.index_of_single filled.multi shortCall.level
  obtain ⟨st', wrote, same, renamed⟩ := @LogCall.Obeyed.write_renamed st shortCall .fatal k
    shortCall_obeyed (by rw [filled.level]; decide) index filled.open'
    (filled.path ▸ filled.opens) filled.large (filled.whole few)
    (by rw [filled.number]; omega)
    (fun i low => by
      rw [filled.path, filled.names i (Nat.lt_trans low few), if_pos low]
      rfl)
    (by rw [filled.path, filled.names k few, if_neg (Nat.lt_irrefl k)])
  refine ⟨st', wrote, ?_⟩
  refine
    { size := same.size.trans filled.size
      number := same.number.trans filled.number
      path := (congrFun same.path .fatal).trans filled.path
      level := same.level.trans filled.level
      multi := same.multi.trans filled.multi
      open' := renamed.open'
      opens := filled.path ▸ renamed.opens
      content := filled.path ▸ renamed.content
      names := fun i low => ?_ }
  have named := renamed.named
  have others := renamed.others
  rw [filled.path] at named others
  by_cases last : i = k
  case pos =>
    rw [last, named, filled.content, if_pos (Nat.lt_succ_self k)]
  case neg =>
    rw [others _ (rotatedPath_ne longPath i) fun eq => last (rotatedPath_injective eq),
      filled.names i low]
    by_cases less : i < k
    case pos => rw [if_pos less, if_pos (Nat.lt_succ_of_lt less)]
    case neg => rw [if_neg less, if_neg (by omega)]

/-- The first call opens the log file. -/
theorem filled_longLog :
    ∃ st', longLog.write shortCall = some (st', some shortCall.line) ∧ Filled 0 st' := by
  obtain ⟨st', wrote, same, logged⟩ := @LogCall.Obeyed.write longLog shortCall
    shortCall_obeyed (by decide) fun _ open' => absurd rfl open'
  refine ⟨st', wrote, ?_⟩
  refine
    { size := same.size
      number := same.number
      path := congrFun same.path .fatal
      level := same.level
      multi := same.multi
      open' := logged.open'
      opens := logged.opens
      content := logged.content
      names := fun i _ => ?_ }
  rw [if_neg (Nat.not_lt_zero i)]
  exact logged.others _ (rotatedPath_ne longPath i)

/-- After that, ten calls give the first ten numbers to files. -/
theorem Filled.steps (filled : Filled 0 st) (few : k ≤ 10) :
    ∃ st' lines, st.writeAll (List.replicate k shortCall) = some (st', lines) ∧
      Filled k st' := by
  induction k with
  | zero => exact ⟨st, [], rfl, filled⟩
  | succ k ih =>
      obtain ⟨st₁, lines, ran, filled₁⟩ := ih (Nat.le_of_succ_le few)
      obtain ⟨st₂, wrote, filled₂⟩ := filled₁.step few
      refine ⟨st₂, lines ++ [shortCall.line], ?_, filled₂⟩
      rw [List.replicate_succ']
      exact LogState.writeAll_concat ran wrote

/-- With all names taken, the files with a number do not all move down by one: the second name
is the last one too, so the third file is given the last number when it has become the second. -/
theorem logShift_longPath {files : LogFiles} {fd : Int}
    (there : ∀ i < 10, (files.content (rotatedPath longPath i)).isSome)
    (opens : files.Opens fd longPath) :
    (logShift shortCall 11 longPath files).content (rotatedPath longPath 1) = none ∧
      ((logShift shortCall 11 longPath files).content (rotatedPath longPath 2)).isSome ∧
      (logShift shortCall 11 longPath files).Opens fd longPath := by
  have shifted := @Files.shifted_shiftDown _ _ _ (rotatedPath longPath) 9 files
    (fun i _ j _ same => rotatedPath_injective same) (fun i low => there i (Nat.lt_succ_of_le low))
  have ten : logShift shortCall 11 longPath files =
      shortCall.renameFile (Files.shiftDown (rotatedPath longPath) 9 files)
        (rotatedPath longPath 1) (rotatedPath longPath 9) := by
    have nine : logShift shortCall 10 longPath files =
        Files.shiftDown (rotatedPath longPath) 9 files :=
      logShift_eq (fun _ _ => rfl) fun i low => tempPath_of_fits (longPath_fits low)
    have last : logShift shortCall 11 longPath files =
        shortCall.renameFile (logShift shortCall 10 longPath files) (tempPath longPath 10)
          (tempPath longPath 9) := rfl
    rw [last, nine, tempPath_longPath, tempPath_of_fits (longPath_fits (Nat.lt_succ_self 9))]
  have second : ((Files.shiftDown (rotatedPath longPath) 9 files).content
      (rotatedPath longPath 1)).isSome := by
    rw [shifted.down 1 (by decide)]
    exact there 2 (by decide)
  have apart : rotatedPath longPath 1 ≠ rotatedPath longPath 9 := fun same =>
    absurd (rotatedPath_injective same) (by decide)
  obtain ⟨files', renamed⟩ : ∃ files', (Files.shiftDown (rotatedPath longPath) 9 files).rename
      (rotatedPath longPath 1) (rotatedPath longPath 9) = some files' := by
    rw [← Option.isSome_iff_exists, Files.rename_isSome]
    exact second
  obtain ⟨-, gone, others, -, -⟩ := Files.rename_eq_some renamed apart
  rw [ten, LogCall.renameFile_of_renames fun _ _ => rfl, renamed, Option.getD_some]
  refine ⟨gone, ?_, ?_⟩
  · rw [others _ (fun same => absurd (rotatedPath_injective same) (by decide))
      (fun same => absurd (rotatedPath_injective same) (by decide)), shifted.down 2 (by decide)]
    exact there 3 (by decide)
  · have kept := shifted.opens fd longPath (fun i _ => (rotatedPath_ne longPath i).symm) opens
    exact kept.rename renamed (rotatedPath_ne longPath 1).symm (rotatedPath_ne longPath 9).symm

/-- When ten files have a number, the next call moves them, and the second name is free. -/
theorem Filled.broken (filled : Filled 10 st) :
    ∃ st' line, st.write shortCall = some (st', line) ∧ st'.number = 11 ∧
      st'.path .fatal = longPath ∧ st'.files.content (rotatedPath longPath 1) = none ∧
      (st'.files.content (rotatedPath longPath 2)).isSome := by
  have index := LogState.index_of_single filled.multi shortCall.level
  have there : ∀ i < 10, (st.files.content (rotatedPath longPath i)).isSome := by
    intro i low
    rw [filled.names i low, if_pos low]
    rfl
  have full : ((List.range 11).find? fun i => !st.files.access (tempPath longPath i)) = none := by
    rw [List.find?_range_eq_none]
    intro i low
    rw [Bool.not_not, Files.access_eq]
    by_cases last : i = 10
    case pos =>
      rw [last, tempPath_longPath]
      exact there 1 (by decide)
    case neg =>
      have below : i < 10 := by omega
      rw [tempPath_of_fits (longPath_fits below)]
      exact there i below
  have large : (0 : Int) < ([shortCall.line].flatten.length : Int) := by decide
  have rotated : st.rotate shortCall = (-1, logShift shortCall 11 longPath st.files) := by
    unfold LogState.rotate logRotate
    rw [index, if_pos filled.open', filled.path, filled.number, filled.size, filled.opens.stat_eq,
      filled.content]
    have stat : (if shortCall.fstat then some [shortCall.line] else none) =
        some [shortCall.line] := rfl
    rw [stat]
    dsimp only
    rw [if_pos large]
    have count : ((11 : Int).toNat) = 11 := rfl
    rw [count, full]
  obtain ⟨gone, kept, opens⟩ := logShift_longPath there filled.opens
  obtain ⟨st', wrote, same, logged⟩ := shortCall_obeyed.write (by rw [filled.level]; decide)
    fun _ _ => by
      rw [rotated, index, filled.path]
      exact opens
  rw [rotated, index] at logged
  refine ⟨st', _, wrote, same.number.trans filled.number,
    (congrFun same.path .fatal).trans filled.path, ?_, ?_⟩
  · rw [logged.others _ (by rw [filled.path]; exact rotatedPath_ne longPath 1)]
    exact gone
  · rw [logged.others _ (by rw [filled.path]; exact rotatedPath_ne longPath 2)]
    exact kept

end Filled

/-- A log whose path leaves room for one digit, with eleven files, after twelve calls: there is
a file with the number 2, and none with the number 1. -/
theorem log_rotation_misplaces :
    ¬ ∀ (st : LogState) (index : LogLevel) (calls : List LogCall),
      0 < st.number → st.Fresh index → (∀ c ∈ calls, st.index c.level = index) →
      (∀ c ∈ calls, c.Fits) → (∀ c ∈ calls, ∀ a b, c.rename a b) →
      ∃ st' lines, st.writeAll calls = some (st', lines) ∧
        st'.Keeps index (logContent st.files (st.path index) ++ lines) := by
  intro keeps
  obtain ⟨st₁, first, filled⟩ := filled_longLog
  obtain ⟨st₂, lines, ran, filled'⟩ := filled.steps (Nat.le_refl 10)
  obtain ⟨st₃, line, wrote, number, path, gone, kept⟩ := filled'.broken
  have run : longLog.writeAll (shortCall :: (List.replicate 10 shortCall ++ [shortCall])) =
      some (st₃, shortCall.line :: (lines ++ line.toList)) :=
    LogState.writeAll_cons first (LogState.writeAll_concat ran wrote)
  have all : ∀ c ∈ shortCall :: (List.replicate 10 shortCall ++ [shortCall]), c = shortCall := by
    intro c mem
    rcases List.mem_cons.mp mem with same | mem
    · exact same
    · rcases List.mem_append.mp mem with mem | mem
      · exact List.eq_of_mem_replicate mem
      · exact List.mem_singleton.mp mem
  obtain ⟨st', lines', ran', kept'⟩ := keeps longLog .fatal
    (shortCall :: (List.replicate 10 shortCall ++ [shortCall])) (by decide)
    ⟨rfl, fun _ _ => rfl, rfl⟩ (fun c mem => by rw [all c mem]; rfl)
    (fun c mem => by rw [all c mem]; exact shortCall_obeyed.fits)
    (fun c mem a b => by rw [all c mem]; rfl)
  rw [run] at ran'
  cases ran'
  obtain ⟨k, segment⟩ := kept'.segment
  rw [number, path] at segment
  have one := segment 1 (by decide)
  have two := (segment 2 (by decide)).mp kept
  rw [gone] at one
  have low := one.mpr (by omega)
  cases low

end Verben
