import Mathlib.Data.List.Forall2
import Verben.Sds.Repr

/-!
# Splitting a line into arguments

`sdssplitargs` of `src/sds.c`. The pointer into the line is the rest of the line here,
and behind the end of it is a NUL (`charAt`). A round of the inner loop is a step
(`argStep`) in one of three modes, and what `sdscatrepr` writes for a byte is read back
in one round (`inqStep_escaped`).

A line of quoted strings comes apart into these strings (`split_quoted_iff`). What limits
it are two `int`s: the length of a string, and the number of arguments.
-/

namespace Verben

open CInt

/-- `isspace` in the C locale; a byte from 128 on is a negative `char`. -/
def isspace (b : UInt8) : Bool := b = 32 || (9 ≤ b && b ≤ 13)

/-- `is_hex_digit`. -/
def isHexDigit (c : UInt8) : Bool :=
  (48 ≤ c && c ≤ 57) || (97 ≤ c && c ≤ 102) || (65 ≤ c && c ≤ 70)

/-- `hex_digit_to_int`. -/
def hexDigitToInt (c : UInt8) : Nat :=
  if 48 ≤ c ∧ c ≤ 57 then c.toNat - 48
  else if 97 ≤ c ∧ c ≤ 102 then c.toNat - 97 + 10
  else if 65 ≤ c ∧ c ≤ 70 then c.toNat - 65 + 10
  else 0

/-- `*(p + i)`. -/
def charAt (p : List UInt8) (i : Nat) : UInt8 := p.getD i 0

/-- `if (*p) ++p`. -/
def nextChar (p : List UInt8) : List UInt8 := if charAt p 0 ≠ 0 then p.drop 1 else p

/-- `inq` and `insq`, of which at most one is set. -/
inductive ArgMode : Type
  | bare
  | inq
  | insq
  deriving DecidableEq

/-- How a round of the inner loop ends. -/
inductive ArgStep : Type
  | next (mode : ArgMode) (p : List UInt8) (current : Sds)
  | done (p : List UInt8) (current : Sds)
  | err
  deriving DecidableEq

/-- A closing quote must be followed by a space or nothing at all. -/
def closeQuote (p : List UInt8) (current : Sds) : ArgStep :=
  if charAt p 1 ≠ 0 ∧ ¬ isspace (charAt p 1) then .err else .done (nextChar p) current

/-- The byte that a backslash and a letter stand for. -/
def unescape (c : UInt8) : UInt8 :=
  if c = 110 then 10
  else if c = 114 then 13
  else if c = 116 then 9
  else if c = 98 then 8
  else if c = 97 then 7
  else c

/-- A round with `inq` set. -/
def inqStep (p : List UInt8) (current : Sds) : Option ArgStep :=
  if charAt p 0 = 92 ∧ charAt p 1 = 120 ∧ isHexDigit (charAt p 2) ∧ isHexDigit (charAt p 3) then
    let byte := UInt8.ofNat (hexDigitToInt (charAt p 2) * 16 + hexDigitToInt (charAt p 3))
    (sdscatlen current [byte]).map (.next .inq (nextChar (p.drop 3)))
  else if charAt p 0 = 92 ∧ charAt p 1 ≠ 0 then
    (sdscatlen current [unescape (charAt p 1)]).map (.next .inq (nextChar (p.drop 1)))
  else if charAt p 0 = 34 then
    some (closeQuote p current)
  else if charAt p 0 = 0 then
    some .err
  else
    (sdscatlen current [charAt p 0]).map (.next .inq (nextChar p))

/-- A round with `insq` set. -/
def insqStep (p : List UInt8) (current : Sds) : Option ArgStep :=
  if charAt p 0 = 92 ∧ charAt p 1 = 39 then
    (sdscatlen current [39]).map (.next .insq (nextChar (p.drop 1)))
  else if charAt p 0 = 39 then
    some (closeQuote p current)
  else if charAt p 0 = 0 then
    some .err
  else
    (sdscatlen current [charAt p 0]).map (.next .insq (nextChar p))

/-- A round with neither. -/
def bareStep (p : List UInt8) (current : Sds) : Option ArgStep :=
  let c := charAt p 0
  if c = 32 ∨ c = 10 ∨ c = 13 ∨ c = 9 ∨ c = 0 then some (.done (nextChar p) current)
  else if c = 34 then some (.next .inq (nextChar p) current)
  else if c = 39 then some (.next .insq (nextChar p) current)
  else (sdscatlen current [c]).map (.next .bare (nextChar p))

/-- A round of the inner loop. -/
def argStep : ArgMode → List UInt8 → Sds → Option ArgStep
  | .bare => bareStep
  | .inq => inqStep
  | .insq => insqStep

/-- The inner loop: the rest of the line and the token, or `none` for `goto err`. It has
no result if it has not ended after so many rounds. -/
def argLoop : Nat → ArgMode → List UInt8 → Sds → Option (Option (List UInt8 × Sds))
  | 0, _, _, _ => none
  | rounds + 1, mode, p, current =>
      (argStep mode p current).bind fun
        | .next mode p current => argLoop rounds mode p current
        | .done p current => some (some (p, current))
        | .err => some none

/-- The array that `sdssplitargs` returns, which may be null, and what it stores in
`argc`. -/
structure SplitArgs : Type where
  vector : Option (List Sds)
  argc : Int
  deriving DecidableEq

/-- The outer loop. -/
def splitLoop : Nat → List UInt8 → SplitArgs → Option SplitArgs
  | 0, _, _ => none
  | rounds + 1, p, args =>
      let p := p.dropWhile isspace
      if charAt p 0 = 0 then
        some args
      else
        (argLoop (p.length + 1) .bare p sdsempty).bind fun
          | some (p, current) =>
              -- the size for `realloc`
              if toUInt64 (toInt32 (args.argc + 1) * 8) < 2 ^ 63 then
                splitLoop rounds p
                  { vector := some (args.vector.getD [] ++ [current])
                    argc := toInt32 (args.argc + 1) }
              else
                none
          | none => some { vector := none, argc := -1 }

/-- `sdssplitargs`. -/
def sdssplitargs (line : List UInt8) : Option SplitArgs :=
  splitLoop (line.length + 1) line { vector := none, argc := 0 }

/-! ## Reading a byte back -/

theorem nextChar_cons {b : UInt8} (nonzero : b ≠ 0) (p : List UInt8) : nextChar (b :: p) = p :=
  if_pos nonzero

/-- A letter is not taken for the start of a hexadecimal escape. -/
theorem unescape_escapeLetter {b c : UInt8} (letter : escapeLetter b = some c) :
    c ≠ 120 ∧ c ≠ 0 ∧ unescape c = b := by
  unfold escapeLetter at letter
  split at letter
  case isTrue same =>
    cases letter
    rcases same with rfl | rfl <;> decide
  case isFalse =>
    split_ifs at letter with newline ret tab bell back
    all_goals
      cases letter
      subst b
      decide

/-- A byte without a letter is no backslash and no quote. -/
theorem ne_of_escapeLetter {b : UInt8} (noLetter : escapeLetter b = none) : b ≠ 92 ∧ b ≠ 34 := by
  constructor
  · rintro rfl
    cases noLetter
  · rintro rfl
    cases noLetter

theorem isHexDigit_hexDigit : ∀ n < 16, isHexDigit (hexDigit n) = true := by decide

theorem hexDigitToInt_hexDigit : ∀ n < 16, hexDigitToInt (hexDigit n) = n := by decide

/-- **In quotes, one round reads back what was written for a byte.** -/
theorem inqStep_escaped (current : Sds) (b : UInt8) (rest : List UInt8) :
    inqStep (escaped b ++ rest) current = (sdscatlen current [b]).map (.next .inq rest) := by
  unfold escaped
  cases letter : escapeLetter b with
  | some c =>
      obtain ⟨noHex, nonzero, back⟩ := unescape_escapeLetter letter
      have one : inqStep (92 :: c :: rest) current =
          (sdscatlen current [unescape c]).map (.next .inq (nextChar (c :: rest))) :=
        (if_neg fun hex => noHex hex.2.1).trans (if_pos ⟨rfl, nonzero⟩)
      rw [back, nextChar_cons nonzero] at one
      exact one
  | none =>
      obtain ⟨noBackslash, noQuote⟩ := ne_of_escapeLetter letter
      by_cases shown : isprint b = true
      · have nonzero : b ≠ 0 := by
          rintro rfl
          cases shown
        have one : inqStep (b :: rest) current =
            (sdscatlen current [b]).map (.next .inq (nextChar (b :: rest))) :=
          (if_neg fun hex => noBackslash hex.1).trans <|
            (if_neg fun pair => noBackslash pair.1).trans <|
            (if_neg noQuote).trans (if_neg nonzero)
        rw [nextChar_cons nonzero] at one
        simp only [if_pos shown]
        exact one
      · have small : b.toNat < 256 := b.toNat_lt
        have high : b.toNat / 16 < 16 := by omega
        have low : b.toNat % 16 < 16 := by omega
        have value : UInt8.ofNat (b.toNat / 16 * 16 + b.toNat % 16) = b := by
          rw [Nat.div_add_mod', UInt8.ofNat_toNat]
        have one : inqStep (92 :: 120 :: hexByte b ++ rest) current =
            (sdscatlen current [UInt8.ofNat (hexDigitToInt (hexDigit (b.toNat / 16)) * 16 +
              hexDigitToInt (hexDigit (b.toNat % 16)))]).map
                (.next .inq (nextChar (hexDigit (b.toNat % 16) :: rest))) :=
          if_pos ⟨rfl, rfl, isHexDigit_hexDigit _ high, isHexDigit_hexDigit _ low⟩
        rw [hexDigitToInt_hexDigit _ high, hexDigitToInt_hexDigit _ low, value,
          nextChar_cons (hexDigit_ne_zero _ low)] at one
        simp only [if_neg shown]
        exact one

/-! ## A token -/

/-- Behind the token is a space or nothing at all. -/
def Delimited (rest : List UInt8) : Prop := charAt rest 0 = 0 ∨ isspace (charAt rest 0) = true

/-- The closing quote ends the loop. -/
theorem inqStep_quote {rest : List UInt8} (delimited : Delimited rest) (current : Sds) :
    inqStep (34 :: rest) current = some (.done rest current) := by
  have other : (34 : UInt8) ≠ 92 := by decide
  have close : inqStep (34 :: rest) current = some (closeQuote (34 :: rest) current) :=
    (if_neg fun hex => other hex.1).trans <| (if_neg fun pair => other pair.1).trans (if_pos rfl)
  have accepted : closeQuote (34 :: rest) current = .done (nextChar (34 :: rest)) current :=
    if_neg fun refused => delimited.elim refused.1 refused.2
  rw [close, accepted, nextChar_cons (by decide)]

section ArgLoop

variable {rounds : Nat} {mode mode' : ArgMode} {p p' : List UInt8} {current current' : Sds}

theorem argLoop_of_next (step : argStep mode p current = some (.next mode' p' current')) :
    argLoop (rounds + 1) mode p current = argLoop rounds mode' p' current' := by
  rw [argLoop, step, Option.bind_some]

theorem argLoop_of_done (step : argStep mode p current = some (.done p' current')) :
    argLoop (rounds + 1) mode p current = some (some (p', current')) := by
  rw [argLoop, step, Option.bind_some]

end ArgLoop

/-- The bytes between the quotes become the token, one round for each. -/
theorem argLoop_escaped {current : Sds} {c : List UInt8} (holds : current.Holds c)
    {p rest : List UInt8} (fits : (c ++ p).length < 2 ^ 31) (delimited : Delimited rest)
    {rounds : Nat} (enough : p.length < rounds) :
    ∃ current', argLoop rounds .inq (p.flatMap escaped ++ 34 :: rest) current =
      some (some (rest, current')) ∧ current'.Holds (c ++ p) := by
  induction p generalizing current c rounds with
  | nil =>
      obtain ⟨rounds, rfl⟩ := Nat.exists_eq_add_of_le' enough
      refine ⟨current, argLoop_of_done (inqStep_quote delimited current), ?_⟩
      rwa [List.append_nil]
  | cons b p ih =>
      have regroup : c ++ b :: p = c ++ [b] ++ p := by rw [List.append_assoc, List.singleton_append]
      have line : (b :: p).flatMap escaped ++ 34 :: rest =
          escaped b ++ (p.flatMap escaped ++ 34 :: rest) := by
        rw [List.flatMap_cons, List.append_assoc]
      rw [List.length_cons] at enough
      obtain ⟨rounds, rfl⟩ := Nat.exists_eq_add_of_le' (Nat.one_le_of_lt enough)
      rw [regroup] at fits ⊢
      have one : c.length + [b].length < 2 ^ 31 := by
        rw [List.length_append, List.length_append] at fits
        omega
      obtain ⟨next, appended, holdsNext⟩ := sdscatlen_of_holds holds one
      have step : argStep .inq (escaped b ++ (p.flatMap escaped ++ 34 :: rest)) current =
          some (.next .inq (p.flatMap escaped ++ 34 :: rest) next) := by
        rw [argStep, inqStep_escaped, appended, Option.map_some]
      rw [line, argLoop_of_next step]
      exact ih holdsNext fits (by omega)

/-- **A quoted string becomes a token.** -/
theorem argLoop_quoted {p rest : List UInt8} (fits : p.length < 2 ^ 31)
    (delimited : Delimited rest) :
    ∃ current, argLoop ((quoted p ++ rest).length + 1) .bare (quoted p ++ rest) sdsempty =
      some (some (rest, current)) ∧ current.Holds p := by
  have line : quoted p ++ rest = 34 :: (p.flatMap escaped ++ 34 :: rest) := by
    unfold quoted
    rw [List.cons_append, List.cons_append, List.append_assoc, List.singleton_append]
  have enough : p.length < (quoted p ++ rest).length := by
    have := length_add_two_le p
    rw [List.length_append, length_quoted]
    omega
  have opened : argStep .bare (34 :: (p.flatMap escaped ++ 34 :: rest)) sdsempty =
      some (.next .inq (p.flatMap escaped ++ 34 :: rest) sdsempty) := rfl
  obtain ⟨current, read, holds⟩ := argLoop_escaped holds_sdsempty fits delimited enough
  refine ⟨current, ?_, holds⟩
  rw [← read, line]
  exact argLoop_of_next opened

/-! ## A line -/

/-- What was read so far. -/
structure SplitArgs.Holds (args : SplitArgs) (strings : List (List UInt8)) : Prop where
  argc : args.argc = strings.length
  vector : List.Forall₂ Sds.Holds (args.vector.getD []) strings

theorem SplitArgs.Holds.push {args : SplitArgs} {strings : List (List UInt8)}
    (holds : args.Holds strings) {current : Sds} {p : List UInt8} (token : current.Holds p) :
    (SplitArgs.mk (some (args.vector.getD [] ++ [current])) (args.argc + 1)).Holds
      (strings ++ [p]) := by
  constructor
  case argc =>
    simp only
    rw [holds.argc, List.length_append, List.length_singleton]
    omega
  case vector => exact List.rel_append holds.vector (List.Forall₂.cons token List.Forall₂.nil)

/-- The quoted forms, each with a space in front. -/
def spaced (strings : List (List UInt8)) : List UInt8 := strings.flatMap fun p => 32 :: quoted p

theorem delimited_spaced (strings : List (List UInt8)) : Delimited (spaced strings) := by
  cases strings with
  | nil => exact Or.inl rfl
  | cons p strings => exact Or.inr rfl

/-- A space in front changes nothing. -/
theorem splitLoop_space (rounds : Nat) (p : List UInt8) (args : SplitArgs) :
    splitLoop rounds (32 :: p) args = splitLoop rounds p args := by
  cases rounds with
  | zero => rfl
  | succ rounds => rw [splitLoop, splitLoop, List.dropWhile_cons_of_pos (by decide)]

/-- **One round takes one string**, unless their number is no `int` any more. -/
theorem splitLoop_spaced {args : SplitArgs} {before : List (List UInt8)} (holds : args.Holds before)
    (few : before.length < 2 ^ 31) {p : List UInt8} (short : p.length < 2 ^ 31)
    (strings : List (List UInt8)) (rounds : Nat) :
    ∃ args', args'.Holds (before ++ [p]) ∧
      splitLoop (rounds + 1) (spaced (p :: strings)) args =
        if before.length + 1 < 2 ^ 31 then splitLoop rounds (spaced strings) args' else none := by
  obtain ⟨current, read, token⟩ := argLoop_quoted short (delimited_spaced strings)
  refine ⟨_, holds.push token, ?_⟩
  have line : spaced (p :: strings) = 32 :: (quoted p ++ spaced strings) := by
    unfold spaced
    rw [List.flatMap_cons, List.cons_append]
  have start : (quoted p ++ spaced strings).dropWhile isspace = quoted p ++ spaced strings :=
    List.dropWhile_cons_of_neg (by decide)
  have nonempty : charAt (quoted p ++ spaced strings) 0 ≠ 0 := by
    change (34 : UInt8) ≠ 0
    decide
  rw [line, splitLoop_space, splitLoop]
  simp only [start]
  rw [if_neg nonempty, read, Option.bind_some, holds.argc]
  simp only
  by_cases more : before.length + 1 < 2 ^ 31
  · have next : toInt32 (before.length + 1) = before.length + 1 :=
      toInt32_of_range (by omega) (by omega)
    have size : toUInt64 ((before.length + 1 : Int) * 8) < 2 ^ 63 := by
      rw [toUInt64_of_range (by omega) (by omega)]
      omega
    rw [next, if_pos size, if_pos more]
  · have next : toInt32 (before.length + 1) = -2 ^ 31 := by
      rw [toInt32_of_overflow (by omega) (by omega)]
      omega
    rw [next, if_neg (by decide), if_neg more]

/-- A line with few enough strings is read to its end. -/
theorem splitLoop_of_few {args : SplitArgs} {before strings : List (List UInt8)}
    (holds : args.Holds before) (short : ∀ p ∈ strings, p.length < 2 ^ 31)
    (few : (before ++ strings).length < 2 ^ 31) {rounds : Nat} (enough : strings.length < rounds) :
    ∃ args', splitLoop rounds (spaced strings) args = some args' ∧
      args'.Holds (before ++ strings) := by
  induction strings generalizing args before rounds with
  | nil =>
      obtain ⟨rounds, rfl⟩ := Nat.exists_eq_add_of_le' enough
      exact ⟨args, rfl, by rwa [List.append_nil]⟩
  | cons p strings ih =>
      have regroup : before ++ p :: strings = before ++ [p] ++ strings := by
        rw [List.append_assoc, List.singleton_append]
      rw [List.length_cons] at enough
      obtain ⟨rounds, rfl⟩ := Nat.exists_eq_add_of_le' (Nat.one_le_of_lt enough)
      rw [regroup] at few ⊢
      have more : before.length + 1 < 2 ^ 31 := by
        rw [List.length_append, List.length_append, List.length_singleton] at few
        omega
      obtain ⟨next, pushed, round⟩ :=
        splitLoop_spaced holds (by omega) (short p List.mem_cons_self) strings rounds
      rw [round, if_pos more]
      exact ih pushed (fun q mem => short q (List.mem_cons_of_mem p mem)) few (by omega)

/-- `realloc` refuses where the number of strings is no `int`. -/
theorem splitLoop_of_many {args : SplitArgs} {before strings : List (List UInt8)}
    (holds : args.Holds before) (short : ∀ p ∈ strings, p.length < 2 ^ 31)
    (few : before.length < 2 ^ 31) (many : 2 ^ 31 ≤ (before ++ strings).length) (rounds : Nat) :
    splitLoop rounds (spaced strings) args = none := by
  induction strings generalizing args before rounds with
  | nil =>
      rw [List.append_nil] at many
      omega
  | cons p strings ih =>
      have regroup : before ++ p :: strings = before ++ [p] ++ strings := by
        rw [List.append_assoc, List.singleton_append]
      cases rounds with
      | zero => rfl
      | succ rounds =>
          rw [regroup] at many
          obtain ⟨next, pushed, round⟩ :=
            splitLoop_spaced holds few (short p List.mem_cons_self) strings rounds
          rw [round]
          split
          case isTrue more =>
            have fewer : (before ++ [p]).length < 2 ^ 31 := by
              rwa [List.length_append, List.length_singleton]
            exact ih pushed (fun q mem => short q (List.mem_cons_of_mem p mem)) fewer many rounds
          case isFalse => rfl

/-- The line, with a space in front. -/
theorem spaced_eq (p : List UInt8) (strings : List (List UInt8)) :
    spaced (p :: strings) = 32 :: [32].intercalate ((p :: strings).map quoted) := by
  induction strings generalizing p with
  | nil => simp [spaced, List.intercalate_singleton]
  | cons q strings ih =>
      unfold spaced at ih ⊢
      rw [List.flatMap_cons, ih, List.map_cons, List.map_cons, List.map_cons,
        List.intercalate_cons_cons]
      simp

theorem length_le_length_spaced (strings : List (List UInt8)) :
    2 * strings.length ≤ (spaced strings).length := by
  induction strings with
  | nil => rfl
  | cons p strings ih =>
      unfold spaced at ih ⊢
      rw [List.flatMap_cons, List.length_append, List.length_cons, List.length_cons, length_quoted]
      have := length_add_two_le p
      omega

/-- The space in front does not matter, and the rounds are enough. -/
theorem sdssplitargs_joined (strings : List (List UInt8)) :
    ∃ rounds, strings.length < rounds ∧
      sdssplitargs ([32].intercalate (strings.map quoted)) =
        splitLoop rounds (spaced strings) { vector := none, argc := 0 } := by
  unfold sdssplitargs
  cases strings with
  | nil => exact ⟨1, Nat.one_pos, rfl⟩
  | cons p strings =>
      have long := length_le_length_spaced (p :: strings)
      refine ⟨([32].intercalate ((p :: strings).map quoted)).length + 1, ?_, ?_⟩
      · rw [spaced_eq, List.length_cons, List.length_cons] at long
        rw [List.length_cons]
        omega
      · rw [spaced_eq, splitLoop_space]

/-! ## Quoting and splitting -/

theorem mapM_quote_of_short {strings : List (List UInt8)}
    (short : ∀ p ∈ strings, quotedLen p < 2 ^ 31) :
    strings.mapM quote = some (strings.map quoted) := by
  induction strings with
  | nil => rfl
  | cons p strings ih =>
      rw [List.mapM_cons, quote_eq, if_pos (short p List.mem_cons_self),
        ih fun q mem => short q (List.mem_cons_of_mem p mem)]
      rfl

theorem mapM_quote_of_long {strings : List (List UInt8)} {p : List UInt8} (mem : p ∈ strings)
    (long : ¬ quotedLen p < 2 ^ 31) : strings.mapM quote = none := by
  induction strings with
  | nil => cases mem
  | cons q strings ih =>
      rw [List.mapM_cons]
      rcases List.mem_cons.mp mem with rfl | behind
      · rw [quote_eq, if_neg long]
        rfl
      · rw [ih behind]
        cases quote q with
        | none => rfl
        | some _ => rfl

theorem mapM_copy {vector : List Sds} {strings : List (List UInt8)}
    (holds : List.Forall₂ Sds.Holds vector strings) : vector.mapM Sds.copy = some strings := by
  induction holds with
  | nil => rfl
  | cons token _ ih =>
      rw [List.mapM_cons, token.copy_eq, ih]
      rfl

/-- Strings that are quoted, joined with spaces and split: what is read from the array of
`sdssplitargs`, and its `argc`. -/
def splitQuoted (strings : List (List UInt8)) : Option (List (List UInt8) × Int) :=
  (strings.mapM quote).bind fun pieces =>
    (sdssplitargs ([32].intercalate pieces)).bind fun args =>
      ((args.vector.getD []).mapM Sds.copy).map fun copies => (copies, args.argc)

/-- **A line of quoted strings comes apart into these strings** exactly if each quoted
form fits an `int`, and their number as well. -/
theorem split_quoted_iff (strings : List (List UInt8)) :
    splitQuoted strings = some (strings, (strings.length : Int)) ↔
      (∀ p ∈ strings, quotedLen p < 2 ^ 31) ∧ strings.length < 2 ^ 31 := by
  have start : (SplitArgs.mk none 0).Holds [] := ⟨rfl, List.Forall₂.nil⟩
  unfold splitQuoted
  by_cases fits : ∀ p ∈ strings, quotedLen p < 2 ^ 31
  · have short : ∀ p ∈ strings, p.length < 2 ^ 31 := fun p mem => by
      have := length_add_two_le p
      have := fits p mem
      omega
    obtain ⟨rounds, enough, read⟩ := sdssplitargs_joined strings
    rw [mapM_quote_of_short fits, Option.bind_some, read]
    by_cases few : strings.length < 2 ^ 31
    · obtain ⟨args, split, holds⟩ := splitLoop_of_few start short few enough
      rw [split, Option.bind_some, mapM_copy holds.vector, Option.map_some, holds.argc]
      exact iff_of_true rfl ⟨fits, few⟩
    · rw [splitLoop_of_many start short (by decide) (Nat.le_of_not_lt few)]
      exact iff_of_false (by simp) fun both => few both.2
  · obtain ⟨p, mem, long⟩ : ∃ p ∈ strings, ¬ quotedLen p < 2 ^ 31 := by
      simpa only [not_forall, exists_prop] using fits
    rw [mapM_quote_of_long mem long]
    exact iff_of_false (by simp) fun both => fits both.1

-- a backslash in front of `x41`, an empty string, and a quote, a NUL and a byte that is not printed
example : splitQuoted [[92, 120, 52, 49], [], [34, 0, 255]] =
    some ([[92, 120, 52, 49], [], [34, 0, 255]], 3) := rfl

/-- A printable byte takes one. -/
theorem quotedLen_replicate (n : Nat) : quotedLen (List.replicate n 97) = 2 + n := by
  have width : escapeWidth 97 = 1 := by decide
  induction n with
  | zero => rfl
  | succ n ih =>
      rw [List.replicate_succ, quotedLen, ih, width]
      omega

/-- A string of 2 ^ 31 - 2 letters is quoted in 2 ^ 31 bytes; `sdscatrepr` returns it with
a negative length. -/
theorem split_quoted_long :
    (∃ s, sdscatrepr sdsempty (List.replicate (2 ^ 31 - 2) 97) = some s ∧ s.len = -2 ^ 31) ∧
      splitQuoted [List.replicate (2 ^ 31 - 2) 97] ≠
        some ([List.replicate (2 ^ 31 - 2) 97], 1) := by
  have edge : quotedLen (List.replicate (2 ^ 31 - 2) 97) = 2 ^ 31 := quotedLen_replicate _
  obtain ⟨s, repr, wrapped⟩ := sdscatrepr_of_edge edge
  constructor
  · refine ⟨s, repr, ?_⟩
    rw [wrapped.len, length_quoted, edge]
    rfl
  · have long : ¬ quotedLen (List.replicate (2 ^ 31 - 2) 97) < 2 ^ 31 := by
      rw [edge]
      exact lt_irrefl _
    unfold splitQuoted
    rw [mapM_quote_of_long List.mem_cons_self long, Option.bind_none]
    exact Option.some_ne_none _ ∘ Eq.symm

end Verben
