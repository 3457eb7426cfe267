import Mathlib.Data.List.GetD
import Mathlib.Data.List.TakeWhile
import Verben.Sds.Content

/-!
# Quoting a string

`sdscatrepr` of `src/sds.c`, and the `sdscatprintf` that it calls. It is a sequence of
appends (`reprParts`): a quote, for each byte the bytes that stand for it (`escaped`), and
a quote. A byte takes one, two or four of them (`escapeWidth`), and the whole can be read
as long as it has less than 2 ^ 31 (`quote_eq`).
-/

namespace Verben

open CInt

/-! ## sdscatprintf -/

/-- The loop of `sdscatvprintf`, where `text` is what the format and its arguments come
to: the buffer is doubled until its last byte but one is not needed. It has no result
if it has not ended after so many rounds. -/
def printfText (text : List UInt8) : Nat → Nat → Option (List UInt8)
  | 0, _ => none
  | rounds + 1, buflen =>
      if buflen < 2 ^ 63 then
        -- `vsnprintf` ends what it stores with a NUL; the byte was a NUL before
        let buf := text.take (buflen - 1)
        if buf.getD (buflen - 2) 0 ≠ 0 then printfText text rounds (buflen * 2) else some buf
      else
        none

/-- `sdscatprintf`; `sdscat` appends up to the first NUL. -/
def sdscatprintf (s : Sds) (text : List UInt8) : Option Sds :=
  (printfText text (text.length + 1) 16).bind fun buf => sdscatlen s (buf.takeWhile (· ≠ 0))

/-- A text that leaves the last byte but one alone is all in the buffer. -/
theorem printfText_of_fits {text : List UInt8} {buflen : Nat} (fits : text.length + 2 ≤ buflen)
    (small : buflen < 2 ^ 63) (rounds : Nat) :
    printfText text (rounds + 1) buflen = some text := by
  have whole : text.take (buflen - 1) = text := List.take_of_length_le (by omega)
  have last : text.getD (buflen - 2) 0 = 0 := List.getD_eq_default _ _ (by omega)
  unfold printfText
  simp only
  rw [if_pos small, whole, last, if_neg (by simp)]

/-- The loop ends with all of a text that has no NUL. -/
theorem printfText_eq {text : List UInt8} (plain : ∀ b ∈ text, b ≠ 0)
    (short : text.length < 2 ^ 61) (rounds : Nat) {buflen : Nat} (two : 2 ≤ buflen)
    (enough : text.length + 1 < buflen + rounds) (needed : buflen ≤ 2 * text.length + 16) :
    printfText text (rounds + 1) buflen = some text := by
  induction rounds generalizing buflen with
  | zero => exact printfText_of_fits (by omega) (by omega) 0
  | succ rounds ih =>
      by_cases fits : text.length + 2 ≤ buflen
      · exact printfText_of_fits fits (by omega) _
      · have inside : buflen - 2 < text.length := by omega
        have last : (text.take (buflen - 1)).getD (buflen - 2) 0 = text[buflen - 2] := by
          rw [List.getD_eq_getElem?_getD, List.getElem?_take_of_lt (by omega),
            List.getElem?_eq_getElem inside, Option.getD_some]
        have used : text[buflen - 2] ≠ 0 := plain _ (List.getElem_mem inside)
        rw [printfText]
        simp only
        rw [if_pos (by omega), last, if_pos used]
        exact ih (by omega) (by omega) (by omega)

/-- A text that has no NUL is appended whole. -/
theorem sdscatprintf_eq (s : Sds) {text : List UInt8} (plain : ∀ b ∈ text, b ≠ 0)
    (short : text.length < 2 ^ 61) : sdscatprintf s text = sdscatlen s text := by
  have all : text.takeWhile (· ≠ 0) = text :=
    List.takeWhile_eq_self_iff.mpr fun b mem => by simpa using plain b mem
  unfold sdscatprintf
  rw [printfText_eq plain short text.length (by omega) (by omega) (by omega), Option.bind_some, all]

/-! ## sdscatrepr -/

/-- `isprint` in the C locale; a byte from 128 on is a negative `char`. -/
def isprint (b : UInt8) : Bool := 32 ≤ b && b ≤ 126

/-- A digit of `%x`. -/
def hexDigit (n : Nat) : UInt8 := UInt8.ofNat (if n < 10 then 48 + n else 97 + (n - 10))

/-- What `%02x` prints for a byte. -/
def hexByte (b : UInt8) : List UInt8 := [hexDigit (b.toNat / 16), hexDigit (b.toNat % 16)]

/-- The `switch` of `sdscatrepr`. -/
def reprByte (s : Sds) (b : UInt8) : Option Sds :=
  if b = 92 ∨ b = 34 then sdscatprintf s [92, b]
  else if b = 10 then sdscatlen s [92, 110]
  else if b = 13 then sdscatlen s [92, 114]
  else if b = 9 then sdscatlen s [92, 116]
  else if b = 7 then sdscatlen s [92, 97]
  else if b = 8 then sdscatlen s [92, 98]
  else if isprint b then sdscatprintf s [b]
  else sdscatprintf s ([92, 120] ++ hexByte b)

/-- `sdscatrepr` with the bytes `p`. -/
def sdscatrepr (s : Sds) (p : List UInt8) : Option Sds :=
  (sdscatlen s [34]).bind fun s => (p.foldlM reprByte s).bind fun s => sdscatlen s [34]

/-! ## Appends in a row -/

/-- Each append returns, and the bytes add up, as long as they fit an `int`. -/
theorem appends_of_short {s : Sds} {c : List UInt8} (holds : s.Holds c) (ts : List (List UInt8))
    (fits : (c ++ ts.flatten).length < 2 ^ 31) :
    ∃ s', ts.foldlM sdscatlen s = some s' ∧ s'.Holds (c ++ ts.flatten) := by
  induction ts generalizing s c with
  | nil => exact ⟨s, rfl, by rwa [List.flatten_nil, List.append_nil]⟩
  | cons t ts ih =>
      rw [List.flatten_cons, ← List.append_assoc] at fits ⊢
      have first : c.length + t.length < 2 ^ 31 := by
        rw [List.length_append, List.length_append] at fits
        omega
      obtain ⟨next, appended, holdsNext⟩ := sdscatlen_of_holds holds first
      rw [List.foldlM_cons, appended]
      exact ih holdsNext fits

/-- Otherwise the one that goes too far is the last that returns. -/
theorem appends_of_long {s : Sds} {c : List UInt8} (holds : s.Holds c) {ts : List (List UInt8)}
    (small : ∀ t ∈ ts, t.length < 2 ^ 31) (long : 2 ^ 31 ≤ (c ++ ts.flatten).length) :
    ts.foldlM sdscatlen s = none ∨
      ∃ s' d, ts.foldlM sdscatlen s = some s' ∧ s'.Wrapped d := by
  induction ts generalizing s c with
  | nil =>
      have short := holds.short
      rw [List.flatten_nil, List.append_nil] at long
      omega
  | cons t ts ih =>
      have smallT : t.length < 2 ^ 31 := small t List.mem_cons_self
      have smallTs : ∀ u ∈ ts, u.length < 2 ^ 31 := fun u mem =>
        small u (List.mem_cons_of_mem t mem)
      rw [List.flatten_cons, ← List.append_assoc] at long
      rw [List.foldlM_cons]
      by_cases fits : c.length + t.length < 2 ^ 31
      · obtain ⟨next, appended, holdsNext⟩ := sdscatlen_of_holds holds fits
        rw [appended]
        exact ih holdsNext smallTs long
      · obtain ⟨next, appended, wrapped⟩ := sdscatlen_of_overflow holds smallT (by omega)
        rw [appended]
        cases ts with
        | nil => exact Or.inr ⟨next, _, rfl, wrapped⟩
        | cons u ts =>
            left
            change (u :: ts).foldlM sdscatlen next = none
            rw [List.foldlM_cons, sdscatlen_of_wrapped wrapped]
            rfl

/-! ## The quoted form -/

/-- The letter behind the backslash, for a byte that has one. -/
def escapeLetter (b : UInt8) : Option UInt8 :=
  if b = 92 ∨ b = 34 then some b
  else if b = 10 then some 110
  else if b = 13 then some 114
  else if b = 9 then some 116
  else if b = 7 then some 97
  else if b = 8 then some 98
  else none

/-- The bytes that stand for a byte between the quotes. -/
def escaped (b : UInt8) : List UInt8 :=
  match escapeLetter b with
  | some c => [92, c]
  | none => if isprint b then [b] else 92 :: 120 :: hexByte b

/-- How many they are. -/
def escapeWidth (b : UInt8) : Nat :=
  if (escapeLetter b).isSome then 2 else if isprint b then 1 else 4

/-- A string between its quotes. -/
def quoted (p : List UInt8) : List UInt8 := 34 :: p.flatMap escaped ++ [34]

/-- The length of the quoted form. -/
def quotedLen : List UInt8 → Nat
  | [] => 2
  | b :: p => escapeWidth b + quotedLen p

theorem length_escaped (b : UInt8) : (escaped b).length = escapeWidth b := by
  unfold escaped escapeWidth
  cases escapeLetter b with
  | some c => rfl
  | none =>
      by_cases shown : isprint b = true
      · simp [shown]
      · simp [shown, hexByte]

theorem length_quoted (p : List UInt8) : (quoted p).length = quotedLen p := by
  induction p with
  | nil => rfl
  | cons b p ih =>
      unfold quoted at ih ⊢
      rw [List.length_append, List.length_cons, List.length_singleton] at ih ⊢
      rw [List.flatMap_cons, List.length_append, length_escaped, quotedLen]
      omega

/-- No byte is lost. -/
theorem length_add_two_le (p : List UInt8) : p.length + 2 ≤ quotedLen p := by
  induction p with
  | nil => exact Nat.le_refl 2
  | cons b p ih =>
      have positive : 1 ≤ escapeWidth b := by
        unfold escapeWidth
        split_ifs <;> decide
      rw [List.length_cons, quotedLen]
      omega

theorem hexDigit_ne_zero : ∀ n < 16, hexDigit n ≠ 0 := by decide

theorem hexByte_ne_zero (b : UInt8) : ∀ c ∈ hexByte b, c ≠ 0 := by
  have small : b.toNat < 256 := b.toNat_lt
  unfold hexByte
  rintro c (_ | ⟨_, _ | ⟨_, mem⟩⟩)
  · exact hexDigit_ne_zero _ (by omega)
  · exact hexDigit_ne_zero _ (by omega)
  · cases mem

/-- Each case of the `switch` appends the bytes that stand for the byte. -/
theorem reprByte_eq (s : Sds) (b : UInt8) : reprByte s b = sdscatlen s (escaped b) := by
  unfold reprByte escaped escapeLetter
  split
  case isTrue same =>
    have plain : ∀ c ∈ [92, b], c ≠ 0 := by
      rcases same with rfl | rfl <;> simp
    exact sdscatprintf_eq s plain (by simp)
  case isFalse =>
    -- the letters
    iterate 5
      split
      · rfl
    split
    case isTrue shown =>
      have plain : ∀ c ∈ [b], c ≠ 0 := by
        rintro c (_ | ⟨_, mem⟩)
        · rintro rfl
          cases shown
        · cases mem
      exact sdscatprintf_eq s plain (by simp)
    case isFalse =>
      have plain : ∀ c ∈ 92 :: 120 :: hexByte b, c ≠ 0 := by
        simpa using hexByte_ne_zero b
      exact sdscatprintf_eq s plain (by simp [hexByte])

/-- The appends of `sdscatrepr`. -/
def reprParts (p : List UInt8) : List (List UInt8) := [34] :: p.map escaped ++ [[34]]

theorem flatten_reprParts (p : List UInt8) : (reprParts p).flatten = quoted p := by
  unfold reprParts quoted
  rw [List.cons_append, List.flatten_cons, List.flatten_append, List.flatMap_def]
  rfl

theorem length_le_of_mem_reprParts {p t : List UInt8} (mem : t ∈ reprParts p) : t.length ≤ 4 := by
  unfold reprParts at mem
  rw [List.mem_append, List.mem_cons, List.mem_map, List.mem_singleton] at mem
  rcases mem with (rfl | ⟨b, _, rfl⟩) | rfl
  · decide
  · rw [length_escaped]
    unfold escapeWidth
    split_ifs <;> decide
  · decide

/-- **`sdscatrepr` is a sequence of appends.** -/
theorem sdscatrepr_eq (s : Sds) (p : List UInt8) :
    sdscatrepr s p = (reprParts p).foldlM sdscatlen s := by
  have each (s : Sds) : p.foldlM reprByte s = (p.map escaped).foldlM sdscatlen s := by
    rw [List.foldlM_map]
    congr 1
    funext s b
    exact reprByte_eq s b
  unfold sdscatrepr reprParts
  rw [List.cons_append, List.foldlM_cons]
  congr 1
  funext s
  rw [List.foldlM_append, each]
  congr 1
  funext s
  rw [List.foldlM_cons]
  exact (Option.bind_fun_some _).symm

/-- What a caller copies out of a string: `sdslen` bytes from its start. -/
def Sds.copy (s : Sds) : Option (List UInt8) := s.buf.load 0 (sdslen s)

theorem Sds.Holds.copy_eq {s : Sds} {c : List UInt8} (holds : s.Holds c) : s.copy = some c := by
  unfold Sds.copy
  rw [holds.sdslen_eq]
  exact holds.data.load

/-- In a string to which too much was appended, `sdslen` leads far behind the allocation. -/
theorem Sds.Wrapped.copy_eq {s : Sds} {c : List UInt8} (wrapped : s.Wrapped c) : s.copy = none := by
  have long := wrapped.long
  have cap := wrapped.cap
  unfold Sds.copy
  rw [wrapped.sdslen_eq]
  exact if_neg (by omega)

/-- The bytes of the string that `sdscatrepr` makes of an empty one. -/
def quote (p : List UInt8) : Option (List UInt8) := (sdscatrepr sdsempty p).bind Sds.copy

/-- **A string is quoted exactly if its quoted form fits an `int`.** -/
theorem quote_eq (p : List UInt8) :
    quote p = if quotedLen p < 2 ^ 31 then some (quoted p) else none := by
  have whole : [] ++ (reprParts p).flatten = quoted p := flatten_reprParts p
  have len : ([] ++ (reprParts p).flatten).length = quotedLen p := by rw [whole, length_quoted]
  unfold quote
  rw [sdscatrepr_eq]
  by_cases fits : quotedLen p < 2 ^ 31
  · obtain ⟨s, appended, holds⟩ := appends_of_short holds_sdsempty _ (len ▸ fits)
    rw [whole] at holds
    rw [if_pos fits, appended, Option.bind_some, holds.copy_eq]
  · have small : ∀ t ∈ reprParts p, t.length < 2 ^ 31 := fun t mem =>
      (length_le_of_mem_reprParts mem).trans_lt (by decide)
    rw [if_neg fits]
    rcases appends_of_long holds_sdsempty small (by omega) with failed | ⟨s, d, appended, wrapped⟩
    · rw [failed, Option.bind_none]
    · rw [appended, Option.bind_some, wrapped.copy_eq]

/-- A quoted form of exactly 2 ^ 31 bytes is stored whole, and `len` is negative. -/
theorem sdscatrepr_of_edge {p : List UInt8} (edge : quotedLen p = 2 ^ 31) :
    ∃ s, sdscatrepr sdsempty p = some s ∧ s.Wrapped (quoted p) := by
  have whole : ([34] :: p.map escaped).flatten ++ [34] = quoted p := by
    rw [← flatten_reprParts]
    unfold reprParts
    rw [List.flatten_append]
    rfl
  have len := congrArg List.length whole
  rw [List.length_append, List.length_singleton, length_quoted, edge] at len
  have fits : ([] ++ ([34] :: p.map escaped).flatten).length < 2 ^ 31 := by
    rw [List.nil_append]
    omega
  obtain ⟨s, appended, holds⟩ := appends_of_short holds_sdsempty _ fits
  rw [List.nil_append] at holds
  obtain ⟨s', last, wrapped⟩ := sdscatlen_of_overflow (t := [34]) holds (by decide) (by
    rw [List.length_singleton]
    omega)
  rw [whole] at wrapped
  refine ⟨s', ?_, wrapped⟩
  rw [sdscatrepr_eq]
  unfold reprParts
  rw [List.foldlM_append, appended]
  change ([[34]] : List (List UInt8)).foldlM sdscatlen s = some s'
  rw [List.foldlM_cons, last]
  rfl

end Verben
