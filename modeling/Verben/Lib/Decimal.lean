import Mathlib.Algebra.Group.Nat.Defs
import Mathlib.Algebra.Ring.Int.Defs
import Mathlib.Data.List.Basic
import Mathlib.Data.List.TakeWhile
import Mathlib.Tactic.Common

/-!
# Decimal numbers in bytes

`digits n` is a number as it is printed, and `value` reads a string of digits back
(`value_digits`), so two numbers are not printed alike. `number` is the number at the front of
a text, behind white space and with a sign or without, and `strtol` the `long` next to it. A
text that ends with a newline holds its number itself, unless it is all white space
(`number_append`): then the number is that of the text behind it.
-/

namespace Decimal

/-- A digit in ASCII. -/
def IsDigit (b : UInt8) : Prop := 48 ≤ b ∧ b ≤ 57

instance (b : UInt8) : Decidable (IsDigit b) := inferInstanceAs (Decidable (_ ∧ _))

/-- The digits of a number, the first one first. -/
def digits (n : Nat) : List UInt8 := (Nat.toDigits 10 n).map fun c => UInt8.ofNat c.toNat

/-- The number that a string of digits stands for. -/
def value (bs : List UInt8) : Nat := bs.foldl (fun n b => 10 * n + (b.toNat - 48)) 0

theorem value_concat (bs : List UInt8) (b : UInt8) :
    value (bs ++ [b]) = 10 * value bs + (b.toNat - 48) := by
  unfold value
  rw [List.foldl_append]
  rfl

/-- The byte of one digit. -/
theorem toNat_digitChar {d : Nat} (low : d < 10) :
    (UInt8.ofNat d.digitChar.toNat).toNat = 48 + d := by
  rw [Nat.toNat_digitChar_of_lt_ten low, UInt8.toNat_ofNat']
  omega

theorem digits_of_lt {n : Nat} (low : n < 10) :
    digits n = [UInt8.ofNat n.digitChar.toNat] := by
  unfold digits
  rw [Nat.toDigits_of_lt_base low]
  rfl

theorem digits_of_le {n : Nat} (high : 10 ≤ n) :
    digits n = digits (n / 10) ++ [UInt8.ofNat (n % 10).digitChar.toNat] := by
  unfold digits
  rw [Nat.toDigits_of_base_le (by decide) high, List.map_append]
  rfl

theorem value_digits (n : Nat) : value (digits n) = n := by
  induction n using Nat.strongRecOn with
  | _ n ih =>
      by_cases low : n < 10
      case pos =>
        have one := value_concat [] (UInt8.ofNat n.digitChar.toNat)
        rw [List.nil_append, toNat_digitChar low] at one
        rw [digits_of_lt low, one]
        change 10 * 0 + (48 + n - 48) = n
        omega
      case neg =>
        have high : 10 ≤ n := Nat.le_of_not_lt low
        rw [digits_of_le high, value_concat, ih (n / 10) (by omega),
          toNat_digitChar (Nat.mod_lt n (by decide))]
        omega

theorem digits_injective {m n : Nat} (same : digits m = digits n) : m = n := by
  rw [← value_digits m, same, value_digits]

theorem isDigit_digitChar {d : Nat} (low : d < 10) :
    IsDigit (UInt8.ofNat d.digitChar.toNat) := by
  have value := toNat_digitChar low
  unfold IsDigit
  rw [UInt8.le_iff_toNat_le, UInt8.le_iff_toNat_le, value]
  exact ⟨Nat.le_add_right 48 d, Nat.add_le_add_left (Nat.le_of_lt_succ low) 48⟩

theorem isDigit_of_mem_digits {n : Nat} {b : UInt8} (mem : b ∈ digits n) : IsDigit b := by
  induction n using Nat.strongRecOn with
  | _ n ih =>
      by_cases low : n < 10
      case pos =>
        rw [digits_of_lt low, List.mem_singleton] at mem
        subst mem
        exact isDigit_digitChar low
      case neg =>
        rw [digits_of_le (Nat.le_of_not_lt low), List.mem_append, List.mem_singleton] at mem
        rcases mem with mem | rfl
        · exact ih (n / 10) (by omega) mem
        · exact isDigit_digitChar (Nat.mod_lt n (by decide))

theorem digits_ne_nil (n : Nat) : digits n ≠ [] := by
  unfold digits
  rw [Ne, List.map_eq_nil_iff]
  exact Nat.toDigits_ne_nil

/-- The number of digits grows with the number. -/
theorem length_digits_le_iff {n k : Nat} (positive : 0 < k) :
    (digits n).length ≤ k ↔ n < 10 ^ k := by
  unfold digits
  rw [List.length_map, Nat.length_toDigits_le_iff (by decide) positive]

/-! ## A number at the front of a text -/

/-- White space in the C locale. -/
def IsSpace (b : UInt8) : Prop := b = 32 ∨ (9 ≤ b ∧ b ≤ 13)

instance (b : UInt8) : Decidable (IsSpace b) := inferInstanceAs (Decidable (_ ∨ _))

/-- The sign in front of a number, and the text behind it. -/
def sign : List UInt8 → Int × List UInt8
  | b :: text => if b = 45 then (-1, text) else if b = 43 then (1, text) else (1, b :: text)
  | [] => (1, [])

/-- The number at the front of a text, 0 if there are no digits. -/
def number (text : List UInt8) : Int :=
  let signed := sign (text.dropWhile (IsSpace ·))
  signed.1 * value (signed.2.takeWhile (IsDigit ·))

/-- `strtol` with base 10: a number out of range comes out as the last `long` on its side. -/
def strtol (text : List UInt8) : Int := max (-2 ^ 63) (min (number text) (2 ^ 63 - 1))

section Number

variable {text more : List UInt8}

/-- White space in front of a text is skipped. -/
theorem number_append_of_spaces (spaces : ∀ b ∈ text, IsSpace b) :
    number (text ++ more) = number more := by
  unfold number
  rw [List.dropWhile_append_of_pos (by simpa using spaces)]

theorem number_of_spaces (spaces : ∀ b ∈ text, IsSpace b) : number text = 0 := by
  have skipped := @number_append_of_spaces text [] spaces
  rw [List.append_nil] at skipped
  exact skipped

/-- A printed number is read back, up to the next byte that is not a digit. -/
theorem number_digits (n : Nat) : number (digits n) = n := by
  have all : (digits n).takeWhile (IsDigit ·) = digits n :=
    List.takeWhile_eq_self_iff.mpr fun b mem => decide_eq_true (isDigit_of_mem_digits mem)
  cases printed : digits n with
  | nil => exact absurd printed (digits_ne_nil n)
  | cons b rest =>
      have first : IsDigit b := isDigit_of_mem_digits (n := n) (by rw [printed]; exact .head _)
      have visible : ¬ IsSpace b := by
        unfold IsSpace
        unfold IsDigit at first
        rw [UInt8.le_iff_toNat_le, UInt8.le_iff_toNat_le] at first
        rintro (rfl | ⟨-, high⟩)
        · exact absurd first (by decide)
        · rw [UInt8.le_iff_toNat_le] at high
          exact absurd (Nat.le_trans first.1 high) (by decide)
      have unsigned : sign (b :: rest) = (1, b :: rest) := by
        unfold IsDigit at first
        unfold sign
        dsimp only
        rw [if_neg, if_neg]
        · rintro rfl
          exact absurd first (by decide)
        · rintro rfl
          exact absurd first (by decide)
      unfold number
      rw [List.dropWhile_cons_of_neg (by simpa using visible), unsigned, ← printed]
      dsimp only
      rw [all, value_digits]
      exact Int.one_mul _

/-- The sign is the first byte of the text, so it is the same in a longer text. -/
theorem sign_append {b : UInt8} (text more : List UInt8) :
    sign (b :: text ++ more) = ((sign (b :: text)).1, (sign (b :: text)).2 ++ more) := by
  unfold sign
  rw [List.cons_append]
  dsimp only
  split
  · rfl
  · split
    · rfl
    · rfl

/-- Digits in front of another byte. -/
theorem takeWhile_digits {last : UInt8} {init : List UInt8} (end' : ¬ IsDigit last)
    (more : List UInt8) :
    (init ++ [last] ++ more).takeWhile (IsDigit ·) = (init ++ [last]).takeWhile (IsDigit ·) := by
  induction init with
  | nil =>
      rw [List.nil_append, List.singleton_append, List.takeWhile_cons_of_neg (by simpa using end'),
        List.takeWhile_cons_of_neg (by simpa using end')]
  | cons b init ih =>
      rw [List.cons_append, List.cons_append, List.takeWhile_cons, List.takeWhile_cons, ih]

/-- Behind white space, a text with a newline at its end has a visible byte first, and still the
newline at its end. -/
theorem dropWhile_space {init : List UInt8} (visible : ¬ ∀ b ∈ init ++ [10], IsSpace b) :
    ∃ b rest, (init ++ [10]).dropWhile (IsSpace ·) = b :: (rest ++ [10]) := by
  induction init with
  | nil =>
      refine absurd (fun b mem => ?_) visible
      rw [List.nil_append, List.mem_singleton] at mem
      subst mem
      decide
  | cons c init ih =>
      rw [List.cons_append]
      by_cases space : IsSpace c
      case pos =>
        rw [List.dropWhile_cons_of_pos (by simpa using space)]
        refine ih fun all => visible fun b mem => ?_
        rcases List.mem_cons.mp mem with rfl | mem
        · exact space
        · exact all b mem
      case neg =>
        rw [List.dropWhile_cons_of_neg (by simpa using space)]
        exact ⟨c, init, rfl⟩

/-- A text with a newline at its end holds its number, whatever is behind it. -/
theorem number_append {init : List UInt8} (visible : ¬ ∀ b ∈ init ++ [10], IsSpace b)
    (more : List UInt8) : number (init ++ [10] ++ more) = number (init ++ [10]) := by
  obtain ⟨b, rest, skipped⟩ := dropWhile_space visible
  have ends : ∃ x, (sign (b :: (rest ++ [10]))).2 = x ++ [10] := by
    unfold sign
    dsimp only
    split
    · exact ⟨rest, rfl⟩
    · split
      · exact ⟨rest, rfl⟩
      · exact ⟨b :: rest, rfl⟩
  obtain ⟨x, ends⟩ := ends
  unfold number
  rw [List.dropWhile_append, skipped, List.isEmpty_cons, if_neg (by decide)]
  dsimp only
  rw [sign_append, ends, takeWhile_digits (by decide)]

end Number

end Decimal
