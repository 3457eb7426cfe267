import Mathlib.Algebra.Group.Nat.Defs
import Mathlib.Algebra.Ring.Int.Defs
import Mathlib.Tactic.Common

/-!
# C integer conversions

Values of the C integer types are kept as `Int`, each in the range of its type,
and a conversion the compiler inserts is one of the functions below. On the
LP64 targets `int` has 32 bits, and `long`, `off_t` and `size_t` have 64.

Each conversion is the identity on the range of its target type; these are the
only facts about them the programs over this library need.
-/

namespace CInt

/-- Conversion to `int`. -/
def toInt32 (x : Int) : Int :=
  if x % 2 ^ 32 < 2 ^ 31 then x % 2 ^ 32 else x % 2 ^ 32 - 2 ^ 32

/-- Conversion to a signed 64-bit type (`long`, `off_t`, `ssize_t`). -/
def toInt64 (x : Int) : Int :=
  if x % 2 ^ 64 < 2 ^ 63 then x % 2 ^ 64 else x % 2 ^ 64 - 2 ^ 64

/-- Conversion to `unsigned int`. -/
def toUInt32 (x : Int) : Int := x % 2 ^ 32

/-- Conversion to an unsigned 64-bit type (`size_t`, `uintptr_t`). -/
def toUInt64 (x : Int) : Int := x % 2 ^ 64

theorem toInt32_of_range {x : Int} (low : -2 ^ 31 ≤ x) (high : x < 2 ^ 31) : toInt32 x = x := by
  unfold toInt32
  split <;> omega

theorem toInt64_of_range {x : Int} (low : -2 ^ 63 ≤ x) (high : x < 2 ^ 63) : toInt64 x = x := by
  unfold toInt64
  split <;> omega

theorem toUInt64_of_range {x : Int} (low : 0 ≤ x) (high : x < 2 ^ 64) : toUInt64 x = x := by
  unfold toUInt64
  omega

theorem toInt32_bounds (x : Int) : -2 ^ 31 ≤ toInt32 x ∧ toInt32 x < 2 ^ 31 := by
  unfold toInt32
  split <;> omega

/-- Past the last `int`, the conversion comes back around to the negative end. -/
theorem toInt32_of_overflow {x : Int} (low : 2 ^ 31 ≤ x) (high : x < 2 ^ 32) :
    toInt32 x = x - 2 ^ 32 := by
  unfold toInt32
  split <;> omega

/-- A sum that is converted is exact for one `int` only. -/
theorem eq_of_toInt32_add {a c d : Int} (same : toInt32 (a + c) = a + d)
    (left : -2 ^ 31 ≤ c ∧ c < 2 ^ 31) (right : -2 ^ 31 ≤ d ∧ d < 2 ^ 31) : c = d := by
  unfold toInt32 at same
  split at same <;> omega

/-- Converting an intermediate sum early changes nothing. -/
theorem toInt32_add_left (x y : Int) : toInt32 (toInt32 x + y) = toInt32 (x + y) := by
  unfold toInt32
  repeat' split
  all_goals omega

theorem toInt32_sub_left (x y : Int) : toInt32 (toInt32 x - y) = toInt32 (x - y) :=
  toInt32_add_left x (-y)

end CInt
