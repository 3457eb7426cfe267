import Mathlib.Algebra.Group.Nat.Defs
import Mathlib.Data.Int.ConditionallyCompleteOrder
import Mathlib.Data.Set.Function
import Mathlib.Order.ConditionallyCompleteLattice.Basic
import Mathlib.Order.Interval.Set.Defs
import Mathlib.Tactic.Common

/-!
# Byte-addressed memory

A flat memory is a function from addresses to bytes. Runs of bytes are read and
written in address order, and a word is eight bytes, least significant first.

The frame rule of the library is stated with `Set.EqOn`: two memories that agree
on an interval are read alike inside it (`read_congr`, `readWord_congr`), and a
write changes nothing outside its own interval (`eqOn_write`).
-/

/-- Memory: a byte at every address. -/
abbrev ByteMem : Type := Int → UInt8

namespace ByteMem

open Set

/-! ## Runs of bytes -/

/-- Store `bs` at `a`, `a + 1`, and so on. -/
def write (m : ByteMem) (a : Int) : List UInt8 → ByteMem
  | [] => m
  | b :: bs => write (Function.update m a b) (a + 1) bs

/-- The `n` bytes at `a`. -/
def read (m : ByteMem) (a : Int) : Nat → List UInt8
  | 0 => []
  | n + 1 => m a :: read m (a + 1) n

theorem write_of_outside {m : ByteMem} {a x : Int} {bs : List UInt8}
    (outside : x < a ∨ a + bs.length ≤ x) : m.write a bs x = m x := by
  induction bs generalizing m a with
  | nil => rfl
  | cons b bs ih =>
      rw [List.length_cons] at outside
      rw [write, ih (by omega), Function.update_of_ne (by omega)]

/-- A write leaves every interval it misses as it was. -/
theorem eqOn_write {m : ByteMem} {a lo hi : Int} {bs : List UInt8}
    (miss : hi ≤ a ∨ a + bs.length ≤ lo) : EqOn (m.write a bs) m (Ico lo hi) := by
  intro x inside
  exact write_of_outside (by rcases inside with ⟨low, high⟩; omega)

theorem read_congr {m m' : ByteMem} {a lo hi : Int} {n : Nat} (same : EqOn m m' (Ico lo hi))
    (low : lo ≤ a) (high : a + n ≤ hi) : m.read a n = m'.read a n := by
  induction n generalizing a with
  | zero => rfl
  | succ n ih =>
      have head : m a = m' a := same ⟨low, by omega⟩
      rw [read, read, head, ih (by omega) (by omega)]

theorem read_write (m : ByteMem) (a : Int) (bs : List UInt8) :
    (m.write a bs).read a bs.length = bs := by
  induction bs generalizing m a with
  | nil => rfl
  | cons b bs ih =>
      have head : write (Function.update m a b) (a + 1) bs a = b := by
        rw [write_of_outside (Or.inl (by omega)), Function.update_self]
      rw [List.length_cons, read, write, head, ih]

/-! ## Words -/

/-- The `n` low bytes of `w`, least significant first. -/
def leBytes : Nat → Nat → List UInt8
  | 0, _ => []
  | n + 1, w => UInt8.ofNat w :: leBytes n (w / 256)

/-- The number with these bytes, least significant first. -/
def ofLeBytes : List UInt8 → Nat
  | [] => 0
  | b :: bs => b.toNat + 256 * ofLeBytes bs

@[simp] theorem length_leBytes (n w : Nat) : (leBytes n w).length = n := by
  induction n generalizing w with
  | zero => rfl
  | succ n ih => simp only [leBytes, List.length_cons, ih]

theorem ofLeBytes_leBytes (n w : Nat) : ofLeBytes (leBytes n w) = w % 256 ^ n := by
  induction n generalizing w with
  | zero => simp [leBytes, ofLeBytes, Nat.mod_one]
  | succ n ih =>
      have low : (UInt8.ofNat w).toNat = w % 256 := by simp
      rw [leBytes, ofLeBytes, ih, low, Nat.pow_succ', Nat.mod_mul]

/-- The word at `a`. -/
def readWord (m : ByteMem) (a : Int) : Nat := ofLeBytes (m.read a 8)

/-- Store the word `w` at `a`. -/
def writeWord (m : ByteMem) (a : Int) (w : Nat) : ByteMem := m.write a (leBytes 8 w)

theorem readWord_writeWord {m : ByteMem} {a : Int} {w : Nat} (fits : w < 2 ^ 64) :
    (m.writeWord a w).readWord a = w := by
  have bytes := read_write m a (leBytes 8 w)
  rw [length_leBytes] at bytes
  rw [readWord, writeWord, bytes, ofLeBytes_leBytes]
  exact Nat.mod_eq_of_lt (Nat.lt_of_lt_of_le fits (by decide))

theorem readWord_congr {m m' : ByteMem} {a lo hi : Int} (same : EqOn m m' (Ico lo hi))
    (low : lo ≤ a) (high : a + 8 ≤ hi) : m.readWord a = m'.readWord a := by
  rw [readWord, readWord, read_congr same low (by omega)]

theorem eqOn_writeWord {m : ByteMem} {a lo hi : Int} {w : Nat}
    (miss : hi ≤ a ∨ a + 8 ≤ lo) : EqOn (m.writeWord a w) m (Ico lo hi) :=
  eqOn_write (by rw [length_leBytes]; omega)

end ByteMem
