import Verben.Lib.Decimal
import Verben.Sds.Valid

/-!
# Printing a number

`sdsfromlonglong` of `src/sds.c`. It writes the digits from the end of `buf` towards its start,
and the 32 bytes are enough for every `long long`. What it prints is what `strtol` reads
(`sdsfromlonglong_round_trip`).
-/

namespace Verben

open CInt Decimal

/-- `buf`, and where `p` is in it. -/
structure NumberBuf : Type where
  buf : Region
  p : Int

/-- `*p-- = b`. -/
def NumberBuf.put (st : NumberBuf) (b : UInt8) : Option NumberBuf :=
  (st.buf.store st.p [b]).map fun buf => ⟨buf, st.p - 1⟩

/-- The loop over the digits, which has no result if it has not ended after so many rounds. -/
def digitLoop : Nat → Nat → NumberBuf → Option NumberBuf
  | 0, _, _ => none
  | rounds + 1, v, st =>
      (st.put (UInt8.ofNat (48 + v % 10))).bind fun st =>
        if v / 10 ≠ 0 then digitLoop rounds (v / 10) st else some st

/-- `sdsfromlonglong`. The smallest `value` is its own negation. -/
def sdsfromlonglong (value : Int) : Option Sds :=
  let v := toUInt64 (if value < 0 then toInt64 (-value) else value)
  (digitLoop 32 v.toNat ⟨List.replicate 32 none, 31⟩).bind fun st =>
    (if value < 0 then st.put 45 else some st).bind fun st =>
      let p := st.p + 1
      (st.buf.load p (32 - p)).bind fun bytes => sdsnewlen (some bytes) (32 - p).toNat

/-- The number in decimal, behind its sign. -/
def signedDigits (value : Int) : List UInt8 :=
  if value < 0 then 45 :: digits value.natAbs else digits value.natAbs

/-- The end of `buf` holds the bytes, and `p` is in front of them. -/
structure NumberBuf.Ends (st : NumberBuf) (bytes : List UInt8) : Prop where
  size : st.buf.length = 32
  short : bytes.length ≤ 32
  here : st.buf.Has (32 - bytes.length) bytes
  front : st.p + 1 + bytes.length = 32

variable {st : NumberBuf} {bytes : List UInt8} {v : Nat}

theorem NumberBuf.Ends.put (ends : st.Ends bytes) (room : bytes.length < 32) (b : UInt8) :
    ∃ st', st.put b = some st' ∧ st'.Ends (b :: bytes) := by
  obtain ⟨size, short, here, front⟩ := ends
  have place : st.p = (31 - bytes.length : Nat) := by omega
  have inside : 31 - bytes.length + [b].length ≤ st.buf.length := by
    rw [size, List.length_singleton]
    omega
  obtain ⟨buf, stored, same, new, old⟩ := Region.store_spec inside
  refine ⟨⟨buf, st.p - 1⟩, ?_, same.trans size, room, ?_, ?_⟩
  · unfold NumberBuf.put
    rw [place, stored]
    rfl
  · have behind := (old here (.inr (by rw [List.length_singleton]; omega))).here
    have next : 32 - bytes.length = 31 - bytes.length + 1 := by omega
    have cell := new.here
    rw [List.length_cons]
    refine ⟨?_, ?_⟩
    · rw [same, size, List.length_cons]
      omega
    · have start : 32 - (bytes.length + 1) = 31 - bytes.length := by omega
      rw [next, ← List.tail_drop] at behind
      rw [start]
      cases rest : buf.drop (31 - bytes.length) with
      | nil =>
          rw [rest] at cell
          exact absurd (List.prefix_nil.mp cell) (by simp)
      | cons x xs =>
          rw [rest] at cell behind
          rw [(List.cons_prefix_cons.mp cell).1.symm]
          exact List.cons_prefix_cons.mpr ⟨rfl, behind⟩
  · rw [List.length_cons]
    push_cast
    omega

theorem digitChar_eq {d : Nat} (low : d < 10) :
    UInt8.ofNat (48 + d) = UInt8.ofNat d.digitChar.toNat := by
  rw [Nat.toNat_digitChar_of_lt_ten low]

/-- The loop puts the digits in front of what is there. -/
theorem digitLoop_digits (ends : st.Ends bytes) {rounds : Nat}
    (enough : (digits v).length ≤ rounds) (room : (digits v).length + bytes.length ≤ 32) :
    ∃ st', digitLoop rounds v st = some st' ∧ st'.Ends (digits v ++ bytes) := by
  have low := Nat.mod_lt v (show 10 > 0 by decide)
  induction rounds generalizing v st bytes with
  | zero => exact absurd (List.length_eq_zero_iff.mp (Nat.le_zero.mp enough)) (digits_ne_nil v)
  | succ rounds ih =>
      have some' := List.length_pos_iff.mpr (digits_ne_nil v)
      obtain ⟨st₁, put, ends₁⟩ := ends.put (by omega) (UInt8.ofNat (48 + v % 10))
      rw [digitChar_eq low] at ends₁
      unfold digitLoop
      rw [put, Option.bind_some]
      by_cases last : v / 10 = 0
      · have small : v < 10 := by omega
        rw [Nat.mod_eq_of_lt small] at ends₁
        rw [if_neg (not_not.mpr last), digits_of_lt small]
        exact ⟨st₁, rfl, ends₁⟩
      · have parts := digits_of_le (n := v) (by omega)
        have length := congrArg List.length parts
        rw [List.length_append, List.length_singleton] at length
        rw [if_pos last, parts, List.append_assoc]
        exact ih ends₁ (by omega) (by rw [List.length_append, List.length_singleton]; omega)
          (Nat.mod_lt _ (by decide))

/-- `v` is the absolute value, for the smallest number too. -/
theorem toUInt64_abs {value : Int} (low : -2 ^ 63 ≤ value) (high : value < 2 ^ 63) :
    (toUInt64 (if value < 0 then toInt64 (-value) else value)).toNat = value.natAbs := by
  unfold toUInt64 toInt64
  split
  · split
    · omega
    · omega
  · omega

theorem sdsfromlonglong_holds {value : Int} (low : -2 ^ 63 ≤ value) (high : value < 2 ^ 63) :
    ∃ s, sdsfromlonglong value = some s ∧ s.Holds (signedDigits value) := by
  have few : (digits value.natAbs).length ≤ 20 :=
    (length_digits_le_iff (by decide)).mpr (by omega)
  have start : NumberBuf.Ends ⟨List.replicate 32 none, 31⟩ [] :=
    ⟨List.length_replicate, Nat.zero_le _, ⟨by decide, List.nil_prefix⟩, rfl⟩
  obtain ⟨st, looped, ends⟩ := digitLoop_digits start (v := value.natAbs)
    (show _ ≤ 32 by omega) (by rw [List.length_nil]; omega)
  rw [List.append_nil] at ends
  have signed : ∃ st', (if value < 0 then st.put 45 else some st) = some st' ∧
      st'.Ends (signedDigits value) := by
    unfold signedDigits
    split
    · exact ends.put (by omega) 45
    · exact ⟨st, rfl, ends⟩
  obtain ⟨st', put, size, short, here, front⟩ := signed
  have place : st'.p + 1 = (32 - (signedDigits value).length : Nat) := by omega
  have count : 32 - (st'.p + 1) = (signedDigits value).length := by omega
  obtain ⟨s, made, valid⟩ := @sdsnewlen_of_short (some (signedDigits value))
    (signedDigits value).length (by rintro bytes ⟨⟩; exact Nat.le_refl _) (by omega)
  refine ⟨s, ?_, ?_⟩
  · unfold sdsfromlonglong
    simp only
    rw [toUInt64_abs low high, looped, Option.bind_some, put, Option.bind_some, count, place,
      here.load, Option.bind_some]
    exact made
  · have holds := valid.holds
    unfold newBytes at holds
    simpa using holds

theorem number_signedDigits (value : Int) : number (signedDigits value) = value := by
  unfold signedDigits
  split
  · have all : (digits value.natAbs).takeWhile (IsDigit ·) = digits value.natAbs :=
      List.takeWhile_eq_self_iff.mpr fun b mem => decide_eq_true (isDigit_of_mem_digits mem)
    unfold number
    rw [List.dropWhile_cons_of_neg (by decide)]
    dsimp only [sign]
    rw [if_pos rfl, all, value_digits]
    omega
  · rw [number_digits]
    omega

/-- Every `long long` is printed inside `buf`, and `strtol` reads it back. -/
theorem sdsfromlonglong_round_trip {value : Int} (low : -2 ^ 63 ≤ value) (high : value < 2 ^ 63) :
    ∃ s, sdsfromlonglong value = some s ∧ s.Holds (signedDigits value) ∧
      strtol s.content = value := by
  obtain ⟨s, made, holds⟩ := sdsfromlonglong_holds low high
  refine ⟨s, made, holds, ?_⟩
  rw [holds.content_eq]
  unfold strtol
  rw [number_signedDigits]
  omega

/-- The smallest `long long`. -/
theorem sdsfromlonglong_round_trip_min : ∃ s, sdsfromlonglong (-2 ^ 63) = some s ∧
    s.Holds (signedDigits (-2 ^ 63)) ∧ strtol s.content = -2 ^ 63 :=
  sdsfromlonglong_round_trip (by decide) (by decide)

end Verben
