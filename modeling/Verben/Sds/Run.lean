import Verben.Lib.Transition
import Verben.Sds.Valid

/-!
# Sequences of calls on one string

After any sequence of calls, a string represents what the same sequence makes of a list of
bytes (`sds_keeps_bytes`), as long as twice the length stays below 2 ^ 31.
-/

namespace Verben

open Transition

/-- A call on a string. The bytes that are passed are not those of the string. -/
inductive SdsOp : Type
  | catlen (t : List UInt8)
  | cpylen (t : List UInt8)
  | growzero (len : Nat)
  | range (start stop : Int32)
  | trim (cset : List UInt8)
  | clear

/-- The call. -/
def SdsOp.call (s : Sds) : SdsOp → Option Sds
  | .catlen t => sdscatlen s t
  | .cpylen t => sdscpylen s t
  | .growzero len => sdsgrowzero s len
  | .range start stop => sdsrange s start.toInt stop.toInt
  | .trim cset => sdstrim s cset
  | .clear => sdsclear s

/-- What the call means for the bytes. -/
def SdsOp.onBytes (c : List UInt8) : SdsOp → List UInt8
  | .catlen t => c ++ t
  | .cpylen t => t
  | .growzero len => c ++ List.replicate (len - c.length) 0
  | .range start stop => slice c start.toInt stop.toInt
  | .trim cset => trimmed cset c
  | .clear => []

/-- Twice the length is below 2 ^ 31. -/
def Short (c : List UInt8) : Prop := 2 * c.length < 2 ^ 31

instance (c : List UInt8) : Decidable (Short c) := inferInstanceAs (Decidable (_ < _))

/-- The bytes stay short along a sequence of calls. -/
def StaysShort (c : List UInt8) (ops : List SdsOp) : Prop :=
  Throughout (fun c op => some (SdsOp.onBytes c op)) Short c ops

/-- One call keeps the representation, and does to the bytes what it means. -/
theorem SdsOp.call_spec {s : Sds} {c : List UInt8} {op : SdsOp} (valid : s.Valid c)
    (short : Short c) (short' : Short (op.onBytes c)) :
    ∃ s', op.call s = some s' ∧ s'.Valid (op.onBytes c) := by
  unfold Short at short short'
  cases op with
  | catlen t => exact sdscatlen_of_valid valid (by rwa [onBytes, List.length_append] at short')
  | cpylen t => exact sdscpylen_of_valid valid short'
  | growzero len =>
      apply sdsgrowzero_of_valid valid
      rw [onBytes, List.length_append, List.length_replicate] at short'
      omega
  | range start stop =>
      exact sdsrange_of_valid valid short ⟨start.le_toInt, start.toInt_lt⟩
        ⟨stop.le_toInt, stop.toInt_lt⟩
  | trim cset => exact sdstrim_of_valid valid cset
  | clear => exact sdsclear_of_valid valid

theorem SdsOp.run_spec {s : Sds} {c : List UInt8} {ops : List SdsOp} (valid : s.Valid c)
    (short : StaysShort c ops) :
    ∃ s', run SdsOp.call s ops = some s' ∧ s'.Valid (ops.foldl SdsOp.onBytes c) := by
  induction ops generalizing s c with
  | nil => exact ⟨s, rfl, valid⟩
  | cons op ops ih =>
      have rest := short.2 _ rfl
      obtain ⟨s', called, valid'⟩ := SdsOp.call_spec valid short.1 rest.head
      obtain ⟨s'', ran, valid''⟩ := ih valid' rest
      exact ⟨s'', run_cons called ran, valid''⟩

/-- A new string, and calls on it. -/
def sdsRun (init : Option (List UInt8)) (initlen : Nat) (ops : List SdsOp) : Option Sds :=
  (sdsnewlen init initlen).bind (run SdsOp.call · ops)

/-- After each call of a sequence on a new string, the representation is valid, and the bytes
are those that the same operations on byte lists give. -/
theorem sds_keeps_bytes {init : Option (List UInt8)} {initlen : Nat} {ops : List SdsOp}
    (given : ∀ bytes, init = some bytes → initlen ≤ bytes.length)
    (short : StaysShort (newBytes init initlen) ops) {before : List SdsOp}
    (done : before <+: ops) :
    ∃ s, sdsRun init initlen before = some s ∧
      s.Valid (before.foldl SdsOp.onBytes (newBytes init initlen)) := by
  rcases done with ⟨after, rfl⟩
  have first := short.head
  unfold Short at first
  rw [length_newBytes given] at first
  obtain ⟨s, new, valid⟩ := sdsnewlen_of_short given (by omega)
  obtain ⟨s', ran, valid'⟩ := SdsOp.run_spec valid short.of_append
  refine ⟨s', ?_, valid'⟩
  unfold sdsRun
  rw [new]
  exact ran

/-- `xxciaoyyy`. -/
def xxciaoyyy : List UInt8 := [120, 120, 99, 105, 97, 111, 121, 121, 121]

/-- Trim `x` and `y`, and keep the last two bytes. -/
def trimAndCut : List SdsOp := [.trim [120, 121], .range (-2) (-1)]

theorem sds_keeps_bytes_ciao :
    ∃ s, sdsRun (some xxciaoyyy) 9 trimAndCut = some s ∧ s.Valid [97, 111] := by
  have given : ∀ bytes, some xxciaoyyy = some bytes → 9 ≤ bytes.length := by
    intro bytes same
    cases same
    decide
  have short : StaysShort (newBytes (some xxciaoyyy) 9) trimAndCut := by
    refine ⟨by decide, fun trimmed same => ⟨?_, fun cut same' => ?_⟩⟩
    · cases same
      decide
    · cases same
      cases same'
      exact (by decide : Short [97, 111])
  exact sds_keeps_bytes given short (List.prefix_refl _)

end Verben
