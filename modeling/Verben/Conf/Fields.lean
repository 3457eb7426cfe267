import Verben.Conf.Explode
import Verben.Lib.Runs

/-!
# The fields of a line

`str_explode` cuts the string in its buffer into its first runs, and the rest. The cut is in
place: the terminator and what is behind it stay as they are. `splitFields`, by which
`explodes` says what the fields are, gives the fields of `Runs.Fields`.
-/

namespace Verben

open Runs

theorem Ifs.table_zero (ifs : Ifs) : ifs.table 0 = false := by
  cases ifs with
  | null => rfl
  | array bytes =>
      cases bytes with
      | nil => rfl
      | cons b bytes =>
          by_cases table : b = 0
          case pos => simp [Ifs.table, table]
          case neg =>
            have apart : 0 ∉ cstr (b :: bytes) 0 := fun mem => by
              simpa using List.mem_takeWhile_imp mem
            simp [Ifs.table, table, apart]

/-- `splitFields` cuts a string into its runs and the rest. -/
theorem splitFields_fields (ifs : UInt8 → Bool) (more : Nat) (s : CStr) :
    Fields ifs s (more + 1) (splitFields ifs more s) := by
  induction more generalizing s with
  | zero =>
      unfold splitFields
      cases left : s.dropWhile ifs with
      | nil => exact fields_nil left (Nat.le_refl 1)
      | cons b rest =>
          have nonempty : s.dropWhile ifs ≠ [] := by simp [left]
          have word := List.head_dropWhile_not ifs nonempty
          exact fields_one left (by simpa [left] using word)
  | succ more ih =>
      unfold splitFields
      cases left : s.dropWhile ifs with
      | nil => exact fields_nil left (Nat.le_add_left 1 _)
      | cons b rest =>
          have nonempty : s.dropWhile ifs ≠ [] := by simp [left]
          have word := List.head_dropWhile_not ifs nonempty
          exact fields_cons left (by simpa [left] using word) (Nat.le_add_left 1 _) (ih _)

/-- A buffer with a terminator is a string, the terminator, and what is behind it. -/
theorem buffer_split {buf : List UInt8} (ended : 0 ∈ buf) :
    ∃ after, buf = cstr buf 0 ++ 0 :: after := by
  have split : buf.takeWhile (· ≠ 0) ++ buf.dropWhile (· ≠ 0) = buf :=
    List.takeWhile_append_dropWhile
  cases left : buf.dropWhile (· ≠ 0) with
  | nil =>
      rw [left, List.append_nil] at split
      rw [← split] at ended
      simpa using List.mem_takeWhile_imp ended
  | cons b after =>
      have nonempty : buf.dropWhile (· ≠ 0) ≠ [] := by
        rw [left]
        exact nofun
      have stop := List.head_dropWhile_not _ nonempty
      have zero : b = 0 := by simpa only [left, List.head_cons, decide_eq_false_iff_not,
        ne_eq, Decidable.not_not] using stop
      refine ⟨after, ?_⟩
      rw [left, zero] at split
      exact split.symm

/-- `str_explode` ends inside the buffer. It returns the first `n - 1` runs, and as the `n`-th
field the rest from the `n`-th run on, without the separators at its end; the terminator of the
buffer and what is behind it stay. -/
theorem str_explode_fields (ifs : Ifs) {buf : List UInt8} (ended : 0 ∈ buf) {n : Nat}
    (positive : 1 ≤ n) :
    ∃ field buf', strExplode ifs buf n = some (field, buf') ∧
      buf'.length = buf.length ∧
      buf'.drop (cstr buf 0).length = buf.drop (cstr buf 0).length ∧
      Fields ifs.table (cstr buf 0) n (field.map (cstr buf')) := by
  obtain ⟨after, split⟩ := buffer_split ended
  have clean : 0 ∉ cstr buf 0 := fun mem => by simpa using List.mem_takeWhile_imp mem
  have cut : Explodes ifs.table (n - 1) [] (cstr buf 0) after :=
    explodes ifs.table_zero (n - 1) clean
  rcases cut with ⟨field, s', ran, length, texts⟩
  rw [List.nil_append, ← split, List.nil_append] at ran
  refine ⟨field, _, ran, ?_, ?_, ?_⟩
  · conv_rhs => rw [split]
    rw [List.length_append, List.length_append, length]
  · have behind : buf.drop (cstr buf 0).length = 0 :: after := by
      generalize cstr buf 0 = s at split
      rw [split, List.drop_left]
    rw [behind, ← length, List.drop_left]
  · rw [List.nil_append] at texts
    rw [texts]
    have fields := splitFields_fields ifs.table (n - 1) (cstr buf 0)
    rwa [Nat.sub_add_cancel positive] at fields

/-- ` a  b c `, with blanks around the words. -/
def threeWords : List UInt8 := [32, 97, 32, 32, 98, 32, 99, 32, 0]

theorem str_explode_fields_words :
    ∃ field buf', strExplode .null threeWords 2 = some (field, buf') ∧
      Fields (Ifs.table .null) (cstr threeWords 0) 2 (field.map (cstr buf')) := by
  obtain ⟨field, buf', ran, -, -, fields⟩ :=
    str_explode_fields .null (show 0 ∈ threeWords by decide) (show 1 ≤ 2 by decide)
  exact ⟨field, buf', ran, fields⟩

end Verben
