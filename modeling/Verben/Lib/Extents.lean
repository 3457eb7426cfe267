import Mathlib.Tactic.Common

/-!
# Intervals laid end to end

A list of records with their extents `[lo k, hi k)`. `Fill lo hi a ks b` says the
extents lie end to end, in the order of the list, and fill `[a, b)` exactly; no
extent is empty. It is the geometry of a log or a ring of variable-size records,
with nothing about what a record holds.
-/

namespace Extents

variable {K : Type*} {lo hi : K → Int}

/-- The extents of `ks` fill `[a, b)` end to end. -/
def Fill (lo hi : K → Int) : Int → List K → Int → Prop
  | a, [], b => a = b
  | a, k :: ks, b => lo k = a ∧ a < hi k ∧ Fill lo hi (hi k) ks b

theorem Fill.nil {a b : Int} (same : a = b) : Fill lo hi a [] b := same

theorem Fill.le {a b : Int} {ks : List K} (fill : Fill lo hi a ks b) : a ≤ b := by
  induction ks generalizing a with
  | nil => exact Int.le_of_eq fill
  | cons k ks ih =>
      rcases fill with ⟨_, nonempty, rest⟩
      have := ih rest
      omega

/-- Every extent lies inside the interval. -/
theorem Fill.mem {a b : Int} {ks : List K} (fill : Fill lo hi a ks b) {k : K} (mem : k ∈ ks) :
    a ≤ lo k ∧ lo k < hi k ∧ hi k ≤ b := by
  induction ks generalizing a with
  | nil => cases mem
  | cons k₀ ks ih =>
      rcases fill with ⟨first, nonempty, rest⟩
      cases mem with
      | head =>
          have := rest.le
          omega
      | tail _ mem =>
          have := ih rest mem
          omega

/-- Each extent is behind those before it. -/
theorem Fill.pairwise {a b : Int} {ks : List K} (fill : Fill lo hi a ks b) :
    ks.Pairwise fun k l => hi k ≤ lo l := by
  induction ks generalizing a with
  | nil => exact .nil
  | cons k ks ih =>
      rcases fill with ⟨_, _, rest⟩
      exact .cons (fun l mem => (rest.mem mem).1) (ih rest)

theorem Fill.append {a b c : Int} {ks ls : List K} (left : Fill lo hi a ks b)
    (right : Fill lo hi b ls c) : Fill lo hi a (ks ++ ls) c := by
  induction ks generalizing a with
  | nil =>
      cases left
      exact right
  | cons k ks ih =>
      rcases left with ⟨first, nonempty, rest⟩
      exact ⟨first, nonempty, ih rest⟩

/-- One more extent at the end. -/
theorem Fill.snoc {a b : Int} {ks : List K} (fill : Fill lo hi a ks b) {k : K}
    (next : lo k = b) (nonempty : lo k < hi k) : Fill lo hi a (ks ++ [k]) (hi k) :=
  fill.append ⟨next, by omega, rfl⟩

/-- Only the empty list fills the empty interval. -/
theorem Fill.eq_nil {a : Int} {ks : List K} (fill : Fill lo hi a ks a) : ks = [] := by
  cases ks with
  | nil => rfl
  | cons k ks =>
      rcases fill with ⟨_, nonempty, rest⟩
      have := rest.le
      omega

/-- A list that fills a nonempty interval has a first extent. -/
theorem Fill.exists_cons {a b : Int} {ks : List K} (fill : Fill lo hi a ks b) (lt : a < b) :
    ∃ k rest, ks = k :: rest := by
  cases ks with
  | nil =>
      cases fill
      omega
  | cons k ks => exact ⟨k, ks, rfl⟩

/-- Extents of aligned length keep the end aligned. -/
theorem Fill.dvd {d a b : Int} {ks : List K} (fill : Fill lo hi a ks b)
    (lengths : ∀ k, d ∣ hi k - lo k) (aligned : d ∣ a) : d ∣ b := by
  induction ks generalizing a with
  | nil =>
      cases fill
      exact aligned
  | cons k ks ih =>
      rcases fill with ⟨first, _, rest⟩
      apply ih rest
      have sum := Int.dvd_add (lengths k) aligned
      rwa [first, Int.sub_add_cancel] at sum

/-- Extents of at least `d` bytes each: the interval bounds their number. -/
theorem Fill.mul_length_le {d a b : Int} {ks : List K} (fill : Fill lo hi a ks b)
    (lengths : ∀ k, d ≤ hi k - lo k) : d * ks.length ≤ b - a := by
  induction ks generalizing a with
  | nil =>
      cases fill
      simp
  | cons k ks ih =>
      rcases fill with ⟨first, _, rest⟩
      have := ih rest
      have := lengths k
      rw [List.length_cons, Int.natCast_add, Int.mul_add]
      omega

end Extents
