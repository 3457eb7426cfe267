import Verben.Vector.Stored

/-!
# The count of a vector

`vector_set_at` adds one to the count at every call, whatever the index. So the count is the
length of a list of elements only as long as each store is at the end of this list
(`VecRun.Lists`): after a store at another index it is too small or too large for the elements,
and `vector_push` may overwrite one of them. `vector_count_iff` says that the count is right
along a run exactly if all stores are of this kind.
-/

namespace Verben

open Transition

/-- The count is one plus the highest index that was stored, or 0. -/
def Counts (r : VecRun) : Prop :=
  (∀ i, r.stored i ≠ none → i < r.vec.count) ∧
    (r.vec.count = 0 ∨ r.stored (r.vec.count - 1) ≠ none)

/-- `vector_push` overwrites no element. -/
def PushesFresh (r : VecRun) : VecCall → Prop
  | .push _ _ => r.stored r.vec.count = none
  | .setAt _ _ _ => True

/-- `vector_set_at` is called for the index that is the count. -/
def AtCount (r : VecRun) : VecCall → Prop
  | .push _ _ => True
  | .setAt index _ _ => index = r.vec.count

/-- The vector is a list: the elements have the indices from 0 on, and are counted. -/
structure VecRun.Lists (r : VecRun) (elements : List (List UInt8)) : Prop where
  stored : ∀ i, r.stored i = elements[i]?
  count : r.vec.count = elements.length

section Count

variable {r r' : VecRun} {elements : List (List UInt8)} {c : VecCall}

theorem VecRun.Lists.isSome_iff (lists : r.Lists elements) (i : Nat) :
    r.stored i ≠ none ↔ i < r.vec.count := by
  rw [lists.stored, lists.count, Ne, List.getElem?_eq_none_iff, Nat.not_le]

theorem VecRun.Lists.counts (lists : r.Lists elements) : Counts r := by
  refine ⟨fun i => (lists.isSome_iff i).mp, ?_⟩
  by_cases zero : r.vec.count = 0
  · exact .inl zero
  · exact .inr ((lists.isSome_iff _).mpr (by omega))

theorem VecRun.Lists.pushesFresh (lists : r.Lists elements) (c : VecCall) : PushesFresh r c := by
  cases c with
  | setAt => trivial
  | push =>
      by_contra stored
      exact Nat.lt_irrefl _ ((lists.isSome_iff _).mp stored)

/-- There are no more elements than slots. -/
theorem VecRun.Lists.count_le (lists : r.Lists elements) (right : r.Right) :
    r.vec.count ≤ r.vec.slots := by
  by_cases zero : r.vec.count = 0
  · omega
  · obtain ⟨data, last⟩ := Option.ne_none_iff_exists'.mp
      ((lists.isSome_iff (r.vec.count - 1)).mpr (by omega))
    have inside := (right.holds last).1
    omega

/-- The index where such a call stores is the count. -/
theorem AtCount.index_eq (atCount : AtCount r c) : c.index r.vec = r.vec.count := by
  cases c with
  | push => rfl
  | setAt => exact atCount

/-- A store at the end is an append. -/
theorem VecRun.Lists.append (lists : r.Lists elements) (right : r.Right) (fits : FitsIn r c)
    (atCount : AtCount r c) (stepped : r.step c = some r') :
    r'.Lists (elements ++ [c.data.take r.vec.size]) := by
  obtain ⟨r₁, ran, right', count, -, inside, stored⟩ := right.step_spec c fits
  cases stepped.symm.trans ran
  rw [atCount.index_eq, lists.count] at inside stored
  have slots := right'.sound.slots_lt
  constructor
  case stored =>
    intro i
    rw [stored]
    by_cases last : i = elements.length
    case pos =>
      rw [last, Function.update_self, List.getElem?_concat_length]
    case neg =>
      rw [Function.update_of_ne last, lists.stored]
      by_cases inside : i < elements.length
      case pos => rw [List.getElem?_append_left inside]
      case neg =>
        rw [List.getElem?_eq_none (by omega), List.getElem?_eq_none]
        rw [List.length_append, List.length_singleton]
        omega
  case count =>
    rw [count, lists.count, List.length_append, List.length_singleton]
    exact Nat.mod_eq_of_lt (by omega)

/-- After a store at another index, the count is wrong. -/
theorem VecRun.Lists.atCount (lists : r.Lists elements) (right : r.Right) (fits : FitsIn r c)
    (stepped : r.step c = some r') (counts : Counts r') : AtCount r c := by
  obtain ⟨r₁, ran, -, count, -, -, stored⟩ := right.step_spec c fits
  cases stepped.symm.trans ran
  cases c with
  | push => trivial
  | setAt index data realloc =>
      change index = r.vec.count
      by_contra other
      have here : r'.stored index ≠ none := by
        rw [stored]
        change Function.update r.stored index _ index ≠ none
        rw [Function.update_self]
        exact nofun
      have less := counts.1 index here
      have le := lists.count_le right
      have slots := right.sound.slots_lt
      by_cases room : r.vec.count + 1 < 2 ^ 32
      case neg =>
        rw [count, show r.vec.count + 1 = 2 ^ 32 by omega] at less
        omega
      case pos =>
        rw [Nat.mod_eq_of_lt room] at count
        rcases counts.2 with zero | last
        · omega
        · rw [count, Nat.add_sub_cancel, stored] at last
          change Function.update r.stored index _ r.vec.count ≠ none at last
          rw [Function.update_of_ne (Ne.symm other)] at last
          exact Nat.lt_irrefl _ ((lists.isSome_iff _).mp last)

/-- Along a run from a list, the count is right if and only if all stores are appends. -/
theorem VecRun.Lists.along_iff (calls : List VecCall) (lists : r.Lists elements)
    (right : r.Right) (fits : Along VecRun.step FitsIn r calls) :
    (Throughout VecRun.step Counts r calls ∧ Along VecRun.step PushesFresh r calls) ↔
      Along VecRun.step AtCount r calls := by
  induction calls generalizing r elements with
  | nil => exact ⟨fun _ => trivial, fun _ => ⟨lists.counts, trivial⟩⟩
  | cons c calls ih =>
      obtain ⟨fits, others⟩ := fits
      obtain ⟨r', stepped, right', -⟩ := right.step_spec c fits
      have next : ∀ t, r.step c = some t → t = r' := fun t same =>
        Option.some_inj.mp (same.symm.trans stepped)
      constructor
      case mp =>
        rintro ⟨⟨-, counts⟩, ⟨-, fresh⟩⟩
        have atCount := lists.atCount right fits stepped (counts r' stepped).head
        refine ⟨atCount, fun t same => ?_⟩
        rw [next t same]
        exact (ih (lists.append right fits atCount stepped) right' (others r' stepped)).mp
          ⟨counts r' stepped, fresh r' stepped⟩
      case mpr =>
        rintro ⟨atCount, atCounts⟩
        have rest := (ih (lists.append right fits atCount stepped) right'
          (others r' stepped)).mpr (atCounts r' stepped)
        refine ⟨⟨lists.counts, fun t same => ?_⟩, lists.pushesFresh c, fun t same => ?_⟩
        · rw [next t same]
          exact rest.1
        · rw [next t same]
          exact rest.2

end Count

theorem newRun_lists {slots size : Nat} {vec : Vec} (typed : slots < 2 ^ 32)
    (new : vectorNew slots size true true = some vec) (fits : newSlots slots * size < 2 ^ 32) :
    (newRun vec).Lists [] :=
  ⟨fun _ => rfl, (vectorNew_spec typed new fits).2.1⟩

/-- In a run from a new vector, the count is one plus the highest index that was stored, and no
append overwrites an element, if and only if `vector_set_at` is only called for the index that
is the count. -/
theorem vector_count_iff {slots size : Nat} {vec : Vec} (typed : slots < 2 ^ 32)
    (new : vectorNew slots size true true = some vec) (fits : newSlots slots * size < 2 ^ 32)
    (calls : List VecCall) (fitting : Along VecRun.step FitsIn (newRun vec) calls) :
    (Throughout VecRun.step Counts (newRun vec) calls ∧
        Along VecRun.step PushesFresh (newRun vec) calls) ↔
      Along VecRun.step AtCount (newRun vec) calls :=
  (newRun_lists typed new fits).along_iff calls (vectorNew_spec typed new fits).1 fitting

/-- An append by index, behind one by `vector_push`. -/
def appends : List VecCall := [.push [7] plenty, .setAt 1 [8] plenty]

theorem vector_count_iff_appends :
    Throughout VecRun.step Counts (newRun bytes) appends ∧
      Along VecRun.step PushesFresh (newRun bytes) appends := by
  obtain ⟨r₁, step₁, right₁, count₁, size₁, -⟩ := bytes_step bytes_push
  have next : ∀ t, (newRun bytes).step (.push [7] plenty) = some t → t = r₁ := fun t same =>
    Option.some_inj.mp (same.symm.trans step₁)
  have fitting : Along VecRun.step FitsIn (newRun bytes) appends := by
    refine ⟨bytes_push, fun t same => ⟨?_, fun _ _ => trivial⟩⟩
    rw [next t same]
    exact right₁.fitsIn_setAt (by omega) (by rw [size₁]; decide) (by rw [size₁]; decide)
  have atCount : Along VecRun.step AtCount (newRun bytes) appends := by
    refine ⟨trivial, fun t same => ⟨?_, fun _ _ => trivial⟩⟩
    rw [next t same]
    exact count₁.symm
  exact (vector_count_iff (by decide) bytes_new (by decide) appends fitting).mpr atCount

/-- A store at index 1 of an empty vector, and an append. -/
def gap : List VecCall := [.setAt 1 [7] plenty, .push [9] plenty]

/-- The append overwrites the element at index 1. -/
theorem vector_push_overwrites : ¬ ∀ slots size vec calls, slots < 2 ^ 32 →
    vectorNew slots size true true = some vec → newSlots slots * size < 2 ^ 32 →
    Along VecRun.step FitsIn (newRun vec) calls →
    Throughout VecRun.step Counts (newRun vec) calls ∧
      Along VecRun.step PushesFresh (newRun vec) calls := by
  intro claim
  have fits₁ : FitsIn (newRun bytes) (.setAt 1 [7] plenty) :=
    bytes_right.fitsIn_setAt (by decide) (by decide) (by decide)
  obtain ⟨r₁, step₁, right₁, count₁, size₁, stored₁⟩ := bytes_step fits₁
  have fitting : Along VecRun.step FitsIn (newRun bytes) gap := by
    refine ⟨fits₁, fun t same => ⟨?_, fun _ _ => trivial⟩⟩
    cases same.symm.trans step₁
    exact right₁.fitsIn_push (by omega) (by rw [size₁]; decide) (by rw [count₁, size₁]; decide)
  obtain ⟨-, -, fresh⟩ := claim 2 1 bytes gap (by decide) bytes_new (by decide) fitting
  have absent : r₁.stored r₁.vec.count = none := (fresh r₁ step₁).1
  rw [count₁, stored₁] at absent
  exact nomatch absent

end Verben
