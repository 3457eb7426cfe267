import Verben.Vector.Count

/-!
# The iterator of a vector

`vector_iter_next` compares its position with the last index before it knows whether anything
was visited. So the element of a vector with one element is not visited, and in an empty vector,
where the last index is that of the largest number, the iterator goes far behind the block.
`vector_iter_iff`: all elements are visited, in order, if and only if there are two or more.
-/

namespace Verben

open Cursor Transition

/-- A call of `vector_iter_next` as a move: there is none if it returns -1. -/
def vectorAdvance (vec : Vec) (iter : VecIter) : Option (Option VecIter) :=
  some (if (vectorIterNext vec iter).1 ≠ 0 then none else some (vectorIterNext vec iter).2)

/-- The element that an iterator shows, and its index. -/
def VecIter.seen (vec : Vec) (iter : VecIter) : Option (List UInt8) × Nat :=
  (iter.data.bind vec.element, iter.pos)

/-- The elements from an index on. -/
def shownFrom (elements : List (List UInt8)) (pos : Nat) : List (Option (List UInt8) × Nat) :=
  (elements.zipIdx pos).map fun e => (some e.1, e.2)

/-- A new iterator and its moves show these elements from index 0 on, and then end; a null
iterator shows none. -/
def VisitsAll (vec : Vec) (elements : List (List UInt8)) : Prop :=
  match vectorIterNew vec true with
  | none => elements = []
  | some iter => Sees (vectorAdvance vec) (VecIter.seen vec) iter (shownFrom elements 0)

/-- The calls of `vector_push` with these data. -/
def pushes (data : List (List UInt8 × (Nat → Bool))) : List VecCall :=
  data.map fun (data, realloc) => .push data realloc

section Next

variable {vec : Vec} {iter iter' : VecIter}

theorem vectorIterNext_of_last (last : iter.pos = unsignedPred vec.count) :
    vectorIterNext vec iter = (-1, iter) := if_pos last

theorem vectorIterNext_of_start (more : iter.pos ≠ unsignedPred vec.count)
    (start : iter.data = none ∧ iter.pos = 0) :
    vectorIterNext vec iter = (0, { iter with data := some 0 }) := by
  unfold vectorIterNext
  rw [if_neg more, if_pos start]

theorem vectorIterNext_of_more (more : iter.pos ≠ unsignedPred vec.count)
    (placed : iter.data ≠ none) (room : iter.pos + 1 < 2 ^ 32) :
    vectorIterNext vec iter =
      (0, ⟨iter.pos + 1, some ((iter.pos + 1) * vec.size % 2 ^ 32)⟩) := by
  have next : (iter.pos + 1) % 2 ^ 32 = iter.pos + 1 := Nat.mod_eq_of_lt room
  unfold vectorIterNext
  rw [if_neg more, if_neg fun start => placed start.1, next]

theorem vectorAdvance_of_ended (ran : vectorIterNext vec iter = (-1, iter')) :
    vectorAdvance vec iter = some none := by
  unfold vectorAdvance
  rw [ran]
  rfl

theorem vectorAdvance_of_moved (ran : vectorIterNext vec iter = (0, iter')) :
    vectorAdvance vec iter = some (some iter') := by
  unfold vectorAdvance
  rw [ran]
  rfl

theorem vectorIterNew_of_ended (ran : vectorIterNext vec ⟨0, none⟩ = (-1, iter')) :
    vectorIterNew vec true = none := by
  unfold vectorIterNew vectorIterInit
  rw [ran]
  rfl

theorem vectorIterNew_of_moved (ran : vectorIterNext vec ⟨0, none⟩ = (0, iter')) :
    vectorIterNew vec true = some iter' := by
  unfold vectorIterNew vectorIterInit
  rw [ran]
  rfl

end Next

section Iter

variable {r r' : VecRun} {elements : List (List UInt8)} {iter : VecIter}

/-- An iterator at an element. -/
structure VecIter.At (r : VecRun) (iter : VecIter) : Prop where
  inside : iter.pos < r.vec.count
  data : iter.data = some (iter.pos * r.vec.size % 2 ^ 32)

theorem VecRun.Lists.seen (lists : r.Lists elements) (right : r.Right) (at' : iter.At r) :
    ∃ element, elements[iter.pos]? = some element ∧
      iter.seen r.vec = (some element, iter.pos) := by
  obtain ⟨element, last⟩ :=
    Option.ne_none_iff_exists'.mp ((lists.isSome_iff iter.pos).mpr at'.inside)
  have found := right.element last
  have inside := (right.holds last).1
  unfold vectorGetAt at found
  rw [if_neg (by omega), Option.some_inj] at found
  refine ⟨element, (lists.stored _).symm.trans last, ?_⟩
  unfold VecIter.seen
  rw [at'.data, Option.bind_some, found.1, found.2]

/-- What is left at an element. -/
theorem VecRun.Lists.leaves (lists : r.Lists elements) (right : r.Right) (at' : iter.At r) :
    Leaves (vectorAdvance r.vec) (VecIter.seen r.vec) (VecIter.At r)
      (fun iter => shownFrom (elements.drop iter.pos) iter.pos) iter := by
  obtain ⟨element, here, seen⟩ := lists.seen right at'
  have inside := at'.inside
  have le := lists.count_le right
  have slots := right.sound.slots_lt
  have lastIndex := unsignedPred_of_pos (Nat.zero_lt_of_lt inside)
  have drop : elements.drop iter.pos = element :: elements.drop (iter.pos + 1) := by
    obtain ⟨low, same⟩ := List.getElem?_eq_some_iff.mp here
    rw [List.drop_eq_getElem_cons low, same]
  have shown : shownFrom (elements.drop iter.pos) iter.pos =
      iter.seen r.vec :: shownFrom (elements.drop (iter.pos + 1)) (iter.pos + 1) := by
    rw [drop, seen]
    rfl
  have tail : (shownFrom (elements.drop iter.pos) iter.pos).tail =
      shownFrom (elements.drop (iter.pos + 1)) (iter.pos + 1) := by rw [shown, List.tail_cons]
  have length : (shownFrom (elements.drop (iter.pos + 1)) (iter.pos + 1)).length =
      r.vec.count - (iter.pos + 1) := by
    unfold shownFrom
    rw [List.length_map, List.length_zipIdx, List.length_drop, lists.count]
  refine ⟨⟨_, shown⟩, fun none' => ?_, fun more => ?_⟩
  · rw [tail] at none'
    rw [none', List.length_nil] at length
    exact vectorAdvance_of_ended (vectorIterNext_of_last (by omega))
  · rw [tail] at more ⊢
    have longer := List.length_pos_of_ne_nil more
    have placed : iter.data ≠ none := by
      rw [at'.data]
      exact nofun
    have moved := @vectorIterNext_of_more r.vec iter (by omega) placed (by omega)
    exact ⟨_, vectorAdvance_of_moved moved, ⟨by dsimp only; omega, rfl⟩, rfl⟩

/-- With two elements or more, a new iterator visits them all. -/
theorem VecRun.Lists.visitsAll (lists : r.Lists elements) (right : r.Right)
    (several : 2 ≤ elements.length) : VisitsAll r.vec elements := by
  have count := lists.count
  have le := lists.count_le right
  have slots := right.sound.slots_lt
  have more : 0 ≠ unsignedPred r.vec.count := by
    rw [unsignedPred_of_pos (by omega)]
    omega
  have new := vectorIterNew_of_moved
    (@vectorIterNext_of_start r.vec ⟨0, none⟩ more ⟨rfl, rfl⟩)
  have at' : VecIter.At r ⟨0, some 0⟩ := by
    refine ⟨by dsimp only; omega, ?_⟩
    rw [Nat.zero_mul, Nat.zero_mod]
  unfold VisitsAll
  rw [new]
  exact @sees_of_rest _ _ _ _ (VecIter.At r)
    (fun iter => shownFrom (elements.drop iter.pos) iter.pos)
    (fun _ valid => lists.leaves right valid) _ at'

/-- With one or none, it does not. -/
theorem VecRun.Lists.not_visitsAll (lists : r.Lists elements) (few : elements.length < 2) :
    ¬ VisitsAll r.vec elements := by
  intro visits
  unfold VisitsAll at visits
  have count := lists.count
  by_cases empty : elements.length = 0
  case pos =>
    have more : 0 ≠ unsignedPred r.vec.count := by
      rw [count, empty]
      exact nofun
    have new := vectorIterNew_of_moved
      (@vectorIterNext_of_start r.vec ⟨0, none⟩ more ⟨rfl, rfl⟩)
    rw [new, List.length_eq_zero_iff.mp empty] at visits
    exact nomatch visits
  case neg =>
    have last : 0 = unsignedPred r.vec.count := by
      rw [unsignedPred_of_pos (by omega)]
      omega
    rw [vectorIterNew_of_ended (@vectorIterNext_of_last r.vec ⟨0, none⟩ last)] at visits
    exact empty (List.length_eq_zero_iff.mpr visits)

/-- Pushes from a list lead to the list with their data behind it. -/
theorem VecRun.Lists.pushes {data : List (List UInt8 × (Nat → Bool))}
    (lists : r.Lists elements) (right : r.Right)
    (fits : Along VecRun.step FitsIn r (pushes data))
    (ran : run VecRun.step r (Verben.pushes data) = some r') :
    r'.Right ∧ r'.Lists (elements ++ data.map fun d => d.1.take r.vec.size) := by
  induction data generalizing r elements with
  | nil =>
      cases ran
      rw [List.map_nil, List.append_nil]
      exact ⟨right, lists⟩
  | cons d data ih =>
      obtain ⟨fits, others⟩ := fits
      obtain ⟨r₁, stepped, right₁, -, size, -⟩ := right.step_spec _ fits
      have lists₁ := lists.append right fits trivial stepped
      have rest : run VecRun.step r₁ (Verben.pushes data) = some r' := by
        have first := ran
        change (r.step (.push d.1 d.2)).bind _ = some r' at first
        rw [stepped, Option.bind_some] at first
        exact first
      have whole := ih lists₁ right₁ (others r₁ stepped) rest
      rw [size, List.append_assoc] at whole
      exact whole

end Iter

/-- After pushes to a new vector, an iterator visits the elements, each once and in order, and
ends, if and only if there were two pushes or more. -/
theorem vector_iter_iff {slots size : Nat} {vec : Vec} (typed : slots < 2 ^ 32)
    (new : vectorNew slots size true true = some vec) (fits : newSlots slots * size < 2 ^ 32)
    (data : List (List UInt8 × (Nat → Bool)))
    (fitting : Along VecRun.step FitsIn (newRun vec) (pushes data)) {r : VecRun}
    (ran : run VecRun.step (newRun vec) (pushes data) = some r) :
    VisitsAll r.vec (data.map fun d => d.1.take size) ↔ 2 ≤ data.length := by
  obtain ⟨right₀, -, -, size_eq⟩ := vectorNew_spec typed new fits
  obtain ⟨right, lists⟩ := (newRun_lists typed new fits).pushes right₀ fitting ran
  change r.Lists (data.map fun d => d.1.take vec.size) at lists
  rw [size_eq] at lists
  constructor
  case mp =>
    intro visits
    by_contra few
    exact lists.not_visitsAll (by rw [List.length_map]; omega) visits
  case mpr =>
    intro several
    exact lists.visitsAll right (by rwa [List.length_map])

theorem vector_iter_iff_two : ∃ r, run VecRun.step (newRun bytes)
    (pushes [([7], plenty), ([9], plenty)]) = some r ∧ VisitsAll r.vec [[7], [9]] := by
  obtain ⟨r₁, step₁, right₁, count₁, size₁, -⟩ := bytes_step bytes_push
  have fits₂ : FitsIn r₁ (.push [9] plenty) :=
    right₁.fitsIn_push (by omega) (by rw [size₁]; decide) (by rw [count₁, size₁]; decide)
  obtain ⟨r₂, step₂, -⟩ := right₁.step_spec _ fits₂
  have fitting : Along VecRun.step FitsIn (newRun bytes)
      (pushes [([7], plenty), ([9], plenty)]) := by
    refine ⟨bytes_push, fun t same => ⟨?_, fun _ _ => trivial⟩⟩
    cases same.symm.trans step₁
    exact fits₂
  have ran : run VecRun.step (newRun bytes) (pushes [([7], plenty), ([9], plenty)]) = some r₂ :=
    run_cons step₁ (run_cons step₂ rfl)
  exact ⟨r₂, ran, (vector_iter_iff (by decide) bytes_new (by decide) _ fitting ran).mpr
    (Nat.le_refl 2)⟩

/-- The only element of a vector is not visited. -/
theorem vector_iter_misses : ¬ ∀ slots size vec data r, slots < 2 ^ 32 →
    vectorNew slots size true true = some vec → newSlots slots * size < 2 ^ 32 →
    Along VecRun.step FitsIn (newRun vec) (pushes data) →
    run VecRun.step (newRun vec) (pushes data) = some r →
    VisitsAll r.vec (data.map fun d => d.1.take size) := by
  intro claim
  obtain ⟨r, step, -, count, -⟩ := bytes_step bytes_push
  have fitting : Along VecRun.step FitsIn (newRun bytes) (pushes [([7], plenty)]) :=
    ⟨bytes_push, fun _ _ => trivial⟩
  have visits := claim 2 1 bytes [([7], plenty)] r (by decide) bytes_new (by decide) fitting
    (run_cons step rfl)
  have last : 0 = unsignedPred r.vec.count := by rw [count]; rfl
  unfold VisitsAll at visits
  rw [vectorIterNew_of_ended (@vectorIterNext_of_last r.vec ⟨0, none⟩ last)] at visits
  exact nomatch visits

end Verben
