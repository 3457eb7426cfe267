import Mathlib.Algebra.Group.Nat.Defs
import Verben.Lib.Cursor
import Verben.Lib.Region

/-!
# The vector

`src/vector.c`: elements of one size in one block of memory, which is doubled when an index is
behind its end. All numbers are unsigned and have 32 bits, so is the number of bytes that is
asked for and the offset of an element. Whether each allocation succeeds is an argument, and a
request to reallocate no bytes frees the block and fails.

A function returns `none` where the code would access memory that is not in the block, or that
is behind the data of its caller.
-/

namespace Verben

/-- `n - 1` for an unsigned `n`. -/
def unsignedPred (n : Nat) : Nat := if n = 0 then 2 ^ 32 - 1 else n - 1

theorem unsignedPred_of_pos {n : Nat} (positive : 0 < n) : unsignedPred n = n - 1 :=
  if_neg (Nat.ne_of_gt positive)

/-- `vector_t`. -/
structure Vec : Type where
  count : Nat
  slots : Nat
  size : Nat
  data : Region
  deriving DecidableEq

/-- `vector_init`. -/
def vectorInit (slots size : Nat) (alloc : Bool) : Int × Vec :=
  let slots := if slots = 0 then 16 else slots
  if alloc then (0, ⟨0, slots, size, List.replicate (slots * size % 2 ^ 32) (some 0)⟩)
  else (-1, ⟨0, slots, size, []⟩)

/-- `vector_new`: the vector, or null. -/
def vectorNew (slots size : Nat) (alloc data : Bool) : Option Vec :=
  if alloc then
    match vectorInit slots size data with
    | (0, vec) => some vec
    | _ => none
  else none

/-- `vector_resize`, with the sizes for which `realloc` succeeds. -/
def vectorResize (vec : Vec) (realloc : Nat → Bool) : Int × Vec :=
  let bytes := vec.slots * 2 * vec.size % 2 ^ 32
  if bytes = 0 then (-1, { vec with data := [] })
  else if realloc bytes then
    (0, { vec with data := vec.data.resize bytes, slots := vec.slots * 2 % 2 ^ 32 })
  else (-1, vec)

/-- The loop of `vector_set_at`, which has no result if it has not ended after so many rounds. -/
def vectorGrow (realloc : Nat → Bool) (index : Nat) : Nat → Vec → Option (Int × Vec)
  | 0, _ => none
  | rounds + 1, vec =>
      if index < vec.slots then some (0, vec)
      else
        match vectorResize vec realloc with
        | (0, vec) => vectorGrow realloc index rounds vec
        | (_, vec) => some (-1, vec)

/-- A number of 32 bits is doubled 31 times at most before only zeros are left. -/
def growRounds : Nat := 32

/-- `vector_set_at`. -/
def vectorSetAt (vec : Vec) (index : Nat) (data : List UInt8) (realloc : Nat → Bool) :
    Option (Int × Vec) := do
  let (ret, vec) ← vectorGrow realloc index growRounds vec
  if ret < 0 then some (-1, vec)
  else if data.length < vec.size then none
  else do
    let stored ← vec.data.store ((index * vec.size % 2 ^ 32 : Nat) : Int) (data.take vec.size)
    some (0, { vec with data := stored, count := (vec.count + 1) % 2 ^ 32 })

/-- `vector_push`. -/
def vectorPush (vec : Vec) (data : List UInt8) (realloc : Nat → Bool) : Option (Int × Vec) :=
  if vec.count = unsignedPred vec.slots then
    match vectorResize vec realloc with
    | (0, vec) => vectorSetAt vec vec.count data realloc
    | (_, vec) => some (-1, vec)
  else vectorSetAt vec vec.count data realloc

/-- `vector_get_at`: where an element is in the block, or null. -/
def vectorGetAt (vec : Vec) (index : Nat) : Option Nat :=
  if vec.slots ≤ index then none else some (index * vec.size % 2 ^ 32)

/-- The element at an address. -/
def Vec.element (vec : Vec) (data : Nat) : Option (List UInt8) := vec.data.load data vec.size

/-! ## Iterators -/

/-- `vector_iter_t`, without its vector. -/
structure VecIter : Type where
  pos : Nat
  data : Option Nat
  deriving DecidableEq

/-- `vector_iter_next`. -/
def vectorIterNext (vec : Vec) (iter : VecIter) : Int × VecIter :=
  if iter.pos = unsignedPred vec.count then (-1, iter)
  else if iter.data = none ∧ iter.pos = 0 then (0, { iter with data := some 0 })
  else
    let pos := (iter.pos + 1) % 2 ^ 32
    (0, ⟨pos, some (pos * vec.size % 2 ^ 32)⟩)

/-- `vector_iter_init`. -/
def vectorIterInit (vec : Vec) : Int × VecIter := vectorIterNext vec ⟨0, none⟩

/-- `vector_iter_new`: the iterator, or null. -/
def vectorIterNew (vec : Vec) (alloc : Bool) : Option VecIter :=
  if alloc then
    match vectorIterInit vec with
    | (0, iter) => some iter
    | _ => none
  else none

end Verben
