import Mathlib.Algebra.Group.Nat.Defs
import Verben.Lib.Buckets

/-!
# The hash table

`src/hash.c`: a table of linked lists, whose bucket array is doubled when it holds as many
entries as buckets. The table keeps pointers to keys and values. Here a key is the string
it points to, as a table with a `keycmp` that compares contents sees it, and a value is of
any type. What `free_key` and `free_val` do with an entry that leaves the table is up to
the owner of the table.

A function returns `none` where the code would divide by `slots = 0` or read through the
null pointer `data`. Whether each allocation succeeds is an argument.
-/

namespace Verben

/-- A string: its bytes before the terminator. -/
abbrev CStr := List UInt8

/-- `HASH_INIT_SLOTS`. -/
def hashInitSlots : Nat := 16

/-- `HASH_RESIZE_RATIO`. -/
def hashResizeRatio : Nat := 1

/-- `LONG_MAX`. -/
def longMax : Nat := 2 ^ 63 - 1

/-- `hash_entry_t`, without its link. -/
abbrev HashEntry (V : Type) := CStr × V

/-- `hash_t`. The array `data` is null when its allocation failed. -/
structure Hash (V : Type) where
  slots : Nat
  count : Nat
  data : Option (Nat → List (HashEntry V))

/-- Whether the allocations in `hash_insert` succeed: of a larger bucket array, and of the
entry. -/
structure InsertAlloc : Type where
  data : Bool
  entry : Bool

/-- All allocations succeed. -/
def InsertAlloc.succeed : InsertAlloc := ⟨true, true⟩

/-- The loop of `next_power`. It ends before `i` leaves 64 bits, in 60 rounds at most. -/
def nextPowerLoop (size : Nat) : Nat → Nat → Nat
  | 0, i => i
  | rounds + 1, i => if size ≤ i then i else nextPowerLoop size rounds (i * 2)

def nextPower (size : Nat) : Nat :=
  if longMax ≤ size then longMax else nextPowerLoop size 60 hashInitSlots

/-- `hash_func`: the bytes are of type `char`, which is signed. -/
def hashFunc (key : CStr) : UInt32 :=
  key.foldl (fun h ptr => (h + (h <<< 5)) + ptr.toInt8.toInt32.toUInt32) 5381

variable {V : Type}

/-- `hash_init`. `slots` has 32 bits. -/
def hashInit (slots : Nat) (alloc : Bool) : Int × Hash V :=
  let ht : Hash V :=
    { slots := nextPower slots % 2 ^ 32
      count := 0
      data := if alloc then some fun _ => [] else none }
  (if alloc then 0 else -1, ht)

/-- `hash_create`: null unless the table and its array can be allocated. -/
def hashCreate (slots : Nat) (alloc : Bool) : Option (Hash V) :=
  match hashInit slots alloc with
  | (0, ht) => some ht
  | _ => none

/-- `hash_func(key) % ht->slots`. -/
def Hash.index (ht : Hash V) (key : CStr) : Option Nat :=
  if ht.slots = 0 then none else some ((hashFunc key).toNat % ht.slots)

/-- Link an entry at the head of its bucket, and count it. -/
def Hash.link (ht : Hash V) (he : HashEntry V) : Option (Hash V) := do
  let h ← ht.index he.1
  let data ← ht.data
  some { ht with
    data := some (Function.update data h (he :: data h))
    count := (ht.count + 1) % 2 ^ 32 }

/-- `hash_resize`: the entries of the old array are linked into a new one, bucket by
bucket. -/
def hashResize (ht : Hash V) (alloc : Bool) : Option (Int × Hash V) :=
  match hashInit (ht.slots * 2 % 2 ^ 32) alloc with
  | (0, new) => do
      let tmp ← ht.data
      let new ← (Buckets.entries ht.slots tmp).foldlM Hash.link new
      some (0, new)
  | (_, new) => some (-1, new)

/-- The first test of `hash_insert`, and what follows from it. -/
def Hash.grow (ht : Hash V) (alloc : Bool) : Option (Int × Hash V) :=
  if ht.slots = 0 then none
  else if hashResizeRatio ≤ ht.count / ht.slots then hashResize ht alloc
  else some (0, ht)

/-- `hash_insert`. -/
def hashInsert (ht : Hash V) (key : CStr) (val : V) (alloc : InsertAlloc) :
    Option (Int × Hash V) := do
  let (ret, ht) ← ht.grow alloc.data
  if ret ≠ 0 then some (-1, ht)
  else do
    let i ← ht.index key
    let data ← ht.data
    match Buckets.replace key val (data i) with
    | some chain => some (0, { ht with data := some (Function.update data i chain) })
    | none =>
        if alloc.entry then do
          let ht ← ht.link (key, val)
          some (0, ht)
        else
          some (-1, ht)

/-- `hash_get_val`: the value, or null. -/
def hashGetVal (ht : Hash V) (key : CStr) : Option (Option V) := do
  let i ← ht.index key
  let data ← ht.data
  some (Buckets.find key (data i))

/-- `hash_delete`. -/
def hashDelete (ht : Hash V) (key : CStr) : Option (Int × Hash V) := do
  let index ← ht.index key
  let data ← ht.data
  match Buckets.remove key (data index) with
  | some chain =>
      some (0, { ht with
        data := some (Function.update data index chain)
        count := (ht.count + 2 ^ 32 - 1) % 2 ^ 32 })
  | none => some (-1, ht)

/-! ## `hash_foreach` -/

variable {S : Type}

/-- The inner loop, from one entry on. The link to the next one is read before the call. -/
def foreachChain (foreach : HashEntry V → S → Option (Int × S)) :
    List (HashEntry V) → S → Option (Int × S)
  | [], s => some (0, s)
  | he :: next, s => do
      let (ret, s) ← foreach he s
      if ret ≠ 0 then some (-1, s) else foreachChain foreach next s

/-- The outer loop. The head of a bucket is read when the loop comes to it. -/
def foreachBuckets (ht : S → Hash V) (foreach : HashEntry V → S → Option (Int × S)) :
    List Nat → S → Option (Int × S)
  | [], s => some (0, s)
  | i :: is, s => do
      let data ← (ht s).data
      let (ret, s) ← foreachChain foreach (data i) s
      if ret ≠ 0 then some (-1, s) else foreachBuckets ht foreach is s

/-- `hash_foreach`. The state `s` is all that `foreach` can change, and `ht s` the table. No
`foreach` of the program changes the number of its slots. -/
def hashForeach (ht : S → Hash V) (foreach : HashEntry V → S → Option (Int × S)) (s : S) :
    Option (Int × S) :=
  foreachBuckets ht foreach (List.range (ht s).slots) s

/-- `_hash_delete_foreach`. -/
def hashDeleteForeach (he : HashEntry V) (ht : Hash V) : Option (Int × Hash V) := do
  let (ret, ht) ← hashDelete ht he.1
  some (if ret ≠ 0 then -1 else 0, ht)

/-- `hash_clear`. -/
def hashClear (ht : Hash V) : Option (Int × Hash V) := hashForeach id hashDeleteForeach ht

/-- `_hash_dup_foreach`. -/
def hashDupForeach (alloc : CStr → InsertAlloc) (he : HashEntry V) (copy : Hash V) :
    Option (Int × Hash V) := do
  let (ret, copy) ← hashInsert copy he.1 he.2 (alloc he.1)
  some (if ret ≠ 0 then -1 else 0, copy)

/-- `hash_dup`: the copy, or null. -/
def hashDup (ht : Hash V) (create : Bool) (alloc : CStr → InsertAlloc) :
    Option (Option (Hash V)) :=
  match hashCreate ht.slots create with
  | none => some none
  | some copy => do
      let (_, copy) ← hashForeach (fun _ => ht) (hashDupForeach alloc) copy
      some (some copy)

end Verben
