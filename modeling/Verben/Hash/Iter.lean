import Verben.Hash.Map
import Verben.Lib.Cursor

/-!
# The iterator of the hash table

An iterator of `src/hash.c` is at an entry: it keeps the bucket, the depth in its chain, and a
pointer to the entry. Here `he` is the chain from this entry on, which is empty for the null
pointer, and the table of the iterator is an argument. A function returns `none` where the code
would read a bucket that is not in the array.

`hash_iter_visits`: what an iterator sees is what `hash_foreach` visits.
-/

namespace Verben

open Buckets Cursor

variable {V : Type}

/-- `hash_iter_t`, without its table. -/
structure HashIter (V : Type) where
  pos : Nat
  depth : Nat
  he : List (HashEntry V)
  key : Option CStr
  value : Option V
  deriving DecidableEq

/-- `calloc` for an iterator. -/
def HashIter.zero : HashIter V := ⟨0, 0, [], none, none⟩

/-- The loop of `hash_iter_next` over the buckets from `pos` on, one round for each. -/
def hashIterScan (data : Nat → List (HashEntry V)) : Nat → HashIter V → Int × HashIter V
  | 0, iter => (-1, iter)
  | rounds + 1, iter =>
      match data iter.pos with
      | [] => hashIterScan data rounds { iter with he := [], pos := iter.pos + 1 }
      | he :: next => (0, { iter with he := he :: next, key := some he.1, value := some he.2 })

/-- `hash_iter_next`. The numbers in an iterator are unsigned. -/
def hashIterNext (ht : Hash V) (iter : HashIter V) : Option (Int × HashIter V) :=
  match iter.he with
  | _ :: he :: next =>
      some (0, { iter with
        he := he :: next
        key := some he.1
        value := some he.2
        depth := (iter.depth + 1) % 2 ^ 32 })
  | he =>
      let pos := if he.isEmpty then iter.pos else (iter.pos + 1) % 2 ^ 32
      let iter := { iter with pos := pos, depth := 0 }
      if pos < ht.slots then
        ht.data.map fun data => hashIterScan data (ht.slots - pos) iter
      else some (-1, iter)

/-- `hash_iter_init`. -/
def hashIterInit (iter : HashIter V) (ht : Hash V) : Option (Int × HashIter V) :=
  hashIterNext ht { iter with pos := 0, depth := 0, key := none, value := none }

/-- `hash_iter_new`: the iterator, or null. -/
def hashIterNew (ht : Hash V) (alloc : Bool) : Option (Option (HashIter V)) :=
  if alloc then
    (hashIterInit .zero ht).map fun (ret, iter) => if ret ≠ 0 then none else some iter
  else some none

/-! ## Positions -/

/-- A call of `hash_iter_next` as a move: there is none if it returns -1. -/
def advance (ht : Hash V) (iter : HashIter V) : Option (Option (HashIter V)) :=
  (hashIterNext ht iter).map fun (ret, iter) => if ret ≠ 0 then none else some iter

/-- What the caller sees of an entry. -/
def HashIter.seen (iter : HashIter V) : Option CStr × Option V := (iter.key, iter.value)

def shown (he : HashEntry V) : Option CStr × Option V := (some he.1, some he.2)

/-- All entries of a table. -/
def Hash.entries (ht : Hash V) : List (HashEntry V) :=
  match ht.data with
  | none => []
  | some data => Buckets.entries ht.slots data

/-- The entries of some buckets from one on. -/
def entriesFrom (data : Nat → List (HashEntry V)) (pos rounds : Nat) : List (HashEntry V) :=
  (List.range' pos rounds).flatMap data

/-- The entries that are left at a position, that of the iterator first. -/
def HashIter.left (slots : Nat) (data : Nat → List (HashEntry V)) (iter : HashIter V) :
    List (HashEntry V) :=
  iter.he ++ entriesFrom data (iter.pos + 1) (slots - (iter.pos + 1))

/-- An iterator at an entry: this is `depth` deep in the chain of its bucket, and the iterator
shows it. -/
structure HashIter.At (slots : Nat) (data : Nat → List (HashEntry V)) (iter : HashIter V) :
    Prop where
  inside : iter.pos < slots
  shows : ∃ he next, iter.he = he :: next ∧ iter.seen = shown he
  deep : ∃ d, iter.he = (data iter.pos).drop d ∧ iter.depth = d % 2 ^ 32

/-- The iterator at the next entry of its chain. -/
def HashIter.down (iter : HashIter V) (he : HashEntry V) (next : List (HashEntry V)) :
    HashIter V :=
  { iter with
    he := he :: next
    key := some he.1
    value := some he.2
    depth := (iter.depth + 1) % 2 ^ 32 }

section Next

variable {ht : Hash V} {data : Nat → List (HashEntry V)} {iter : HashIter V}

theorem entriesFrom_succ (data : Nat → List (HashEntry V)) (pos rounds : Nat) :
    entriesFrom data pos (rounds + 1) = data pos ++ entriesFrom data (pos + 1) rounds := by
  unfold entriesFrom
  rw [List.range'_succ, List.flatMap_cons]

/-- The loop stops at the next entry, in a bucket from `pos` on, or there is none. -/
theorem hashIterScan_spec {slots : Nat} (rounds : Nat) (bound : iter.pos + rounds = slots)
    (fresh : iter.depth = 0) :
    (entriesFrom data iter.pos rounds = [] ∧ ∃ iter', hashIterScan data rounds iter = (-1, iter')) ∨
      ∃ iter', hashIterScan data rounds iter = (0, iter') ∧ iter'.At slots data ∧
        iter'.left slots data = entriesFrom data iter.pos rounds ∧ iter.pos ≤ iter'.pos ∧
        iter'.depth = 0 ∧ iter'.he = data iter'.pos := by
  induction rounds generalizing iter with
  | zero => exact .inl ⟨rfl, iter, rfl⟩
  | succ rounds ih =>
      rw [entriesFrom_succ]
      unfold hashIterScan
      cases bucket : data iter.pos with
      | nil =>
          dsimp only
          rw [List.nil_append]
          have next := @ih { iter with he := [], pos := iter.pos + 1 }
            (by dsimp only; omega) fresh
          rcases next with none' | ⟨iter', ran, at', left, le, depth, he⟩
          · exact .inl none'
          · exact .inr ⟨iter', ran, at', left, Nat.le_of_succ_le le, depth, he⟩
      | cons he next =>
          refine .inr ⟨_, rfl, ⟨?_, ⟨he, next, rfl, rfl⟩, 0, ?_, fresh⟩, ?_, Nat.le_refl _, fresh,
            bucket.symm⟩
          · dsimp only
            omega
          · exact bucket.symm
          · unfold HashIter.left
            dsimp only
            rw [show slots - (iter.pos + 1) = rounds by omega]

/-- What a move from an entry does: to the next one in its chain, or to the first one in a
bucket behind, or the entry is the last one. -/
theorem HashIter.At.next (at' : iter.At ht.slots data) (slots : ht.slots < 2 ^ 32)
    (same : ht.data = some data) :
    (∃ he he' next, iter.he = he :: he' :: next ∧
        hashIterNext ht iter = some (0, iter.down he' next)) ∨
      (∃ he iter', iter.he = [he] ∧ hashIterNext ht iter = some (0, iter') ∧
        iter'.At ht.slots data ∧ iter.left ht.slots data = he :: iter'.left ht.slots data ∧
        iter.pos < iter'.pos ∧ iter'.depth = 0 ∧ iter'.he = data iter'.pos) ∨
      (∃ he iter', iter.left ht.slots data = [he] ∧ hashIterNext ht iter = some (-1, iter')) := by
  obtain ⟨inside, ⟨he, next, chain, -⟩, -⟩ := at'
  have left_eq : iter.left ht.slots data =
      iter.he ++ entriesFrom data (iter.pos + 1) (ht.slots - (iter.pos + 1)) := rfl
  unfold hashIterNext
  rw [left_eq, chain]
  cases next with
  | cons he' next => exact .inl ⟨he, he', next, rfl, rfl⟩
  | nil =>
      refine .inr ?_
      dsimp only
      rw [List.isEmpty_cons, if_neg Bool.false_ne_true, Nat.mod_eq_of_lt (by omega), same,
        Option.map_some]
      by_cases more : iter.pos + 1 < ht.slots
      case pos =>
        rw [if_pos more]
        have scan := @hashIterScan_spec V data
          { iter with pos := iter.pos + 1, depth := 0, he := [he] } ht.slots
          (ht.slots - (iter.pos + 1)) (by dsimp only; omega) rfl
        rcases scan with ⟨none', iter', ran⟩ | ⟨iter', ran, at', left, le, depth, he_eq⟩
        · exact .inr ⟨he, iter', by rw [none']; rfl, by rw [ran]⟩
        · exact .inl ⟨he, iter', rfl, by rw [ran], at', by rw [left]; rfl, le, depth, he_eq⟩
      case neg =>
        rw [if_neg more, show ht.slots - (iter.pos + 1) = 0 by omega]
        exact .inr ⟨he, _, rfl, rfl⟩

/-- An iterator that moved in its chain is at the next entry. -/
theorem HashIter.At.chain {he he' : HashEntry V} {next : List (HashEntry V)} {slots : Nat}
    (at' : iter.At slots data) (chain : iter.he = he :: he' :: next) :
    (iter.down he' next).At slots data := by
  obtain ⟨inside, -, d, he_eq, depth⟩ := at'
  refine ⟨inside, ⟨he', next, rfl, rfl⟩, d + 1, ?_, ?_⟩
  · unfold down
    dsimp only
    rw [← List.drop_drop, ← he_eq, chain]
    rfl
  · unfold down
    dsimp only
    omega

theorem advance_of_next {iter' : HashIter V} (ran : hashIterNext ht iter = some (0, iter')) :
    advance ht iter = some (some iter') := by
  unfold advance
  rw [ran]
  rfl

/-- At each entry, the iterator leaves the others for later. -/
theorem HashIter.At.leaves (at' : iter.At ht.slots data) (slots : ht.slots < 2 ^ 32)
    (same : ht.data = some data) :
    Leaves (advance ht) HashIter.seen (HashIter.At ht.slots data)
      (fun iter => (iter.left ht.slots data).map shown) iter := by
  obtain ⟨he, next, chain, seen⟩ := at'.shows
  have first : (iter.left ht.slots data).map shown = iter.seen ::
      (next ++ entriesFrom data (iter.pos + 1) (ht.slots - (iter.pos + 1))).map shown := by
    unfold HashIter.left
    rw [chain, seen]
    rfl
  rcases at'.next slots same with ⟨he₁, he₂, next', chain', ran⟩ |
    ⟨he₁, iter', chain', ran, at'', left, -⟩ | ⟨he₁, iter', left, ran⟩
  · refine ⟨⟨_, first⟩, fun none' => ?_, fun _ => ⟨_, advance_of_next ran, at'.chain chain', ?_⟩⟩
    · unfold HashIter.left at none'
      rw [chain'] at none'
      exact nomatch none'
    · unfold HashIter.left
      rw [chain']
      rfl
  · refine ⟨⟨_, first⟩, fun none' => ?_, fun _ => ⟨iter', advance_of_next ran, at'', ?_⟩⟩
    · obtain ⟨he', next'', chain'', -⟩ := at''.shows
      rw [left] at none'
      unfold HashIter.left at none'
      rw [chain''] at none'
      exact nomatch none'
    · rw [left]
      rfl
  · have stop : advance ht iter = some none := by
      unfold advance
      rw [ran]
      rfl
    refine ⟨⟨_, first⟩, fun _ => stop, fun more => ?_⟩
    rw [left] at more
    exact absurd rfl more

/-- From an entry, the iterator sees what is left there. -/
theorem HashIter.At.visits (at' : iter.At ht.slots data) (slots : ht.slots < 2 ^ 32)
    (same : ht.data = some data) :
    Sees (advance ht) HashIter.seen iter ((iter.left ht.slots data).map shown) :=
  @sees_of_rest _ _ _ _ (HashIter.At ht.slots data)
    (fun iter => (iter.left ht.slots data).map shown)
    (fun _ valid => valid.leaves slots same) iter at'

end Next

/-! ## New iterators -/

section New

variable {ht : Hash V} {data : Nat → List (HashEntry V)}

theorem entries_eq (slots : Nat) (data : Nat → List (HashEntry V)) :
    Buckets.entries slots data = entriesFrom data 0 slots := by
  unfold Buckets.entries entriesFrom
  rw [List.range_eq_range']

/-- A new iterator is at the first entry, with all of them left, unless there are none. -/
theorem hashIterNew_spec (same : ht.data = some data) :
    (ht.entries = [] ∧ hashIterNew ht true = some none) ∨
      ∃ iter, hashIterNew ht true = some (some iter) ∧ iter.At ht.slots data ∧
        iter.left ht.slots data = ht.entries ∧ iter.depth = 0 ∧ iter.he = data iter.pos := by
  have all : ht.entries = entriesFrom data 0 ht.slots := by
    unfold Hash.entries
    rw [same]
    exact entries_eq _ _
  rw [all]
  unfold hashIterNew hashIterInit hashIterNext HashIter.zero
  dsimp only
  rw [if_pos rfl, List.isEmpty_nil, if_pos rfl]
  by_cases some' : 0 < ht.slots
  case pos =>
    rw [if_pos some', same, Option.map_some]
    have scan := @hashIterScan_spec V data .zero ht.slots (ht.slots - 0) (Nat.zero_add _) rfl
    rcases scan with ⟨none', iter', ran⟩ | ⟨iter', ran, at', left, -, depth, he⟩
    · refine .inl ⟨none', ?_⟩
      unfold HashIter.zero at ran
      rw [ran]
      rfl
    · refine .inr ⟨iter', ?_, at', left, depth, he⟩
      unfold HashIter.zero at ran
      rw [ran]
      rfl
  case neg =>
    rw [if_neg some', show ht.slots = 0 by omega]
    exact .inl ⟨rfl, rfl⟩

end New

/-- A `foreach` that takes down what it is called for. -/
def record (he : HashEntry V) (seen : List (Option CStr × Option V)) :
    Option (Int × List (Option CStr × Option V)) :=
  some (0, seen ++ [shown he])

theorem foreachChain_record (es : List (HashEntry V)) (seen : List (Option CStr × Option V)) :
    foreachChain record es seen = some (0, seen ++ es.map shown) := by
  induction es generalizing seen with
  | nil => rw [List.map_nil, List.append_nil, foreachChain]
  | cons e es ih =>
      simp only [foreachChain, record, Option.bind_eq_bind, Option.bind_some, ne_eq,
        not_true_eq_false, if_false]
      rw [ih, List.append_assoc]
      rfl

/-- **The iterator sees what `hash_foreach` visits.** In a table with entries, a new iterator
and its moves show each entry once, in the order in which `hash_foreach` comes to them. -/
theorem hash_iter_visits (ht : Hash V) (slots : ht.slots < 2 ^ 32) (some' : ht.entries ≠ []) :
    ∃ iter seen, hashIterNew ht true = some (some iter) ∧
      Sees (advance ht) HashIter.seen iter seen ∧
      hashForeach (fun _ => ht) record [] = some (0, seen) ∧ seen = ht.entries.map shown := by
  cases same : ht.data with
  | none =>
      unfold Hash.entries at some'
      rw [same] at some'
      exact absurd rfl some'
  | some data =>
      rcases hashIterNew_spec same with ⟨none', -⟩ | ⟨iter, new, at', left, -⟩
      · exact absurd none' some'
      · have visits := at'.visits slots same
        rw [left] at visits
        have all : Buckets.entries ht.slots data = ht.entries := by
          unfold Hash.entries
          rw [same]
        refine ⟨iter, _, new, visits, ?_, rfl⟩
        rw [hashForeach_entries _ same, foreachChain_record, all, List.nil_append]

/-- A table with the keys `q` and `a` in one bucket, and `b` in the next one. -/
def letters : Hash Nat where
  slots := 16
  count := 3
  data := some fun i =>
    if i = 6 then [([113], 2), ([97], 1)] else if i = 7 then [([98], 3)] else []

theorem hash_iter_visits_letters : ∃ iter,
    hashIterNew letters true = some (some iter) ∧
      Sees (advance letters) HashIter.seen iter
        [(some [113], some 2), (some [97], some 1), (some [98], some 3)] := by
  obtain ⟨iter, seen, new, visits, -, all⟩ :=
    hash_iter_visits letters (by decide) (by decide)
  rw [all] at visits
  exact ⟨iter, new, visits⟩

end Verben
