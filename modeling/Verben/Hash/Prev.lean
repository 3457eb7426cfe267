import Verben.Hash.Iter

/-!
# The iterator backwards

`hash_iter_prev` of `src/hash.c` is meant to undo `hash_iter_next`. In a chain it goes down as
many links as the iterator is deep, which is where the iterator is; at the head of a chain it
starts with the bucket of the iterator itself, and it never looks into the first bucket; and it
does not set the key and the value. So it undoes no move at all (`hashIterPrev_ne`), and it does
what it is meant to do only in a table where no move can be undone: `hash_iter_prev_iff`.
-/

namespace Verben

variable {V : Type}

/-- The loop of `hash_iter_prev` over the buckets from `pos` down. -/
def hashIterBack (data : Nat → List (HashEntry V)) : Nat → HashIter V → Int × HashIter V
  | 0, iter => (-1, { iter with pos := 0 })
  | pos + 1, iter =>
      match data (pos + 1) with
      | [] => hashIterBack data pos { iter with he := [] }
      | he :: next =>
          (0, { iter with
            pos := pos + 1
            he := (he :: next).drop next.length
            depth := (iter.depth + next.length) % 2 ^ 32 })

/-- `hash_iter_prev`. -/
def hashIterPrev (ht : Hash V) (iter : HashIter V) : Option (Int × HashIter V) :=
  if 0 < iter.depth then
    ht.data.bind fun data =>
      if iter.pos < ht.slots ∧ iter.depth ≤ (data iter.pos).length then
        some (0, { iter with
          he := (data iter.pos).drop iter.depth
          depth := iter.depth - 1 })
      else none
  else if iter.pos = 0 then some (-1, iter)
  else if iter.pos < ht.slots then ht.data.map fun data => hashIterBack data iter.pos iter
  else none

/-- The positions that are reached from a new iterator. -/
inductive Position (ht : Hash V) : HashIter V → Prop
  | new {iter : HashIter V} : hashIterNew ht true = some (some iter) → Position ht iter
  | next {iter iter' : HashIter V} :
    Position ht iter → hashIterNext ht iter = some (0, iter') → Position ht iter'

/-- `hash_iter_prev` undoes each move, and fails exactly at the first entry. -/
structure PrevRight (ht : Hash V) : Prop where
  restores : ∀ iter iter', Position ht iter → hashIterNext ht iter = some (0, iter') →
    hashIterPrev ht iter' = some (0, iter)
  first : ∀ iter, Position ht iter →
    ((∃ iter', hashIterPrev ht iter = some (-1, iter')) ↔ hashIterNew ht true = some (some iter))

section Prev

variable {ht : Hash V} {data : Nat → List (HashEntry V)} {iter iter' : HashIter V}

/-- At the head of a chain behind the first bucket, `hash_iter_prev` goes to the end of this
chain. -/
theorem hashIterPrev_of_head (at' : iter.At ht.slots data) (same : ht.data = some data)
    (head : iter.depth = 0) (behind : 0 < iter.pos) (bucket : data iter.pos ≠ []) :
    ∃ iter', hashIterPrev ht iter = some (0, iter') ∧ iter'.pos = iter.pos ∧
      iter'.he.length = 1 := by
  have loop : ∃ iter', hashIterBack data iter.pos iter = (0, iter') ∧ iter'.pos = iter.pos ∧
      iter'.he.length = 1 := by
    obtain ⟨pos, pos_eq⟩ := Nat.exists_eq_add_of_lt behind
    rw [Nat.zero_add] at pos_eq
    rw [pos_eq] at bucket ⊢
    unfold hashIterBack
    cases chain : data (pos + 1) with
    | nil => exact absurd chain bucket
    | cons he next =>
        refine ⟨_, rfl, rfl, ?_⟩
        dsimp only
        rw [List.length_drop, List.length_cons]
        omega
  obtain ⟨iter', ran, pos, he⟩ := loop
  refine ⟨iter', ?_, pos, he⟩
  unfold hashIterPrev
  rw [if_neg (by omega), if_neg (by omega), if_pos at'.inside, same, Option.map_some, ran]

/-- A move down the chain is not undone: `hash_iter_prev` does not come back up. -/
theorem hashIterPrev_down_ne {he he' : HashEntry V} {next : List (HashEntry V)}
    (at' : iter.At ht.slots data) (same : ht.data = some data)
    (chain : iter.he = he :: he' :: next) :
    hashIterPrev ht (iter.down he' next) ≠ some (0, iter) := by
  obtain ⟨d, he_eq, depth⟩ := at'.deep
  have length := congrArg List.length he_eq
  rw [chain, List.length_drop, List.length_cons, List.length_cons] at length
  have pos : (iter.down he' next).pos = iter.pos := rfl
  intro undone
  by_cases deep : 0 < (iter.down he' next).depth
  case pos =>
    -- as many links down as the iterator is deep now
    have deeper : (iter.down he' next).depth = (iter.depth + 1) % 2 ^ 32 := rfl
    unfold hashIterPrev at undone
    rw [if_pos deep, same, Option.bind_some, pos] at undone
    split at undone
    · have he_back := congrArg (fun out => out.map fun r => r.2.he.length) undone
      simp only [Option.map_some, Option.some_inj, List.length_drop, chain,
        List.length_cons] at he_back
      omega
    · cases undone
  case neg =>
    -- the depth has come around to 0
    by_cases start : iter.pos = 0
    case pos =>
      unfold hashIterPrev at undone
      rw [if_neg deep, pos, if_pos start] at undone
      cases undone
    case neg =>
      have bucket : data iter.pos ≠ [] := by
        intro none'
        rw [none', List.drop_nil, chain] at he_eq
        cases he_eq
      obtain ⟨back, ran, -, one⟩ := hashIterPrev_of_head (at'.chain chain) same
        (Nat.eq_zero_of_not_pos deep) (Nat.pos_of_ne_zero start) bucket
      rw [ran] at undone
      cases undone
      rw [chain] at one
      cases one

/-- No move is undone. -/
theorem hashIterPrev_ne (at' : iter.At ht.slots data) (slots : ht.slots < 2 ^ 32)
    (same : ht.data = some data) (moved : hashIterNext ht iter = some (0, iter')) :
    hashIterPrev ht iter' ≠ some (0, iter) := by
  rcases at'.next slots same with ⟨he, he', next, chain, ran⟩ |
    ⟨he, iter'', chain, ran, at'', -, pos, depth, bucket⟩ | ⟨he, iter'', -, ran⟩
  · rw [moved] at ran
    cases ran
    exact hashIterPrev_down_ne at' same chain
  · rw [moved] at ran
    cases ran
    have bucket' : data iter'.pos ≠ [] := by
      obtain ⟨he', next, chain', -⟩ := at''.shows
      rw [← bucket, chain']
      exact nofun
    obtain ⟨back, ran, pos', -⟩ :=
      hashIterPrev_of_head at'' same depth (Nat.zero_lt_of_lt pos) bucket'
    intro undone
    rw [ran] at undone
    cases undone
    omega
  · rw [moved] at ran
    cases ran

/-- There is no position in a table without entries. -/
theorem Position.entries_ne_nil (position : Position ht iter) : ht.entries ≠ [] := by
  induction position with
  | next _ _ ih => exact ih
  | new new =>
      intro none'
      cases same : ht.data with
      | some data =>
          rcases hashIterNew_spec same with ⟨-, null⟩ | ⟨iter, -, at', left, -⟩
          · cases new.symm.trans null
          · obtain ⟨he, next, chain, -⟩ := at'.shows
            rw [none'] at left
            unfold HashIter.left at left
            rw [chain] at left
            cases left
      | none =>
          unfold hashIterNew hashIterInit hashIterNext HashIter.zero at new
          dsimp only at new
          rw [if_pos rfl, same, Option.map_none, List.isEmpty_nil, if_pos rfl] at new
          by_cases some' : 0 < ht.slots
          case pos =>
            rw [if_pos some'] at new
            cases new
          case neg =>
            rw [if_neg some'] at new
            cases new

end Prev

/-- A table with one entry at most, and this in the first bucket. -/
def OnlyFirst (ht : Hash V) : Prop :=
  ht.entries = [] ∨ ∃ data he, ht.data = some data ∧ data 0 = [he] ∧ ht.entries = [he]

section Single

variable {ht : Hash V} {data : Nat → List (HashEntry V)} {iter iter' : HashIter V}
  {he : HashEntry V}

/-- If `hash_iter_prev` is right, a new iterator is at the only entry, in the first bucket. -/
theorem PrevRight.onlyFirst (right : PrevRight ht) (slots : ht.slots < 2 ^ 32)
    (same : ht.data = some data) (new : hashIterNew ht true = some (some iter))
    (at' : iter.At ht.slots data) (left : iter.left ht.slots data = ht.entries)
    (depth : iter.depth = 0) (bucket : iter.he = data iter.pos) : OnlyFirst ht := by
  have noMove : ∀ iter', hashIterNext ht iter ≠ some (0, iter') := by
    intro iter' moved
    exact hashIterPrev_ne at' slots same moved (right.restores _ _ (.new new) moved)
  obtain ⟨he, next, chain, -⟩ := at'.shows
  have start : iter.pos = 0 := by
    by_contra behind
    obtain ⟨_, failed⟩ := (right.first iter (.new new)).mpr new
    have bucket' : data iter.pos ≠ [] := by
      rw [← bucket, chain]
      exact nofun
    obtain ⟨_, ran, -⟩ :=
      hashIterPrev_of_head at' same depth (Nat.pos_of_ne_zero behind) bucket'
    cases failed.symm.trans ran
  rcases at'.next slots same with ⟨_, _, _, -, ran⟩ | ⟨_, _, -, ran, -⟩ | ⟨he', _, single, -⟩
  · exact absurd ran (noMove _)
  · exact absurd ran (noMove _)
  · refine .inr ⟨data, he', same, ?_, left ▸ single⟩
    unfold HashIter.left at single
    rw [chain, List.cons_append, List.cons.injEq, List.append_eq_nil_iff] at single
    rw [← start, ← bucket, chain, single.1, single.2.1]

/-- With one entry, in the first bucket, there is one position, and it is there. -/
theorem Position.eq_new (position : Position ht iter') (slots : ht.slots < 2 ^ 32)
    (same : ht.data = some data) (new : hashIterNew ht true = some (some iter))
    (at' : iter.At ht.slots data) (single : iter.left ht.slots data = [he]) :
    iter' = iter ∧ ∀ iter'', hashIterNext ht iter' ≠ some (0, iter'') := by
  have noMove : ∀ iter'', hashIterNext ht iter ≠ some (0, iter'') := by
    intro iter'' moved
    rcases at'.next slots same with ⟨_, _, _, chain, -⟩ | ⟨_, _, -, -, at'', left, -⟩ |
      ⟨_, _, -, ran⟩
    · unfold HashIter.left at single
      rw [chain] at single
      cases single
    · obtain ⟨_, _, chain, -⟩ := at''.shows
      rw [left] at single
      unfold HashIter.left at single
      rw [chain] at single
      cases single
    · cases moved.symm.trans ran
  have same' : iter' = iter := by
    induction position with
    | new new' => cases new.symm.trans new'; rfl
    | next _ moved ih =>
        rw [ih] at moved
        exact absurd moved (noMove _)
  exact ⟨same', same' ▸ noMove⟩

theorem OnlyFirst.prevRight (only : OnlyFirst ht) (slots : ht.slots < 2 ^ 32)
    (same : ht.data = some data) (new : hashIterNew ht true = some (some iter))
    (at' : iter.At ht.slots data) (left : iter.left ht.slots data = ht.entries)
    (depth : iter.depth = 0) (bucket : iter.he = data iter.pos) : PrevRight ht := by
  rcases only with none' | ⟨data', he, same', first, single⟩
  · exact absurd none' (Position.new new).entries_ne_nil
  · cases same.symm.trans same'
    have start : iter.pos = 0 := by
      by_contra behind
      have all : ht.entries = entriesFrom data 0 (ht.slots - 1 + 1) := by
        have inside := at'.inside
        unfold Hash.entries
        rw [same, show ht.slots - 1 + 1 = ht.slots by omega]
        exact entries_eq _ _
      rw [single, entriesFrom_succ, first, List.singleton_append, List.cons.injEq] at all
      have empty := List.flatMap_eq_nil_iff.mp all.2.symm iter.pos
        (List.mem_range'_1.mpr ⟨by omega, by have := at'.inside; omega⟩)
      obtain ⟨_, _, chain, -⟩ := at'.shows
      rw [← bucket, chain] at empty
      cases empty
    have failed : hashIterPrev ht iter = some (-1, iter) := by
      unfold hashIterPrev
      rw [if_neg (by omega), if_pos start]
    rw [single] at left
    refine ⟨fun iter₁ iter₂ position moved => ?_, fun iter₁ position => ?_⟩
    · exact absurd moved ((position.eq_new slots same new at' left).2 iter₂)
    · obtain ⟨rfl, -⟩ := position.eq_new slots same new at' left
      exact ⟨fun _ => new, fun _ => ⟨_, failed⟩⟩

end Single

/-- `hash_iter_prev` undoes the moves of `hash_iter_next`, and fails exactly at the first entry,
if and only if the table has no entry, or only one, in the first bucket. -/
theorem hash_iter_prev_iff (ht : Hash V) (slots : ht.slots < 2 ^ 32) :
    PrevRight ht ↔ OnlyFirst ht := by
  by_cases none' : ht.entries = []
  case pos =>
    refine ⟨fun _ => .inl none', fun _ => ⟨fun _ _ position => ?_, fun _ position => ?_⟩⟩
    · exact absurd none' position.entries_ne_nil
    · exact absurd none' position.entries_ne_nil
  case neg =>
    cases same : ht.data with
    | none =>
        unfold Hash.entries at none'
        rw [same] at none'
        exact absurd rfl none'
    | some data =>
        rcases hashIterNew_spec same with ⟨empty, -⟩ | ⟨iter, new, at', left, depth, bucket⟩
        · exact absurd empty none'
        · constructor
          case mp =>
            intro right
            exact right.onlyFirst slots same new at' left depth bucket
          case mpr =>
            intro only
            exact only.prevRight slots same new at' left depth bucket

/-- A table with one entry, in the first bucket. -/
def single : Hash Nat where
  slots := 16
  count := 1
  data := some fun i => if i = 0 then [([107], 1)] else []

theorem hash_iter_prev_iff_single : PrevRight single :=
  (hash_iter_prev_iff single (by decide)).mpr
    (.inr ⟨_, ([107], 1), rfl, by decide, by decide⟩)

/-- An iterator of `letters` at the first entry, and at the second one. -/
def atFirst : HashIter Nat := ⟨6, 0, [([113], 2), ([97], 1)], some [113], some 2⟩

def atSecond : HashIter Nat := ⟨6, 1, [([97], 1)], some [97], some 1⟩

/-- After the first move in a chain, `hash_iter_prev` stays where it is. -/
theorem hash_iter_prev_stays : ¬ ∀ ht : Hash Nat, ht.slots < 2 ^ 32 → PrevRight ht := by
  intro claim
  have new : hashIterNew letters true = some (some atFirst) := by decide
  have moved : hashIterNext letters atFirst = some (0, atSecond) := by decide
  have undone := (claim letters (by decide)).restores atFirst atSecond (.new new) moved
  have stays : hashIterPrev letters atSecond = some (0, { atSecond with depth := 0 }) := by decide
  have same := undone.symm.trans stays
  exact absurd same (by decide)

end Verben
