import Verben.Conf.Accept
import Verben.Conf.Calls
import Verben.Conf.Tree

/-!
# The items that a table holds

A table with all tables and values under it lies in an area of its own: a call of `conf_parse`
takes new ones, one behind the other, and nothing that is done later reaches into the area of a
block that was read (`Stored.keeps`). While the loop reads the lines of a block, its table holds
the items that were read so far (`Holding`), and a line with a key adds one (`itemRound_cases`).
-/

namespace Verben

open ConfStore

/-- Tables and values, each from one number up to another. -/
structure Area : Type where
  table : Nat
  tableEnd : Nat
  low : Nat
  high : Nat

/-- An area inside another one, behind the first table. -/
structure Area.Within (b a : Area) : Prop where
  table : a.table < b.table
  tableEnd : b.tableEnd ≤ a.tableEnd
  low : a.low ≤ b.low
  high : b.high ≤ a.high

/-- In an area, nothing is changed. -/
structure ConfStore.Keeps (store store' : ConfStore) (a : Area) : Prop where
  tables : ∀ i, a.table ≤ i → i < a.tableEnd → store'.tables i = store.tables i
  values : ∀ cv, a.low ≤ cv → cv < a.high → store'.values cv = store.values cv

/-- What a key has in its table, when the values and the blocks were given for it. -/
inductive Content (values : List CStr) (blocks : List (List ConfItem)) (tables : List Nat) :
    Option ConfValue → Prop
  | absent (noValues : values = []) (noBlocks : blocks = []) : Content values blocks tables none
  | entry (some' : values ≠ []) (noBlocks : blocks = []) :
      Content values blocks tables (some (.entry values.reverse))
  | block (noValues : values = []) (some' : blocks ≠ []) :
      Content values blocks tables (some (.block tables))

/-- The first of the values. -/
def ConfValue.first : ConfValue → Option CStr
  | .entry values => values.head?
  | _ => none

/-- The number is one of the tables of the area. -/
def Area.Has (a : Area) (i : Nat) : Prop := a.table ≤ i ∧ i < a.tableEnd

/-- The first table of the area holds the items; `inner` is what is said of the blocks among
them, each of which has an area of its own. There is no other table in the area. -/
structure HasItems (inner : Area → List ConfItem → Prop) (store : ConfStore) (a : Area)
    (map : CStr → Option Nat) (areas : CStr → List Area) (items : List ConfItem) : Prop where
  held : ∃ ht, store.tables a.table = some ht ∧ ht.Maps map
  inside : a.table < a.tableEnd
  own : ∀ {key cv}, map key = some cv → a.low ≤ cv ∧ cv < a.high
  content : ∀ key, Content (valuesOf key items) (blocksOf key items)
    ((areas key).map Area.table) ((map key).map store.values)
  within : ∀ {key b}, b ∈ areas key → b.Within a
  apart : ∀ {key b key' cv}, b ∈ areas key → map key' = some cv → cv < b.low ∨ b.high ≤ cv
  blocks : ∀ key, List.Forall₂ inner (areas key) (blocksOf key items).reverse
  ordered : ∀ key, (areas key).Pairwise fun b b' => b'.tableEnd ≤ b.table
  disjoint : ∀ {key key' b b'}, key ≠ key' → b ∈ areas key → b' ∈ areas key' →
    b.tableEnd ≤ b'.table ∨ b'.tableEnd ≤ b.table
  covered : ∀ i, a.table < i → i < a.tableEnd →
    store.tables i = none ∨ ∃ key b, b ∈ areas key ∧ b.Has i

/-- The area holds the items, to a depth of `level` blocks. -/
def Stored (store : ConfStore) : Nat → Area → List ConfItem → Prop
  | 0, _, _ => True
  | level + 1, a, items => ∃ map areas, HasItems (Stored store level) store a map areas items

/-- The area holds the items, however deep the blocks are nested. -/
def StoredAll (store : ConfStore) (a : Area) (items : List ConfItem) : Prop :=
  ∀ level, Stored store level a items

/-- What a call has taken so far. -/
def ConfStore.area (store : ConfStore) (t low : Nat) : Area :=
  ⟨t, store.tableNum, low, store.valueNum⟩

/-- The items in the table of a call, which has taken values from `low` on. -/
def Holding (store : ConfStore) (t low : Nat) (items : List ConfItem) : Prop :=
  ∃ map areas, store.Table t low map ∧
    HasItems (StoredAll store) store (store.area t low) map areas items

section Keeps

variable {store store' : ConfStore} {a b : Area} {inner inner' : Area → List ConfItem → Prop}
  {map : CStr → Option Nat} {areas : CStr → List Area} {items : List ConfItem} {level : Nat}

theorem forall₂_imp_mem {A B : Type} {R S : A → B → Prop} {xs : List A} {ys : List B}
    (imp : ∀ x ∈ xs, ∀ y, R x y → S x y) (all : List.Forall₂ R xs ys) : List.Forall₂ S xs ys := by
  induction all with
  | nil => exact .nil
  | cons head _ ih =>
      exact .cons (imp _ List.mem_cons_self _ head)
        (ih fun x mem => imp x (List.mem_cons_of_mem _ mem))

theorem ConfStore.Keeps.within (keeps : store.Keeps store' a) (within : b.Within a) :
    store.Keeps store' b where
  tables := fun i low high => keeps.tables i (Nat.le_trans (Nat.le_of_lt within.table) low)
    (Nat.lt_of_lt_of_le high within.tableEnd)
  values := fun cv low high => keeps.values cv (Nat.le_trans within.low low)
    (Nat.lt_of_lt_of_le high within.high)

theorem HasItems.keeps (has : HasItems inner store a map areas items)
    (keeps : store.Keeps store' a)
    (imp : ∀ b, b.Within a → ∀ items, inner b items → inner' b items) :
    HasItems inner' store' a map areas items where
  held := by
    rw [keeps.tables a.table (Nat.le_refl _) has.inside]
    exact has.held
  inside := has.inside
  own := has.own
  content := fun key => by
    have same : (map key).map store'.values = (map key).map store.values := by
      cases mem : map key with
      | none => rfl
      | some cv => exact congrArg some (keeps.values cv (has.own mem).1 (has.own mem).2)
    rw [same]
    exact has.content key
  within := has.within
  apart := has.apart
  blocks := fun key => forall₂_imp_mem (fun b mem => imp b (has.within mem)) (has.blocks key)
  ordered := has.ordered
  disjoint := has.disjoint
  covered := fun i above below => by
    rw [keeps.tables i (Nat.le_of_lt above) below]
    exact has.covered i above below

/-- What is done elsewhere does not reach into the area. -/
theorem Stored.keeps (stored : Stored store level a items) (keeps : store.Keeps store' a) :
    Stored store' level a items := by
  induction level generalizing a items with
  | zero => trivial
  | succ level ih =>
      obtain ⟨map, areas, has⟩ := stored
      exact ⟨map, areas, has.keeps keeps fun b within items inner =>
        ih inner (keeps.within within)⟩

theorem Holding.storedAll {t low : Nat} (holding : Holding store t low items) :
    StoredAll store (store.area t low) items := by
  obtain ⟨map, areas, _, has⟩ := holding
  intro level
  cases level with
  | zero => trivial
  | succ level =>
      exact ⟨map, areas, has.keeps ⟨fun _ _ _ => rfl, fun _ _ _ => rfl⟩
        fun b _ items all => all level⟩

/-! ## What is found in an area -/

theorem confValue_eq (has : HasItems inner store a map areas items) (key : CStr) :
    confValue store a.table key = some ((map key).map store.values) := by
  obtain ⟨ht, held, maps⟩ := has.held
  unfold confValue
  simp only [held, hashGetVal_maps maps, Option.bind_eq_bind, Option.bind_some]

theorem confGetStrValue_eq (has : HasItems inner store a map areas items) (key : CStr)
    (default : Option CStr) :
    confGetStrValue store a.table key default =
      (((map key).map store.values).bind ConfValue.first).or default := by
  obtain ⟨ht, held, maps⟩ := has.held
  unfold confGetStrValue
  simp only [held, hashGetVal_maps maps, Option.bind_some]
  cases map key with
  | none => rfl
  | some cv =>
      simp only [Option.map_some, Option.bind_some]
      cases store.values cv with
      | unset blocks => rfl
      | block blocks => rfl
      | entry values => cases values <;> rfl

theorem HasItems.findsValues (has : HasItems inner store a map areas items) (key : CStr) :
    FindsValues store a.table key (valuesOf key items).reverse := by
  have content := has.content key
  refine ⟨fun S foreach s => ?_, fun default => ?_⟩
  · unfold confArrayForeach
    rw [confValue_eq has key]
    generalize (map key).map store.values = value at content
    cases content with
    | absent noValues =>
        rw [noValues]
        exact ⟨_, rfl, walkedOrNone_nil⟩
    | entry some' =>
        exact ⟨_, rfl, foreachList_walkedOrNone (mt List.reverse_eq_nil_iff.mp some')⟩
    | block noValues =>
        rw [noValues]
        exact ⟨_, rfl, walkedOrNone_nil⟩
  · rw [confGetStrValue_eq has key default]
    generalize (map key).map store.values = value at content
    cases content with
    | absent noValues =>
        rw [noValues]
        rfl
    | entry => rfl
    | block noValues =>
        rw [noValues]
        rfl

theorem HasItems.findsBlocks (has : HasItems inner store a map areas items) (key : CStr) :
    FindsBlocks store a.table key ((areas key).map Area.table) := by
  have content := has.content key
  have length := (has.blocks key).length_eq
  have none' : blocksOf key items = [] → (areas key).map Area.table = [] := by
    intro noBlocks
    rw [noBlocks] at length
    rw [List.length_eq_zero_iff.mp length]
    rfl
  refine ⟨fun S foreach s => ?_, ?_⟩
  · unfold confBlockForeach
    rw [confValue_eq has key]
    generalize (map key).map store.values = value at content
    cases content with
    | absent _ noBlocks =>
        rw [none' noBlocks]
        exact ⟨_, rfl, walkedOrNone_nil⟩
    | entry _ noBlocks =>
        rw [none' noBlocks]
        exact ⟨_, rfl, walkedOrNone_nil⟩
    | block _ some' =>
        have some'' : (areas key).map Area.table ≠ [] := by
          intro nil
          rw [List.map_eq_nil_iff.mp nil, List.length_nil, List.length_reverse] at length
          exact some' (List.length_eq_zero_iff.mp length.symm)
        exact ⟨_, rfl, foreachList_walkedOrNone some''⟩
  · unfold confGetBlock
    rw [confValue_eq has key]
    generalize (map key).map store.values = value at content
    cases content with
    | absent _ noBlocks =>
        rw [none' noBlocks]
        rfl
    | entry _ noBlocks =>
        rw [none' noBlocks]
        rfl
    | block => rfl

/-- What is stored in an area is found there. -/
theorem Stored.agrees (stored : Stored store level a items) :
    Agrees store level a.table items := by
  induction level generalizing a items with
  | zero => trivial
  | succ level ih =>
      obtain ⟨map, areas, has⟩ := stored
      intro key
      refine ⟨has.findsValues key, ⟨_, has.findsBlocks key, ?_⟩, fun noValues noBlocks => ?_⟩
      · rw [List.forall₂_map_left_iff]
        exact (has.blocks key).imp fun _ _ inner => ih inner
      · rw [confValue_eq has key]
        have content := has.content key
        generalize (map key).map store.values = value at content
        cases content with
        | absent => rfl
        | entry some' => exact absurd noValues some'
        | block _ some' => exact absurd noBlocks some'

end Keeps

/-! ## One more item -/

section Put

variable {store store' : ConfStore} {t low cv : Nat} {map map' : CStr → Option Nat}
  {areas : CStr → List Area} {items : List ConfItem} {item : ConfItem} {key : CStr}

theorem valuesOf_concat (key : CStr) (items : List ConfItem) (item : ConfItem) :
    valuesOf key (items ++ [item]) = valuesOf key items ++ (item.value? key).toList := by
  unfold valuesOf
  rw [List.filterMap_append]
  cases given : item.value? key with
  | none => rw [List.filterMap_cons_none given]; rfl
  | some value => rw [List.filterMap_cons_some given]; rfl

theorem blocksOf_concat (key : CStr) (items : List ConfItem) (item : ConfItem) :
    blocksOf key (items ++ [item]) = blocksOf key items ++ (item.block? key).toList := by
  unfold blocksOf
  rw [List.filterMap_append]
  cases given : item.block? key with
  | none => rw [List.filterMap_cons_none given]; rfl
  | some block => rw [List.filterMap_cons_some given]; rfl

/-- The value of one key was filled in, and `new` are the areas of the blocks that were given with
it. -/
structure Put (store store' : ConfStore) (t low : Nat) (map map' : CStr → Option Nat)
    (areas : CStr → List Area) (item : ConfItem) (key : CStr) (cv : Nat) (new : List Area) :
    Prop where
  table : store'.Table t low map'
  tableNum : store.tableNum ≤ store'.tableNum
  valueNum : store.valueNum ≤ store'.valueNum
  tables : ∀ i < store.tableNum, i ≠ t → store'.tables i = store.tables i
  values : ∀ cv' < store.valueNum, cv' ≠ cv → store'.values cv' = store.values cv'
  here : map' key = some cv
  others : ∀ key' ≠ key, map' key' = map key'
  elsewhere : ∀ key' ≠ key, item.value? key' = none ∧ item.block? key' = none
  apart : ∀ {key' b}, b ∈ areas key' → cv < b.low ∨ b.high ≤ cv
  within : ∀ b ∈ new, b.Within (store'.area t low)
  behind : ∀ b ∈ new, store.valueNum ≤ b.low ∧ cv < b.low
  later : ∀ b ∈ new, store.tableNum ≤ b.table
  ordered : new.Pairwise fun b b' => b'.tableEnd ≤ b.table
  covered : ∀ i, store.tableNum ≤ i → i < store'.tableNum → ∃ b ∈ new, b.Has i
  stored : List.Forall₂ (StoredAll store') new (item.block? key).toList

variable {new : List Area}

/-- The other areas are not reached. -/
theorem Put.keeps (put : Put store store' t low map map' areas item key cv new) {b : Area}
    {key' : CStr} (mem : b ∈ areas key') (within : b.Within (store.area t low)) :
    store.Keeps store' b where
  tables := fun i lower upper => put.tables i (Nat.lt_of_lt_of_le upper within.tableEnd)
    (Nat.ne_of_gt (Nat.lt_of_lt_of_le within.table lower))
  values := fun cv' lower upper => by
    refine put.values cv' (Nat.lt_of_lt_of_le upper within.high) ?_
    rintro rfl
    rcases put.apart mem with before | behind
    · exact absurd lower (Nat.not_le_of_lt before)
    · exact absurd upper (Nat.not_lt_of_le behind)

theorem forall₂_reverse_concat {A B : Type} {R : A → B → Prop} {new xs : List A}
    {given : Option B} {ys : List B} (first : List.Forall₂ R new given.toList)
    (rest : List.Forall₂ R xs ys.reverse) :
    List.Forall₂ R (new ++ xs) (ys ++ given.toList).reverse := by
  cases given with
  | none =>
      cases first
      rw [Option.toList_none, List.append_nil]
      exact rest
  | some y =>
      rw [Option.toList_some] at first ⊢
      rw [List.reverse_concat]
      cases first with
      | cons head none' =>
          cases none'
          exact .cons head rest

/-- The areas with the new ones. -/
theorem mem_update_append {key' : CStr} {b : Area} :
    b ∈ Function.update areas key (new ++ areas key) key' ↔
      (key' = key ∧ b ∈ new) ∨ b ∈ areas key' := by
  by_cases same : key' = key
  · subst same
    rw [Function.update_self, List.mem_append]
    exact or_congr_left (and_iff_right rfl).symm
  · rw [Function.update_of_ne same]
    exact ⟨Or.inr, fun mem => mem.resolve_left fun here => same here.1⟩

section PutFields

variable (has : HasItems (StoredAll store) store (store.area t low) map areas items)
  (put : Put store store' t low map map' areas item key cv new)

include has put

/-- The new areas are behind the others. -/
theorem HasItems.put_before {key' : CStr} {b b' : Area} (mem : b ∈ areas key') (new' : b' ∈ new) :
    b.tableEnd ≤ b'.table :=
  Nat.le_trans (has.within mem).tableEnd (put.later _ new')

/-- The other keys keep what they have. -/
theorem HasItems.put_content (table : store.Table t low map)
    (content : Content (valuesOf key (items ++ [item])) (blocksOf key (items ++ [item]))
      ((new ++ areas key).map Area.table) (some (store'.values cv))) (key' : CStr) :
    Content (valuesOf key' (items ++ [item])) (blocksOf key' (items ++ [item]))
      ((Function.update areas key (new ++ areas key) key').map Area.table)
      ((map' key').map store'.values) := by
  by_cases same : key' = key
  · rw [same, put.here, Function.update_self]
    exact content
  · obtain ⟨noValue, noBlock⟩ := put.elsewhere key' same
    have old := has.content key'
    rw [valuesOf_concat, blocksOf_concat, noValue, noBlock, Option.toList_none,
      Option.toList_none, List.append_nil, List.append_nil, Function.update_of_ne same,
      put.others key' same]
    cases mem : map key' with
    | none =>
        rw [mem] at old
        exact old
    | some cv' =>
        rw [mem] at old
        have ne : cv' ≠ cv := by
          rintro rfl
          have here : map' key' = some cv' := (put.others key' same).trans mem
          exact same (put.table.apart here put.here)
        rw [Option.map_some, put.values cv' (table.values mem).2 ne]
        exact old

theorem HasItems.put_apart (table : store.Table t low map) {key₁ key₂ : CStr} {b : Area}
    {cv' : Nat} (mem : b ∈ Function.update areas key (new ++ areas key) key₁)
    (held : map' key₂ = some cv') : cv' < b.low ∨ b.high ≤ cv' := by
  by_cases same : key₂ = key
  case pos =>
    rw [same, put.here] at held
    cases held
    rcases mem_update_append.mp mem with ⟨-, first⟩ | rest
    · exact Or.inl (put.behind b first).2
    · exact put.apart rest
  case neg =>
    rw [put.others key₂ same] at held
    rcases mem_update_append.mp mem with ⟨-, first⟩ | rest
    · exact Or.inl (Nat.lt_of_lt_of_le (table.values held).2 (put.behind b first).1)
    · exact has.apart rest held

/-- The blocks that were there stay, and the one that was given comes first. -/
theorem HasItems.put_blocks (key' : CStr) :
    List.Forall₂ (StoredAll store') (Function.update areas key (new ++ areas key) key')
      (blocksOf key' (items ++ [item])).reverse := by
  have kept : ∀ b ∈ areas key', ∀ items, StoredAll store b items → StoredAll store' b items :=
    fun b mem items all level => (all level).keeps (put.keeps mem (has.within mem))
  have old := forall₂_imp_mem kept (has.blocks key')
  by_cases same : key' = key
  · subst same
    rw [Function.update_self, blocksOf_concat]
    exact forall₂_reverse_concat put.stored old
  · obtain ⟨_, noBlock⟩ := put.elsewhere key' same
    rw [Function.update_of_ne same, blocksOf_concat, noBlock, Option.toList_none, List.append_nil]
    exact old

theorem HasItems.put_disjoint {key₁ key₂ : CStr} {b b' : Area} (ne : key₁ ≠ key₂)
    (mem : b ∈ Function.update areas key (new ++ areas key) key₁)
    (mem' : b' ∈ Function.update areas key (new ++ areas key) key₂) :
    b.tableEnd ≤ b'.table ∨ b'.tableEnd ≤ b.table := by
  rcases mem_update_append.mp mem with ⟨same, first⟩ | rest
  · rcases mem_update_append.mp mem' with ⟨same', -⟩ | rest'
    · exact absurd (same.trans same'.symm) ne
    · exact Or.inr (has.put_before put rest' first)
  · rcases mem_update_append.mp mem' with ⟨-, first'⟩ | rest'
    · exact Or.inl (has.put_before put rest first')
    · exact has.disjoint ne rest rest'

theorem HasItems.put_covered {i : Nat} (above : t < i) (below : i < store'.tableNum) :
    store'.tables i = none ∨
      ∃ key' b, b ∈ Function.update areas key (new ++ areas key) key' ∧ b.Has i := by
  by_cases old : i < store.tableNum
  · rw [put.tables i old (Nat.ne_of_gt above)]
    rcases has.covered i above old with none' | ⟨key', b, mem, inside⟩
    · exact Or.inl none'
    · exact Or.inr ⟨key', b, mem_update_append.mpr (Or.inr mem), inside⟩
  · obtain ⟨b, new', inside⟩ := put.covered i (Nat.le_of_not_lt old) below
    exact Or.inr ⟨key, b, mem_update_append.mpr (Or.inl ⟨rfl, new'⟩), inside⟩

end PutFields

theorem HasItems.put (has : HasItems (StoredAll store) store (store.area t low) map areas items)
    (table : store.Table t low map)
    (put : Put store store' t low map map' areas item key cv new)
    (content : Content (valuesOf key (items ++ [item])) (blocksOf key (items ++ [item]))
      ((new ++ areas key).map Area.table) (some (store'.values cv))) :
    HasItems (StoredAll store') store' (store'.area t low) map'
      (Function.update areas key (new ++ areas key)) (items ++ [item]) where
  held := put.table.held
  inside := put.table.inside
  own := put.table.values
  content := has.put_content put table content
  within := by
    intro key' b mem
    rcases mem_update_append.mp mem with ⟨-, first⟩ | rest
    · exact put.within b first
    · have within := has.within rest
      exact ⟨within.table, Nat.le_trans within.tableEnd put.tableNum, within.low,
        Nat.le_trans within.high put.valueNum⟩
  apart := has.put_apart put table
  blocks := has.put_blocks put
  ordered := by
    intro key'
    by_cases same : key' = key
    · rw [same, Function.update_self, List.pairwise_append]
      exact ⟨put.ordered, has.ordered key, fun b new' b' mem => has.put_before put mem new'⟩
    · rw [Function.update_of_ne same]
      exact has.ordered key'
  disjoint := has.put_disjoint put
  covered := fun i above below => has.put_covered put above below

end Put

/-- A key has its value `cv`, which may be new and not filled in yet. -/
structure Entered (store store' : ConfStore) (t low : Nat) (map map' : CStr → Option Nat)
    (areas : CStr → List Area) (key : CStr) (cv : Nat) : Prop where
  table : store'.Table t low map'
  tableNum : store'.tableNum = store.tableNum
  beyond : store.Beyond store' t low
  tables : ∀ i ≠ t, store'.tables i = store.tables i
  values : ∀ cv' < store.valueNum, store'.values cv' = store.values cv'
  here : map' key = some cv
  others : ∀ key' ≠ key, map' key' = map key'
  apart : ∀ {key' b}, b ∈ areas key' → cv < b.low ∨ b.high ≤ cv

section Entered

variable {store store' store'' : ConfStore} {t low cv : Nat} {map map' : CStr → Option Nat}
  {areas : CStr → List Area} {items items' : List ConfItem} {key : CStr}

/-- A key that is in the table. -/
theorem entered_old (has : HasItems (StoredAll store) store (store.area t low) map areas items)
    (table : store.Table t low map) (here : map key = some cv) :
    Entered store store t low map map areas key cv where
  table := table
  tableNum := rfl
  beyond := .refl ..
  tables := fun _ _ => rfl
  values := fun _ _ => rfl
  here := here
  others := fun _ _ => rfl
  apart := fun mem => has.apart mem here

/-- A key that is new, with a new value. -/
theorem entered_new (has : HasItems (StoredAll store) store (store.area t low) map areas items)
    (table : store.Table t low map) {ht ht' : Hash Nat} (held : store.tables t = some ht)
    (new : map key = none)
    (inserted : hashInsert ht key store.valueNum .succeed = some (0, ht')) :
    Entered store (store.newValue.setTable t (some ht')) t low map
      (Function.update map key (some store.valueNum)) areas key store.valueNum where
  table := table.insert held new inserted
  tableNum := rfl
  beyond := (store.beyond_newValue t table.below).trans (beyond_setTable ..)
  tables := fun _ ne => Function.update_of_ne ne ..
  values := fun _ old => values_setValue_ne _ (Nat.ne_of_lt old) _
  here := Function.update_self ..
  others := fun _ ne => Function.update_of_ne ne ..
  apart := fun mem => Or.inr (has.within mem).high

theorem Entered.put_value (entered : Entered store store' t low map map' areas key cv)
    (content : ConfValue) (value : CStr) :
    Put store (store'.setValue cv content) t low map map' areas (.value key value) key cv [] where
  table := entered.table.setValue cv content
  tableNum := entered.beyond.tableNum
  valueNum := entered.beyond.valueNum
  tables := fun i _ ne => entered.tables i ne
  values := fun cv' old ne => (values_setValue_ne _ ne _).trans (entered.values cv' old)
  here := entered.here
  others := entered.others
  elsewhere := fun _ ne => ⟨if_neg (Ne.symm ne), rfl⟩
  apart := entered.apart
  within := nofun
  behind := nofun
  later := nofun
  ordered := .nil
  covered := fun _ above below =>
    absurd (Nat.lt_of_lt_of_eq below entered.tableNum) (Nat.not_lt_of_le above)
  stored := .nil

/-- The block that follows is read into tables and values of its own. -/
theorem Entered.put_block (entered : Entered store store' t low map map' areas key cv)
    (nested : Holding store'' store'.tableNum store'.valueNum items')
    (beyond : store'.Beyond store'' store'.tableNum store'.valueNum) (content : ConfValue) :
    Put store (store''.setValue cv content) t low map map' areas (.block key items') key cv
      [store''.area store'.tableNum store'.valueNum] where
  table := (entered.table.beyond beyond entered.table.inside).setValue cv content
  tableNum := Nat.le_trans entered.beyond.tableNum beyond.tableNum
  valueNum := Nat.le_trans entered.beyond.valueNum beyond.valueNum
  tables := fun i old ne =>
    (beyond.tables i (entered.tableNum ▸ old)).trans (entered.tables i ne)
  values := fun cv' old ne => by
    rw [values_setValue_ne _ ne, beyond.values cv' (Nat.lt_of_lt_of_le old entered.beyond.valueNum)]
    exact entered.values cv' old
  here := entered.here
  others := entered.others
  elsewhere := fun _ ne => ⟨rfl, if_neg (Ne.symm ne)⟩
  apart := entered.apart
  within := fun b mem => by
    cases List.mem_singleton.mp mem
    exact ⟨entered.table.inside, Nat.le_refl _, entered.table.below, Nat.le_refl _⟩
  behind := fun b mem => by
    cases List.mem_singleton.mp mem
    exact ⟨entered.beyond.valueNum, (entered.table.values entered.here).2⟩
  later := fun b mem => by
    cases List.mem_singleton.mp mem
    exact entered.beyond.tableNum
  ordered := List.pairwise_singleton ..
  covered := fun i above below =>
    ⟨_, List.mem_singleton_self _, entered.tableNum ▸ above, below⟩
  stored := by
    have given : (ConfItem.block key items').block? key = some items' := if_pos rfl
    rw [given]
    refine .cons (fun level => (nested.storedAll level).keeps ⟨fun _ _ _ => rfl, ?_⟩) .nil
    intro cv' lower _
    have before := (entered.table.values entered.here).2
    exact values_setValue_ne _ (Nat.ne_of_gt (Nat.lt_of_lt_of_le before lower)) _

theorem Holding.put {item : ConfItem} {new : List Area}
    (has : HasItems (StoredAll store) store (store.area t low) map areas items)
    (table : store.Table t low map) (put : Put store store' t low map map' areas item key cv new)
    (content : Content (valuesOf key items ++ (item.value? key).toList)
      (blocksOf key items ++ (item.block? key).toList) ((new ++ areas key).map Area.table)
      (some (store'.values cv))) : Holding store' t low (items ++ [item]) := by
  rw [← valuesOf_concat, ← blocksOf_concat] at content
  exact ⟨_, _, put.table, has.put table put content⟩

theorem Content.value {values : List CStr} {blocks : List (List ConfItem)} {tables : List Nat}
    {values' : List CStr} (value : CStr) (noBlocks : blocks = [])
    (same : values' = values.reverse) :
    Content (values ++ [value]) (blocks ++ []) tables (some (.entry (value :: values'))) := by
  have content : Content (values ++ [value]) (blocks ++ []) tables
      (some (.entry (values ++ [value]).reverse)) :=
    .entry (List.append_ne_nil_of_right_ne_nil values (List.cons_ne_nil value []))
      (by rw [noBlocks, List.append_nil])
  rw [List.reverse_concat, ← same] at content
  exact content

theorem Content.put_block {values : List CStr} {blocks : List (List ConfItem)} {tables : List Nat}
    (t : Nat) (items : List ConfItem) (noValues : values = []) :
    Content (values ++ []) (blocks ++ [items]) (t :: tables) (some (.block (t :: tables))) :=
  .block (by rw [noValues, List.append_nil])
    (List.append_ne_nil_of_right_ne_nil blocks (List.cons_ne_nil items []))

end Entered

/-! ## One round with a key -/

/-- The key of a block has its value, and the block is read next. Where the key is new, its value
has no type yet. -/
structure OpensBlock (store store' : ConfStore) (t low : Nat) (items : List ConfItem) (key : CStr)
    (first : Bool) (cv : Nat) : Prop where
  beyond : store.Beyond store' t low
  inside : t < store'.tableNum
  unset : first = true → (∃ ht map, store'.tables t = some ht ∧ ht.Maps map ∧ map key = some cv) ∧
    store'.values cv = .unset [] ∧ cv < store'.valueNum
  again : first = false → store' = store
  linked : ∀ store'' items', Holding store'' store'.tableNum store'.valueNum items' →
    store'.Beyond store'' store'.tableNum store'.valueNum →
    Holding (store''.setValue cv (linkBlock first (store''.values cv) store'.tableNum)) t low
      (items ++ [.block key items']) ∧
    store.Beyond (store''.setValue cv (linkBlock first (store''.values cv) store'.tableNum)) t low

section Item

variable {f : ConfFrame} {fp : List UInt8} {store : ConfStore} {low : Nat}
  {items : List ConfItem} {key value var : CStr}

/-- **What a line with a key does**: the key was used in the other way, or an item is added, or a
block is read first. -/
theorem itemRound_cases (holding : Holding store f.conf low items) :
    itemRound f fp store key value var = .done (confError f.conf fp store) ∨
    (∃ store', value ≠ [123] ∧ itemRound f fp store key value var = .next f fp store' ∧
      Holding store' f.conf low (items ++ [.value key var]) ∧ store.Beyond store' f.conf low) ∨
    (∃ first store' cv, value = [123] ∧
      itemRound f fp store key value var = .block first f fp store' cv ∧
      OpensBlock store store' f.conf low items key first cv) := by
  obtain ⟨map, areas, table, has⟩ := holding
  obtain ⟨ht, held, maps⟩ := table.held
  have content := has.content key
  have givenValue : (ConfItem.value key var).value? key = some var := if_pos rfl
  have givenBlock : ∀ items', (ConfItem.block key items').block? key = some items' :=
    fun _ => if_pos rfl
  unfold itemRound
  simp only [held, hashGetVal_maps maps]
  cases mem : map key with
  | none =>
      obtain ⟨ht', inserted, maps', _⟩ := hashInsert_maps maps key store.valueNum
      have entered := entered_new has table held mem inserted
      rw [mem] at content
      simp only [inserted, ne_eq, not_true_eq_false, if_false]
      cases content with
      | absent noValues noBlocks =>
          by_cases opens : value = [123]
          case neg =>
            rw [if_neg opens]
            refine Or.inr (Or.inl ⟨_, opens, rfl, ?_,
              entered.beyond.trans (beyond_setValue _ _ table.below _)⟩)
            refine Holding.put has table (entered.put_value (.entry [var]) var) ?_
            rw [givenValue, values_setValue]
            exact .value var noBlocks (by rw [noValues]; rfl)
          case pos =>
            rw [if_pos opens]
            refine Or.inr (Or.inr ⟨true, _, _, opens, rfl, entered.beyond, entered.table.inside,
              fun _ => ⟨⟨ht', _, Function.update_self .., maps', Function.update_self ..⟩,
                Function.update_self .., Nat.lt_succ_self _⟩, nofun,
              fun store'' items' nested beyond => ⟨?_, ?_⟩⟩)
            · refine Holding.put has table (entered.put_block nested beyond (.block [_])) ?_
              have length := (has.blocks key).length_eq
              rw [noBlocks] at length
              rw [givenBlock, values_setValue, List.length_eq_zero_iff.mp length]
              exact .put_block _ items' noValues
            · exact (entered.beyond.trans (beyond.mono (Nat.le_of_lt entered.table.inside)
                entered.table.below)).trans (beyond_setValue _ _ table.below _)
  | some cv =>
      have entered := entered_old has table mem
      rw [mem, Option.map_some] at content
      dsimp only
      generalize found : store.values cv = old at content
      cases content with
      | entry some' noBlocks =>
          by_cases opens : value = [123]
          case pos => exact Or.inl (if_pos opens)
          case neg =>
            refine Or.inr (Or.inl ⟨_, opens, if_neg opens, ?_,
              beyond_setValue _ _ (table.values mem).1 _⟩)
            refine Holding.put has table (entered.put_value (.entry (var :: _)) var) ?_
            rw [givenValue, values_setValue]
            exact .value var noBlocks rfl
      | block noValues some' =>
          by_cases opens : value = [123]
          case neg => exact Or.inl (if_neg opens)
          case pos =>
            refine Or.inr (Or.inr ⟨false, _, _, opens, if_pos opens, .refl .., table.inside, nofun,
              fun _ => rfl, fun store'' items' nested beyond => ⟨?_, ?_⟩⟩)
            · refine Holding.put has table (entered.put_block nested beyond _) ?_
              rw [givenBlock, values_setValue, beyond.values cv (table.values mem).2, found]
              exact .put_block _ items' noValues
            · exact (beyond.mono (Nat.le_of_lt table.inside) table.below).trans
                (beyond_setValue _ _ (table.values mem).1 _)

end Item

/-! ## A new call -/

theorem holding_newTable (store : ConfStore) {new : Hash Nat} (maps : new.Maps fun _ => none) :
    Holding (store.newTable new) store.tableNum store.valueNum [] :=
  ⟨fun _ => none, fun _ => [], (ready_newTable store maps).table, {
    held := ⟨new, Function.update_self .., maps⟩
    inside := Nat.lt_succ_self _
    own := nofun
    content := fun _ => .absent rfl rfl
    within := nofun
    apart := nofun
    blocks := fun _ => .nil
    ordered := fun _ => .nil
    disjoint := nofun
    covered := fun _ above below => absurd (Nat.le_of_lt_succ below) (Nat.not_le_of_lt above) }⟩

/-- A new table holds no items. -/
theorem ConfStore.opens (store : ConfStore) :
    ∃ store', store.opened = some store' ∧ Holding store' store.tableNum store.valueNum [] ∧
      store.Beyond store' store.tableNum store.valueNum := by
  obtain ⟨new, opened, maps⟩ := store.opened_eq
  have beyond := beyond_newTable store.called new
  exact ⟨store.called.newTable new, opened, holding_newTable store.called maps,
    beyond.tables, beyond.values, beyond.tableNum, beyond.valueNum⟩

/-- A whole call reads items into a table of its own. -/
theorem confParse_holds {env : ConfEnv} {loop : ParseLoop} {text : List UInt8} {out : ConfOut}
    (path : CStr) (block : Bool) (store : ConfStore) {t : Nat}
    (called : confParse env loop none path text block store = some (t, out)) :
    ∃ f store', f.conf = store.tableNum ∧ f.block = block ∧ t = store.tableNum ∧
      loop f text store' = some out ∧ Holding store' store.tableNum store.valueNum [] ∧
      store.Beyond store' store.tableNum store.valueNum := by
  obtain ⟨store', opened, empty, beyond⟩ := store.opens
  rw [confParse_opened opened] at called
  obtain ⟨out', ran, same⟩ := Option.map_eq_some_iff.mp called
  cases same
  exact ⟨_, store', rfl, rfl, rfl, ran, empty, beyond⟩

end Verben
