import Verben.Conf.Held
import Verben.Conf.Plain

/-!
# What `conf_free` frees

`conf_free` takes the entries out of a table one by one, and frees what each of them points to
(`confFree_eq`). A table in an area of its own is freed with all tables under it, each of them
once, and nothing else is (`confFree_stored`). A value without a type ends the process.
-/

namespace Verben

open Buckets ConfStore

/-- The values of the entries are freed, one after the other, up to one that is not. -/
def freeEntries (free : ConfStore → Nat → ConfRet × ConfStore) :
    List (HashEntry Nat) → ConfStore → ConfRet × ConfStore
  | [], store => (.ok, store)
  | he :: next, store =>
      let freed := freeVal free (store.values he.2) store
      if freed.1 = .ok then freeEntries free next freed.2 else freed

/-- The table goes last. -/
def freeTable (t : Nat) (freed : ConfRet × ConfStore) : ConfRet × ConfStore :=
  if freed.1 = .ok then (.ok, freed.2.setTable t none) else freed

/-- The tables `gone` were freed, and nothing else happened. -/
structure ConfStore.Freed (store store' : ConfStore) (gone : Nat → Prop) : Prop where
  cleared : ∀ i, gone i → store'.tables i = none
  kept : ∀ i, ¬ gone i → store'.tables i = store.tables i
  values : store'.values = store.values
  tableNum : store'.tableNum = store.tableNum
  valueNum : store'.valueNum = store.valueNum

section Walk

variable {free : ConfStore → Nat → ConfRet × ConfStore} {ht : Hash Nat}
  {map : CStr → Option Nat} {data : Nat → List (HashEntry Nat)}

theorem freeEntries_ok {he : HashEntry Nat} {store : ConfStore}
    (ok : (freeVal free (store.values he.2) store).1 = .ok) (next : List (HashEntry Nat)) :
    freeEntries free (he :: next) store =
      freeEntries free next (freeVal free (store.values he.2) store).2 :=
  if_pos ok

theorem freeEntries_stops {he : HashEntry Nat} {store : ConfStore}
    (failed : (freeVal free (store.values he.2) store).1 ≠ .ok) (next : List (HashEntry Nat)) :
    freeEntries free (he :: next) store = freeVal free (store.values he.2) store :=
  if_neg failed

theorem freeEntries_append (xs ys : List (HashEntry Nat)) (store : ConfStore) :
    freeEntries free (xs ++ ys) store =
      if (freeEntries free xs store).1 = .ok then freeEntries free ys (freeEntries free xs store).2
      else freeEntries free xs store := by
  induction xs generalizing store with
  | nil => rfl
  | cons he xs ih =>
      rw [List.cons_append]
      by_cases ok : (freeVal free (store.values he.2) store).1 = .ok
      · rw [freeEntries_ok ok, freeEntries_ok ok]
        exact ih _
      · rw [freeEntries_stops ok, freeEntries_stops ok, if_neg ok]

/-- One entry: it is taken out of the table, and its value is freed. -/
theorem confFreeForeach_eq (free : ConfStore → Nat → ConfRet × ConfStore)
    {he : HashEntry Nat} {ht' : Hash Nat} (end' : ConfRet) (store : ConfStore)
    (deleted : hashDelete ht he.1 = some (0, ht')) :
    confFreeForeach free he (end', store, ht) =
      some (if (freeVal free (store.values he.2) store).1 = .ok then 0 else -1,
        (freeVal free (store.values he.2) store).1, (freeVal free (store.values he.2) store).2,
        ht') := by
  unfold confFreeForeach
  simp only [deleted, Option.bind_eq_bind, Option.bind_some]
  rcases freeVal free (store.values he.2) store with ⟨ret, store'⟩
  cases ret <;> rfl

/-- A chain is walked while its entries are taken out. -/
theorem foreachChain_free (free : ConfStore → Nat → ConfRet × ConfStore) {i : Nat}
    {chain : List (HashEntry Nat)} (maps : ht.Maps map)
    (inside : i < ht.slots) (same : ht.data = some data) (walk : data i = chain) (end' : ConfRet)
    (start : end' = .ok) (store : ConfStore) :
    ∃ ht', foreachChain (confFreeForeach free) chain (end', store, ht) =
        some (if (freeEntries free chain store).1 = .ok then 0 else -1,
          (freeEntries free chain store).1, (freeEntries free chain store).2, ht') ∧
      ((freeEntries free chain store).1 = .ok → (∃ map', ht'.Maps map') ∧
        ht'.slots = ht.slots ∧ ht'.data = some (Function.update data i [])) := by
  induction chain generalizing ht map data end' store with
  | nil =>
      subst start
      refine ⟨ht, rfl, fun _ => ⟨⟨map, maps⟩, rfl, ?_⟩⟩
      rw [← walk, Function.update_eq_self]
      exact same
  | cons he next ih =>
      obtain ⟨_, ht₁, deleted, maps₁, slots₁, same₁, _⟩ :=
        hashDelete_head maps inside same walk
      have called := confFreeForeach_eq free end' store deleted
      by_cases ok : (freeVal free (store.values he.2) store).1 = .ok
      case pos =>
        obtain ⟨ht₂, rest, more⟩ := ih maps₁ (slots₁ ▸ inside) same₁ (Function.update_self ..)
          _ ok (freeVal free (store.values he.2) store).2
        rw [freeEntries_ok ok]
        refine ⟨ht₂, ?_, fun ok' => ?_⟩
        · rw [foreachChain, called]
          simp only [Option.bind_eq_bind, Option.bind_some, if_pos ok, ne_eq, not_true_eq_false,
            if_false]
          exact rest
        · obtain ⟨maps₂, slots₂, same₂⟩ := more ok'
          exact ⟨maps₂, slots₂.trans slots₁, by rw [same₂, Function.update_idem]⟩
      case neg =>
        rw [freeEntries_stops ok]
        refine ⟨ht₁, ?_, fun ok' => absurd ok' ok⟩
        rw [foreachChain, called]
        simp only [Option.bind_eq_bind, Option.bind_some, if_neg ok]
        rfl

theorem foreachBuckets_free (free : ConfStore → Nat → ConfRet × ConfStore) {is : List Nat}
    (maps : ht.Maps map) (once : is.Nodup)
    (inside : ∀ i ∈ is, i < ht.slots) (same : ht.data = some data) (end' : ConfRet)
    (start : end' = .ok) (store : ConfStore) :
    ∃ ht', foreachBuckets (·.2.2) (confFreeForeach free) is (end', store, ht) =
        some (if (freeEntries free (is.flatMap data) store).1 = .ok then 0 else -1,
          (freeEntries free (is.flatMap data) store).1,
          (freeEntries free (is.flatMap data) store).2, ht') := by
  induction is generalizing ht map data end' store with
  | nil =>
      subst start
      exact ⟨ht, rfl⟩
  | cons i is ih =>
      obtain ⟨other, once'⟩ := List.nodup_cons.mp once
      obtain ⟨ht₁, walked, more⟩ := foreachChain_free free maps
        (inside i List.mem_cons_self) same rfl end' start store
      rw [List.flatMap_cons, freeEntries_append]
      by_cases ok : (freeEntries free (data i) store).1 = .ok
      case pos =>
        obtain ⟨⟨map₁, maps₁⟩, slots₁, same₁⟩ := more ok
        obtain ⟨ht₂, rest⟩ := ih maps₁ once'
          (fun j mem => slots₁ ▸ inside j (List.mem_cons_of_mem i mem)) same₁ _ ok
          (freeEntries free (data i) store).2
        have untouched : is.flatMap (Function.update data i []) = is.flatMap data := by
          refine List.flatMap_congr fun j mem => Function.update_of_ne ?_ ..
          rintro rfl
          exact other mem
        rw [untouched] at rest
        rw [if_pos ok]
        refine ⟨ht₂, ?_⟩
        rw [foreachBuckets]
        simp only [same, walked, Option.bind_eq_bind, Option.bind_some, if_pos ok, ne_eq,
          not_true_eq_false, if_false]
        exact rest
      case neg =>
        rw [if_neg ok]
        refine ⟨ht₁, ?_⟩
        rw [foreachBuckets]
        simp only [same, walked, Option.bind_eq_bind, Option.bind_some, if_neg ok]
        rfl

/-- **`conf_free` takes out the entries, one by one.** -/
theorem confFree_eq {store : ConfStore} {t : Nat} (depth : Nat)
    (held : store.tables t = some ht) (maps : ht.Maps map) (same : ht.data = some data) :
    confFree (depth + 1) store t =
      freeTable t (freeEntries (confFree depth) (entries ht.slots data) store) := by
  obtain ⟨ht', walked⟩ := foreachBuckets_free (confFree depth) maps
    List.nodup_range (fun i mem => List.mem_range.mp mem) same .ok rfl store
  unfold confFree
  simp only [held]
  unfold hashForeach
  rw [walked]
  change _ = freeTable t (freeEntries (confFree depth) ((List.range ht.slots).flatMap data) store)
  rcases freeEntries (confFree depth) ((List.range ht.slots).flatMap data) store with ⟨ret, store'⟩
  cases ret <;> rfl

end Walk

section Freed

variable {store store' store'' : ConfStore} {gone gone' : Nat → Prop} {a b : Area}
  {map : CStr → Option Nat} {areas : CStr → List Area} {items : List ConfItem} {level d : Nat}

theorem ConfStore.Freed.refl (store : ConfStore) : store.Freed store fun _ => False :=
  ⟨nofun, fun _ _ => rfl, rfl, rfl, rfl⟩

theorem ConfStore.Freed.trans (first : store.Freed store' gone)
    (second : store'.Freed store'' gone') : store.Freed store'' fun i => gone i ∨ gone' i where
  cleared := fun i either => by
    by_cases here : gone' i
    · exact second.cleared i here
    · rw [second.kept i here]
      exact first.cleared i (either.resolve_right here)
  kept := fun i neither => by
    rw [not_or] at neither
    rw [second.kept i neither.2, first.kept i neither.1]
  values := second.values.trans first.values
  tableNum := second.tableNum.trans first.tableNum
  valueNum := second.valueNum.trans first.valueNum

theorem ConfStore.Freed.congr (freed : store.Freed store' gone) (same : ∀ i, gone' i ↔ gone i) :
    store.Freed store' gone' where
  cleared := fun i here => freed.cleared i ((same i).mp here)
  kept := fun i other => freed.kept i (mt (same i).mpr other)
  values := freed.values
  tableNum := freed.tableNum
  valueNum := freed.valueNum

/-- An area with none of the tables. -/
theorem ConfStore.Freed.keeps (freed : store.Freed store' gone)
    (apart : ∀ i, b.table ≤ i → i < b.tableEnd → ¬ gone i) : store.Keeps store' b where
  tables := fun i lower upper => freed.kept i (apart i lower upper)
  values := fun cv _ _ => by rw [freed.values]

theorem Area.not_has_of_before {i : Nat} (before : a.tableEnd ≤ b.table) (has : a.Has i) :
    ¬ b.Has i := fun has' =>
  absurd (Nat.lt_of_lt_of_le has.2 (Nat.le_trans before has'.1)) (Nat.lt_irrefl i)

/-- `conf_free` frees all tables of such areas. -/
def FreesAreas (d level : Nat) : Prop :=
  ∀ ⦃store a items⦄, a.tableEnd - a.table ≤ d → Stored store level a items →
    ∃ store', confFree d store a.table = (.ok, store') ∧ store.Freed store' a.Has

/-- The areas are freed one after the other. -/
theorem freeBlocks_freed (frees : FreesAreas d level) {bs : List Area}
    (ordered : bs.Pairwise fun b b' => b'.tableEnd ≤ b.table)
    (small : ∀ b ∈ bs, b.tableEnd - b.table ≤ d)
    (stored : ∀ b ∈ bs, ∃ items, Stored store level b items) :
    ∃ store', freeBlocks (confFree d) (bs.map Area.table) store = (.ok, store') ∧
      store.Freed store' fun i => ∃ b ∈ bs, b.Has i := by
  induction bs generalizing store with
  | nil => exact ⟨store, rfl, (Freed.refl store).congr fun i => by simp⟩
  | cons b bs ih =>
      rw [List.pairwise_cons] at ordered
      obtain ⟨items, here⟩ := stored b List.mem_cons_self
      obtain ⟨store₁, ran₁, freed₁⟩ := frees (small b List.mem_cons_self) here
      obtain ⟨store₂, ran₂, freed₂⟩ := ih ordered.2
        (fun b' mem => small b' (List.mem_cons_of_mem b mem)) fun b' mem => by
          obtain ⟨items', there⟩ := stored b' (List.mem_cons_of_mem b mem)
          refine ⟨items', there.keeps (freed₁.keeps fun i lower upper => ?_)⟩
          exact Area.not_has_of_before (ordered.1 b' mem) ⟨lower, upper⟩
      refine ⟨store₂, ?_, (freed₁.trans freed₂).congr fun i => by simp⟩
      rw [List.map_cons, freeBlocks, ran₁]
      exact ran₂

/-- What the value of a key points to. -/
theorem freeVal_freed (frees : FreesAreas d level)
    (has : HasItems (Stored store level) store a map areas items) {key : CStr} {cv : Nat}
    (mem : map key = some cv) (small : a.tableEnd - a.table ≤ d + 1)
    (kept : ∀ b ∈ areas key, store.Keeps store' b) (values : store'.values = store.values) :
    ∃ store'', freeVal (confFree d) (store'.values cv) store' = (.ok, store'') ∧
      store'.Freed store'' fun i => ∃ b ∈ areas key, b.Has i := by
  have content := has.content key
  have length := (has.blocks key).length_eq
  rw [mem, Option.map_some, ← values] at content
  generalize store'.values cv = value at content
  cases content with
  | entry _ noBlocks =>
      rw [noBlocks] at length
      rw [List.length_eq_zero_iff.mp length]
      exact ⟨store', rfl, (Freed.refl store').congr fun i => by simp⟩
  | block =>
      refine freeBlocks_freed frees (has.ordered key) (fun b mem' => ?_) fun b mem' => ?_
      · have within := has.within mem'
        have := within.table
        have := within.tableEnd
        omega
      · have inner := has.blocks key
        obtain ⟨i, inside, rfl⟩ := List.getElem_of_mem mem'
        have stored := List.Forall₂.get inner inside (length ▸ inside)
        exact ⟨_, Stored.keeps stored (kept _ mem')⟩

theorem freeEntries_freed (frees : FreesAreas d level)
    (has : HasItems (Stored store level) store a map areas items)
    (small : a.tableEnd - a.table ≤ d + 1) {es : List (HashEntry Nat)}
    (once : (es.map Prod.fst).Nodup) (held : ∀ he ∈ es, map he.1 = some he.2)
    (kept : ∀ he ∈ es, ∀ b ∈ areas he.1, store.Keeps store' b)
    (values : store'.values = store.values) :
    ∃ store'', freeEntries (confFree d) es store' = (.ok, store'') ∧
      store'.Freed store'' fun i => ∃ he ∈ es, ∃ b ∈ areas he.1, b.Has i := by
  induction es generalizing store' with
  | nil => exact ⟨store', rfl, (Freed.refl store').congr fun i => by simp⟩
  | cons he es ih =>
      rw [List.map_cons, List.nodup_cons] at once
      obtain ⟨store₁, ran₁, freed₁⟩ := freeVal_freed frees has (held he List.mem_cons_self) small
        (kept he List.mem_cons_self) values
      have kept₁ : ∀ he' ∈ es, ∀ b ∈ areas he'.1, store.Keeps store₁ b := by
        intro he' mem b mem'
        have old := kept he' (List.mem_cons_of_mem he mem) b mem'
        have ne : he'.1 ≠ he.1 := fun same => once.1 (same ▸ List.mem_map_of_mem mem)
        have new : store'.Keeps store₁ b := freed₁.keeps fun i lower upper => by
          intro gone
          obtain ⟨b', mem'', has'⟩ := gone
          rcases has.disjoint ne mem' mem'' with before | behind
          · exact Area.not_has_of_before before ⟨lower, upper⟩ has'
          · exact Area.not_has_of_before behind has' ⟨lower, upper⟩
        exact ⟨fun i lower upper => (new.tables i lower upper).trans (old.tables i lower upper),
          fun cv lower upper => (new.values cv lower upper).trans (old.values cv lower upper)⟩
      obtain ⟨store₂, ran₂, freed₂⟩ := ih once.2
        (fun he' mem => held he' (List.mem_cons_of_mem he mem)) kept₁
        (freed₁.values.trans values)
      refine ⟨store₂, ?_, (freed₁.trans freed₂).congr fun i => by simp⟩
      have ok : (freeVal (confFree d) (store'.values he.2) store').1 = .ok := by rw [ran₁]
      rw [freeEntries_ok ok, ran₁]
      exact ran₂

/-- **A table is freed with all tables in its area.** -/
theorem confFree_stored (d : Nat) {level : Nat} (deep : d < level) : FreesAreas d level := by
  induction d generalizing level with
  | zero =>
      obtain ⟨level, rfl⟩ : ∃ l, level = l + 1 := ⟨level - 1, by omega⟩
      intro store a items small stored
      obtain ⟨map, areas, has⟩ := stored
      have := has.inside
      omega
  | succ d ih =>
      obtain ⟨level, rfl⟩ : ∃ l, level = l + 1 := ⟨level - 1, by omega⟩
      intro store a items small stored
      obtain ⟨map, areas, has⟩ := stored
      obtain ⟨ht, held, maps⟩ := has.held
      obtain ⟨data, same, stores⟩ := maps.stored
      have entry := stores.holds
      obtain ⟨store₁, ran, freed⟩ := freeEntries_freed (ih (Nat.lt_of_succ_lt_succ deep)) has small
        stores.unique (fun he mem => (entry he.1 he.2).mpr mem)
        (fun _ _ _ _ => ⟨fun _ _ _ => rfl, fun _ _ _ => rfl⟩) rfl
      refine ⟨store₁.setTable a.table none, ?_, ?_, fun i other => ?_, freed.values,
        freed.tableNum, freed.valueNum⟩
      · rw [confFree_eq d held maps same, ran]
        rfl
      · intro i inside
        by_cases first : i = a.table
        · rw [first]
          exact Function.update_self ..
        · have other : (store₁.setTable a.table none).tables i = store₁.tables i :=
            Function.update_of_ne first ..
          rw [other]
          have above : a.table < i := Nat.lt_of_le_of_ne inside.1 (Ne.symm first)
          by_cases here : ∃ he ∈ entries ht.slots data, ∃ b ∈ areas he.1, b.Has i
          · exact freed.cleared i here
          · rw [freed.kept i here]
            refine (has.covered i above inside.2).resolve_right ?_
            intro listed
            obtain ⟨key, b, mem, has'⟩ := listed
            obtain ⟨cv, mem'⟩ : ∃ cv, map key = some cv := by
              cases found : map key with
              | some cv => exact ⟨cv, rfl⟩
              | none =>
                  have content := has.content key
                  have length := (has.blocks key).length_eq
                  rw [found] at content
                  cases content with
                  | absent _ noBlocks =>
                      rw [noBlocks] at length
                      rw [List.length_eq_zero_iff.mp length] at mem
                      cases mem
            exact here ⟨(key, cv), (entry key cv).mp mem', b, mem, has'⟩
      · have ne : i ≠ a.table := by
          rintro rfl
          exact other ⟨Nat.le_refl _, has.inside⟩
        have same' : (store₁.setTable a.table none).tables i = store₁.tables i :=
          Function.update_of_ne ne ..
        rw [same']
        refine freed.kept i ?_
        intro gone
        obtain ⟨he, _, b, mem, has'⟩ := gone
        have within := has.within mem
        exact other ⟨Nat.le_trans (Nat.le_of_lt within.table) has'.1,
          Nat.lt_of_lt_of_le has'.2 within.tableEnd⟩

end Freed

/-! ## A value without a type -/

section Unset

variable {free : ConfStore → Nat → ConfRet × ConfStore}

theorem ConfRet.ok_ne_error : ConfRet.ok ≠ .error := by decide

theorem ConfRet.exit_ne_error : ConfRet.exit ≠ .error := by decide

theorem ConfRet.fault_ne_error : ConfRet.fault ≠ .error := by decide

theorem freeVal_ne_error (never : ∀ store t, (free store t).1 ≠ .error) (cv : ConfValue)
    (store : ConfStore) : (freeVal free cv store).1 ≠ .error := by
  cases cv with
  | unset blocks => exact ConfRet.exit_ne_error
  | entry values => exact ConfRet.ok_ne_error
  | block blocks =>
      change (freeBlocks free blocks store).1 ≠ .error
      induction blocks generalizing store with
      | nil => exact ConfRet.ok_ne_error
      | cons cb next ih =>
          have first := never store cb
          unfold freeBlocks
          rcases result : free store cb with ⟨ret, store'⟩
          rw [result] at first
          cases ret with
          | ok => exact ih store'
          | error => exact first
          | exit => exact ConfRet.exit_ne_error
          | fault => exact ConfRet.fault_ne_error

/-- `conf_free` does not return -1: it has no result. -/
theorem confFree_ne_error (depth : Nat) (store : ConfStore) (t : Nat) :
    (confFree depth store t).1 ≠ .error := by
  induction depth generalizing store t with
  | zero => exact ConfRet.fault_ne_error
  | succ depth ih =>
      have each : ∀ he (s : ConfRet × ConfStore × Hash Nat) ret s', s.1 ≠ .error →
          confFreeForeach (confFree depth) he s = some (ret, s') → s'.1 ≠ .error := by
        rintro he ⟨end', store₁, ht⟩ ret s' _ called
        obtain ⟨⟨ret', ht'⟩, _, called⟩ := Option.bind_eq_some_iff.mp called
        have freed := freeVal_ne_error ih (store₁.values he.2) store₁
        dsimp only at called freed
        rcases result : freeVal (confFree depth) (store₁.values he.2) store₁ with ⟨end'', store₂⟩
        rw [result] at called freed
        cases end'' with
        | ok =>
            cases called
            exact ConfRet.ok_ne_error
        | error => exact absurd rfl freed
        | exit =>
            cases called
            exact ConfRet.exit_ne_error
        | fault =>
            cases called
            exact ConfRet.fault_ne_error
      unfold confFree
      cases store.tables t with
      | none => exact ConfRet.fault_ne_error
      | some ht =>
          dsimp only
          have start : (ConfRet.ok, store, ht).1 ≠ .error := ConfRet.ok_ne_error
          split
          · exact ConfRet.fault_ne_error
          · exact ConfRet.ok_ne_error
          · next ret store' _ _ walked => exact hashForeach_keeps each start walked

/-- The walk does not come past a value without a type. -/
theorem freeEntries_unset (frees : ∀ store t, (free store t).2.values = store.values)
    {es : List (HashEntry Nat)} {store : ConfStore} {he : HashEntry Nat} (mem : he ∈ es)
    {blocks : List Nat} (unset : store.values he.2 = .unset blocks) :
    (freeEntries free es store).1 ≠ .ok := by
  induction es generalizing store with
  | nil => cases mem
  | cons he' es ih =>
      by_cases ok : (freeVal free (store.values he'.2) store).1 = .ok
      case pos =>
        rw [freeEntries_ok ok]
        rcases List.mem_cons.mp mem with rfl | mem'
        · rw [unset] at ok
          cases ok
        · refine ih mem' ?_
          rw [freeVal_values frees]
          exact unset
      case neg =>
        rw [freeEntries_stops ok]
        exact ok

end Unset

/-! ## Errors -/

section Error

variable {store store' : ConfStore} {conf low : Nat} {items : List ConfItem}

/-- All tables from `t` on were freed, and nothing before was changed. -/
structure ConfStore.Released (store store' : ConfStore) (t low : Nat) : Prop where
  beyond : store.Beyond store' t low
  cleared : ∀ i, t ≤ i → i < store'.tableNum → store'.tables i = none

/-- An error in a call frees its table with all under it, when what was read later is gone. -/
theorem confError_holding (holding : Holding store conf low items)
    (beyond : store.Beyond store' store.tableNum store.valueNum)
    (cleared : ∀ i, store.tableNum ≤ i → i < store'.tableNum → store'.tables i = none)
    (fp : List UInt8) :
    (confError conf fp store').ret = .error ∧
      store.Released (confError conf fp store').store conf low := by
  have stored := holding.storedAll (store'.tableNum + 1)
  obtain ⟨_, _, table, _⟩ := holding
  have keeps : store.Keeps store' (store.area conf low) :=
    ⟨fun i _ upper => beyond.tables i upper, fun cv _ upper => beyond.values cv upper⟩
  have stored' := stored.keeps keeps
  have small : (store.area conf low).tableEnd - (store.area conf low).table ≤ store'.tableNum :=
    Nat.le_trans (Nat.sub_le ..) beyond.tableNum
  obtain ⟨store'', ran, freed⟩ := confFree_stored store'.tableNum (Nat.lt_succ_self _) small stored'
  have ran' : confFree store'.tableNum store' conf = (.ok, store'') := ran
  have result : confError conf fp store' = ⟨.error, fp, store''⟩ := by
    unfold confError
    rw [ran']
  rw [result]
  refine ⟨rfl, ⟨fun i below => ?_, fun cv below => ?_, ?_, ?_⟩, fun i above below => ?_⟩
  · rw [freed.kept i fun has => absurd has.1 (Nat.not_le_of_lt below)]
    exact beyond.tables i (Nat.lt_trans below table.inside)
  · rw [freed.values]
    exact beyond.values cv (Nat.lt_of_lt_of_le below table.below)
  · rw [freed.tableNum]
    exact beyond.tableNum
  · rw [freed.valueNum]
    exact beyond.valueNum
  · by_cases old : i < store.tableNum
    · exact freed.cleared i ⟨above, old⟩
    · rw [freed.kept i fun has => old has.2]
      rw [freed.tableNum] at below
      exact cleared i (Nat.le_of_not_lt old) below

/-- An error in a call whose table was freed before. -/
theorem confError_freed (gone : store.tables conf = none) (fp : List UInt8) :
    (confError conf fp store).ret = .fault := by
  have failed : confFree store.tableNum store conf = (.fault, store) := by
    cases store.tableNum with
    | zero => rfl
    | succ depth =>
        unfold confFree
        rw [gone]
  unfold confError
  rw [failed]

/-- An error in a call while a key in its table has a value without a type. -/
theorem confError_unset {ht : Hash Nat} {map : CStr → Option Nat}
    (held : store.tables conf = some ht) (maps : ht.Maps map) {key : CStr} {cv : Nat}
    (mem : map key = some cv) {blocks : List Nat} (unset : store.values cv = .unset blocks)
    (fp : List UInt8) :
    (confError conf fp store).ret ≠ .error := by
  have failed : (confFree store.tableNum store conf).1 ≠ .ok := by
    cases store.tableNum with
    | zero => exact nofun
    | succ depth =>
        obtain ⟨data, same, stores⟩ := maps.stored
        have stops : (freeEntries (confFree depth) (entries ht.slots data) store).1 ≠ .ok :=
          freeEntries_unset (confFree_values depth) ((stores.holds key cv).mp mem) unset
        rw [confFree_eq depth held maps same]
        unfold freeTable
        rw [if_neg stops]
        exact stops
  have noError := confFree_ne_error store.tableNum store conf
  unfold confError
  rcases result : confFree store.tableNum store conf with ⟨ret, store'⟩
  rw [result] at failed noError
  cases ret with
  | ok => exact absurd rfl failed
  | error => exact absurd rfl noError
  | exit => exact nofun
  | fault => exact nofun

end Error

end Verben
