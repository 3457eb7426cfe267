import Verben.Conf.Lines
import Verben.Hash.Map

/-!
# The table of a block

While a block is parsed, its table maps each key to a value of its own (`Table`), and the types
of the values tell how the keys were used (`scope`). A call of `conf_parse` for a block inside
changes nothing in it: the call has a new table, and new values (`Beyond`).
-/

namespace Verben

open Scopes ConfStore

@[simp] theorem ConfStore.values_setValue (store : ConfStore) (cv : Nat) (value : ConfValue) :
    (store.setValue cv value).values cv = value :=
  Function.update_self ..

theorem ConfStore.values_setValue_ne (store : ConfStore) {cv cv' : Nat} (ne : cv' ≠ cv)
    (value : ConfValue) : (store.setValue cv value).values cv' = store.values cv' :=
  Function.update_of_ne ne ..

/-- What a value was used for, once its type is set. -/
def ConfValue.use : ConfValue → Option Use
  | .unset _ => none
  | .entry _ => some .value
  | .block _ => some .scope

/-- The table maps its keys to values of its own, which are numbered from `low` on. -/
structure ConfStore.Table (store : ConfStore) (t low : Nat) (map : CStr → Option Nat) : Prop where
  held : ∃ ht, store.tables t = some ht ∧ ht.Maps map
  inside : t < store.tableNum
  below : low ≤ store.valueNum
  values : ∀ {key cv}, map key = some cv → low ≤ cv ∧ cv < store.valueNum
  apart : ∀ {key key' cv}, map key = some cv → map key' = some cv → key = key'

/-- How the keys of a table were used. -/
def ConfStore.scope (store : ConfStore) (map : CStr → Option Nat) : Scope CStr :=
  fun key => (map key).bind fun cv => (store.values cv).use

/-- All values of the table have a type. -/
structure ConfStore.Ready (store : ConfStore) (t low : Nat) (map : CStr → Option Nat) : Prop where
  table : store.Table t low map
  typed : ∀ {key cv}, map key = some cv → (store.values cv).use ≠ none

/-- Between the two states, only tables from `t` on and values from `low` on were used. -/
structure ConfStore.Beyond (store store' : ConfStore) (t low : Nat) : Prop where
  tables : ∀ i < t, store'.tables i = store.tables i
  values : ∀ cv < low, store'.values cv = store.values cv
  tableNum : store.tableNum ≤ store'.tableNum
  valueNum : store.valueNum ≤ store'.valueNum

section Beyond

variable {store store' store'' : ConfStore} {t t' low low' cv : Nat} {map : CStr → Option Nat}

theorem ConfStore.Beyond.refl (store : ConfStore) (t low : Nat) : store.Beyond store t low :=
  ⟨fun _ _ => rfl, fun _ _ => rfl, Nat.le_refl _, Nat.le_refl _⟩

theorem ConfStore.Beyond.trans (first : store.Beyond store' t low)
    (second : store'.Beyond store'' t low) : store.Beyond store'' t low where
  tables := fun i below => (second.tables i below).trans (first.tables i below)
  values := fun cv below => (second.values cv below).trans (first.values cv below)
  tableNum := Nat.le_trans first.tableNum second.tableNum
  valueNum := Nat.le_trans first.valueNum second.valueNum

theorem ConfStore.Beyond.mono (beyond : store.Beyond store' t' low') (tables : t ≤ t')
    (values : low ≤ low') : store.Beyond store' t low where
  tables := fun i below => beyond.tables i (Nat.lt_of_lt_of_le below tables)
  values := fun cv below => beyond.values cv (Nat.lt_of_lt_of_le below values)
  tableNum := beyond.tableNum
  valueNum := beyond.valueNum

theorem ConfStore.beyond_setTable (store : ConfStore) (t low : Nat) (ht : Option (Hash Nat)) :
    store.Beyond (store.setTable t ht) t low where
  tables := fun _ below => Function.update_of_ne (Nat.ne_of_lt below) ..
  values := fun _ _ => rfl
  tableNum := Nat.le_refl _
  valueNum := Nat.le_refl _

theorem ConfStore.beyond_setValue (store : ConfStore) (t : Nat) (own : low ≤ cv)
    (value : ConfValue) : store.Beyond (store.setValue cv value) t low where
  tables := fun _ _ => rfl
  values := fun _ below => Function.update_of_ne (Nat.ne_of_lt (Nat.lt_of_lt_of_le below own)) ..
  tableNum := Nat.le_refl _
  valueNum := Nat.le_refl _

theorem ConfStore.beyond_newValue (store : ConfStore) (t : Nat) (own : low ≤ store.valueNum) :
    store.Beyond store.newValue t low where
  tables := fun _ _ => rfl
  values := (store.beyond_setValue t own (.unset [])).values
  tableNum := Nat.le_refl _
  valueNum := Nat.le_succ _

/-- A table keeps its content while only others are used. -/
theorem ConfStore.Table.beyond (table : store.Table t low map)
    (beyond : store.Beyond store' t' low') (before : t < t') : store'.Table t low map where
  held := by
    rw [beyond.tables t before]
    exact table.held
  inside := Nat.lt_of_lt_of_le table.inside beyond.tableNum
  below := Nat.le_trans table.below beyond.valueNum
  values := fun mem =>
    ⟨(table.values mem).1, Nat.lt_of_lt_of_le (table.values mem).2 beyond.valueNum⟩
  apart := table.apart

theorem ConfStore.Table.setValue (table : store.Table t low map) (cv : Nat) (value : ConfValue) :
    (store.setValue cv value).Table t low map :=
  ⟨table.held, table.inside, table.below, table.values, table.apart⟩

/-- A new key is put into the table with a new value. -/
theorem ConfStore.Table.insert (table : store.Table t low map) {ht ht' : Hash Nat}
    {key : CStr} (held : store.tables t = some ht) (new : map key = none)
    (inserted : hashInsert ht key store.valueNum .succeed = some (0, ht')) :
    (store.newValue.setTable t (some ht')).Table t low
      (Function.update map key (some store.valueNum)) := by
  obtain ⟨ht₁, held₁, maps⟩ := table.held
  cases Option.some.inj (held.symm.trans held₁)
  obtain ⟨ht₂, inserted₂, maps₂, _⟩ := hashInsert_maps maps key store.valueNum
  cases (Prod.mk.inj (Option.some.inj (inserted.symm.trans inserted₂))).2
  have old : ∀ {key' cv}, map key' = some cv → cv < store.valueNum := fun mem =>
    (table.values mem).2
  constructor
  case held => exact ⟨ht', Function.update_self .., maps₂⟩
  case inside => exact table.inside
  case below => exact Nat.le_succ_of_le table.below
  case values =>
    intro key' cv mem
    change low ≤ cv ∧ cv < store.valueNum + 1
    by_cases same : key' = key
    · subst same
      rw [Function.update_self] at mem
      cases mem
      exact ⟨table.below, Nat.lt_succ_self _⟩
    · rw [Function.update_of_ne same] at mem
      exact ⟨(table.values mem).1, Nat.lt_succ_of_lt (old mem)⟩
  case apart =>
    intro key₁ key₂ cv mem₁ mem₂
    by_cases same₁ : key₁ = key
    · by_cases same₂ : key₂ = key
      · rw [same₁, same₂]
      · rw [same₁, Function.update_self] at mem₁
        rw [Function.update_of_ne same₂] at mem₂
        cases mem₁
        exact absurd (old mem₂) (Nat.lt_irrefl _)
    · by_cases same₂ : key₂ = key
      · rw [same₂, Function.update_self] at mem₂
        rw [Function.update_of_ne same₁] at mem₁
        cases mem₂
        exact absurd (old mem₁) (Nat.lt_irrefl _)
      · rw [Function.update_of_ne same₁] at mem₁
        rw [Function.update_of_ne same₂] at mem₂
        exact table.apart mem₁ mem₂

end Beyond

section Item

variable {store store' : ConfStore} {t low cv : Nat} {map map' : CStr → Option Nat}
  {key : CStr} {use : Use}

/-- The value of one key was filled in, and the others are as they were. -/
theorem ConfStore.Ready.put (ready : store.Ready t low map) (use : Use)
    (table : store'.Table t low map') (here : map' key = some cv)
    (others : ∀ key' ≠ key, map' key' = map key')
    (same : ∀ key' ≠ key, ∀ cv', map key' = some cv' → store'.values cv' = store.values cv')
    (used : (store'.values cv).use = some use) :
    store'.Ready t low map' ∧
      store'.scope map' = Function.update (store.scope map) key (some use) := by
  refine ⟨⟨table, fun {key' cv'} mem => ?_⟩, funext fun key' => ?_⟩
  · by_cases eq : key' = key
    · rw [eq, here] at mem
      cases mem
      rw [used]
      simp
    · rw [others key' eq] at mem
      rw [same key' eq cv' mem]
      exact ready.typed mem
  · unfold ConfStore.scope
    by_cases eq : key' = key
    · rw [eq, Function.update_self, here]
      exact used
    · rw [Function.update_of_ne eq, others key' eq]
      cases mem : map key' with
      | none => rfl
      | some cv' => exact congrArg ConfValue.use (same key' eq cv' mem)

/-- What the code finds under a key that was not used in the other way. -/
theorem ConfStore.Ready.found (ready : store.Ready t low map) {scope' : Scope CStr}
    (recorded : (store.scope map).record key use = some scope') :
    scope' = Function.update (store.scope map) key (some use) ∧
      (map key = none ∨ ∃ cv, map key = some cv ∧ (store.values cv).use = some use) := by
  obtain ⟨same, clean⟩ := Scope.record_eq_some recorded
  refine ⟨same, ?_⟩
  cases mem : map key with
  | none => exact Or.inl rfl
  | some cv =>
      refine Or.inr ⟨cv, rfl, ?_⟩
      cases typed : (store.values cv).use with
      | none => exact absurd typed (ready.typed mem)
      | some use' =>
          rw [clean use' (by simp [ConfStore.scope, mem, typed])]

/-- A key that is not in the table enters it with a new value. -/
theorem ConfStore.Ready.enter (ready : store.Ready t low map) {ht : Hash Nat}
    (held : store.tables t = some ht) (new : map key = none) :
    ∃ ht', hashInsert ht key store.valueNum .succeed = some (0, ht') ∧
      (store.newValue.setTable t (some ht')).Table t low
        (Function.update map key (some store.valueNum)) ∧
      store.Beyond (store.newValue.setTable t (some ht')) t low ∧
      ∀ cv < store.valueNum,
        (store.newValue.setTable t (some ht')).values cv = store.values cv := by
  obtain ⟨ht₁, held₁, maps⟩ := ready.table.held
  cases Option.some.inj (held.symm.trans held₁)
  obtain ⟨ht', inserted, _⟩ := hashInsert_maps maps key store.valueNum
  refine ⟨ht', inserted, ready.table.insert held new inserted, ?_, fun cv old => ?_⟩
  · exact (store.beyond_newValue t ready.table.below).trans (beyond_setTable ..)
  · exact values_setValue_ne _ (Nat.ne_of_lt old) _

variable {env : ConfEnv} {loop : ParseLoop} {f : ConfFrame} {fp : List UInt8}
  {value var : CStr} {scope' : Scope CStr}

/-- A key that was used in the other way. -/
theorem confItem_refused (ready : store.Ready f.conf low map)
    (use' : use = if value = [123] then .scope else .value)
    (refused : (store.scope map).record key use = none) :
    confItem env loop f fp store key value var = some (confError f.conf fp store) := by
  obtain ⟨ht, held, maps⟩ := ready.table.held
  obtain ⟨other, ne, found⟩ := Scope.record_eq_none.mp refused
  obtain ⟨cv, mem, typed⟩ := Option.bind_eq_some_iff.mp found
  unfold confItem
  simp only [held, hashGetVal_maps maps, mem]
  cases content : store.values cv with
  | unset blocks =>
      rw [content] at typed
      cases typed
  | entry values =>
      rw [content] at typed
      cases typed
      have opens : value = [123] := by
        by_contra no
        rw [if_neg no] at use'
        exact ne use'.symm
      simp only [opens, if_true]
  | block blocks =>
      rw [content] at typed
      cases typed
      have sets : value ≠ [123] := by
        intro yes
        rw [if_pos yes] at use'
        exact ne use'.symm
      simp only [sets, if_false]

/-- A key with a value goes into the table, and the loop goes on. -/
theorem confItem_sets (ready : store.Ready f.conf low map) (sets : value ≠ [123])
    (recorded : (store.scope map).record key .value = some scope') :
    ∃ store' map', confItem env loop f fp store key value var = loop f fp store' ∧
      store'.Ready f.conf low map' ∧ store'.scope map' = scope' ∧
      store.Beyond store' f.conf low := by
  obtain ⟨ht, held, maps⟩ := ready.table.held
  obtain ⟨rfl, found⟩ := ready.found recorded
  have below := ready.table.below
  unfold confItem
  rcases found with new | ⟨cv, mem, typed⟩
  · obtain ⟨ht', inserted, table, beyond, old⟩ := ready.enter held new
    simp only [held, hashGetVal_maps maps, new, inserted, ne_eq, not_true_eq_false, if_false, sets]
    obtain ⟨ready', same⟩ := ready.put .value
      (table.setValue store.valueNum (.entry [var])) (Function.update_self ..)
      (fun key' ne => Function.update_of_ne ne ..)
      (fun key' _ cv mem => by
        have before := (ready.table.values mem).2
        rw [values_setValue_ne _ (Nat.ne_of_lt before)]
        exact old cv before)
      (by rw [values_setValue]; rfl)
    exact ⟨_, _, rfl, ready', same, beyond.trans (beyond_setValue _ _ below _)⟩
  · simp only [held, hashGetVal_maps maps, mem]
    cases content : store.values cv with
    | unset blocks =>
        rw [content] at typed
        cases typed
    | block blocks =>
        rw [content] at typed
        cases typed
    | entry values =>
        simp only [sets, if_false]
        obtain ⟨ready', same⟩ := ready.put .value
          (ready.table.setValue cv (.entry (var :: values))) mem (fun _ _ => rfl)
          (fun key' ne cv' mem' => by
            have other : cv' ≠ cv := fun eq => ne (ready.table.apart (eq ▸ mem') mem)
            exact values_setValue_ne _ other _)
          (by rw [values_setValue]; rfl)
        exact ⟨_, _, rfl, ready', same, beyond_setValue _ _ (ready.table.values mem).1 _⟩

/-- A key with a block: the block is parsed, and its table is put under the key. -/
theorem confItem_opens (ready : store.Ready f.conf low map)
    (recorded : (store.scope map).record key .scope = some scope') :
    ∃ store₁ cv link map', confItem env loop f fp store key [123] var =
        confBlock env loop f fp store₁ cv link ∧
      f.conf < store₁.tableNum ∧
      ∀ store₂ i, store₁.Beyond store₂ store₁.tableNum store₁.valueNum →
        (store₂.setValue cv (link (store₂.values cv) i)).Ready f.conf low map' ∧
        (store₂.setValue cv (link (store₂.values cv) i)).scope map' = scope' ∧
        store.Beyond (store₂.setValue cv (link (store₂.values cv) i)) f.conf low := by
  obtain ⟨ht, held, maps⟩ := ready.table.held
  obtain ⟨rfl, found⟩ := ready.found recorded
  have below := ready.table.below
  have inside := ready.table.inside
  unfold confItem
  rcases found with new | ⟨cv, mem, typed⟩
  · obtain ⟨ht', inserted, table, beyond, old⟩ := ready.enter held new
    simp only [held, hashGetVal_maps maps, new, inserted, ne_eq, not_true_eq_false, if_false,
      if_true]
    refine ⟨_, _, _, Function.update map key (some store.valueNum), rfl, inside,
      fun store₂ i nested => ?_⟩
    have table₂ := table.beyond nested inside
    obtain ⟨ready', same⟩ := ready.put .scope
      (table₂.setValue store.valueNum (.block [i])) (Function.update_self ..)
      (fun key' ne => Function.update_of_ne ne ..)
      (fun key' _ cv mem => by
        have before := (ready.table.values mem).2
        rw [values_setValue_ne _ (Nat.ne_of_lt before),
          nested.values cv (Nat.lt_succ_of_lt before)]
        exact old cv before)
      (by rw [values_setValue]; rfl)
    refine ⟨ready', same, (beyond.trans ?_).trans (beyond_setValue _ _ below _)⟩
    exact nested.mono (Nat.le_of_lt inside) (Nat.le_succ_of_le below)
  · simp only [held, hashGetVal_maps maps, mem]
    cases content : store.values cv with
    | unset blocks =>
        rw [content] at typed
        cases typed
    | entry values =>
        rw [content] at typed
        cases typed
    | block blocks =>
        simp only [if_true]
        obtain ⟨own, old⟩ := ready.table.values mem
        refine ⟨_, _, _, map, rfl, inside, fun store₂ i nested => ?_⟩
        have pushed : ((store₂.values cv).push i).use = some .scope := by
          rw [nested.values cv old, content]
          rfl
        obtain ⟨ready', same⟩ := ready.put .scope
          ((ready.table.beyond nested inside).setValue cv _) mem (fun _ _ => rfl)
          (fun key' ne cv' mem' => by
            have other : cv' ≠ cv := fun eq => ne (ready.table.apart (eq ▸ mem') mem)
            rw [values_setValue_ne _ other]
            exact nested.values cv' (ready.table.values mem').2)
          (by rw [values_setValue, pushed])
        refine ⟨ready', same, ConfStore.Beyond.trans ?_ (beyond_setValue _ _ own _)⟩
        exact nested.mono (Nat.le_of_lt inside) below

end Item

/-! ## The start of a call -/

/-- What a new call of `conf_parse` starts with. -/
def ConfStore.frame (store : ConfStore) (env : ConfEnv) (t : Nat) (path : CStr) (block : Bool) :
    ConfFrame :=
  ⟨t, path, block, (List.range maxLine).map (env.buf store.calls),
    env.field store.calls⟩

/-- One more call. -/
def ConfStore.called (store : ConfStore) : ConfStore := { store with calls := store.calls + 1 }

/-- One more call, with a table of its own. -/
def ConfStore.opened (store : ConfStore) : Option ConfStore :=
  (hashCreate hashInitSlots true).map store.called.newTable

section Start

variable {env : ConfEnv} {loop : ParseLoop} {fp : List UInt8} {path : CStr} {block : Bool}
  {store store' : ConfStore} {out : ConfOut}

theorem ConfStore.opened_eq (store : ConfStore) :
    ∃ new : Hash Nat, store.opened = some (store.called.newTable new) ∧
      new.Maps fun _ => none := by
  obtain ⟨new, init, _, _, maps, _⟩ := hashInit_maps Nat (show hashInitSlots ≤ 2 ^ 31 by decide)
  refine ⟨new, ?_, maps⟩
  unfold ConfStore.opened hashCreate
  rw [init]
  rfl

/-- A call for a table that is there. -/
theorem confParse_file (env : ConfEnv) (loop : ParseLoop) (t : Nat) (path : CStr)
    (fp : List UInt8) (block : Bool) (store : ConfStore) :
    confParse env loop (some t) path fp block store =
      (loop (store.frame env t path block) fp store.called).map (t, ·) :=
  rfl

/-- A call for a table of its own. -/
theorem confParse_opened (opened : store.opened = some store') :
    confParse env loop none path fp block store =
      (loop (store.frame env store.tableNum path block) fp store').map (store.tableNum, ·) := by
  obtain ⟨new, created, rfl⟩ := Option.map_eq_some_iff.mp opened
  unfold confParse
  simp only [created]
  rfl

/-- Every call is a run of the loop. -/
theorem confParse_ran {ht : Option Nat} {t : Nat}
    (called : confParse env loop ht path fp block store = some (t, out)) :
    ∃ store', loop (store.frame env t path block) fp store' = some out ∧
      (store' = store.called ∨ store.opened = some store') := by
  cases ht with
  | some conf =>
      obtain ⟨out', ran, same⟩ := Option.map_eq_some_iff.mp called
      cases same
      exact ⟨_, ran, Or.inl rfl⟩
  | none =>
      obtain ⟨new, opened, _⟩ := store.opened_eq
      rw [confParse_opened opened] at called
      obtain ⟨out', ran, same⟩ := Option.map_eq_some_iff.mp called
      cases same
      exact ⟨_, ran, Or.inr opened⟩

end Start

end Verben
