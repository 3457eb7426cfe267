import Verben.Hash.Map

/-!
# Failed allocations

`hash_insert` allocates twice: a larger bucket array when the table is full, and an entry when
the key is new. A failed entry leaves the table with the map that it had. A failed array does
not: `hash_resize` has put the old one aside by then, `hash_init` has doubled the slots and
reset the count, and the table is left without an array (`Hash.Torn`).
-/

namespace Verben

open Buckets Transition

section Insert

variable {V : Type} {ht ht' : Hash V} {map : CStr → Option V}

/-- The table has reached the load at which `hash_insert` doubles its slots. -/
def Hash.Full (ht : Hash V) : Prop := ht.slots ≠ 0 ∧ hashResizeRatio ≤ ht.count / ht.slots

/-- An allocation that `hash_insert` makes fails. -/
def Hash.AllocFails (ht : Hash V) (key : CStr) (alloc : InsertAlloc) : Prop :=
  (ht.Full ∧ alloc.data = false) ∨
    ((ht.Full → alloc.data = true) ∧ hashGetVal ht key = some none ∧ alloc.entry = false)

/-- The table stands for the map, and counts its entries. -/
structure Hash.Denotes (ht : Hash V) (map : CStr → Option V) : Prop where
  maps : ht.Maps map
  tallied : ht.Tallied

/-- The bucket array is lost. -/
structure Hash.Torn (ht : Hash V) : Prop where
  slots : ht.slots ≠ 0
  data : ht.data = none
  count : ht.count = 0

theorem Hash.Torn.hashGetVal (torn : ht.Torn) (key : CStr) : hashGetVal ht key = none := by
  unfold Verben.hashGetVal
  rw [torn.data]
  cases ht.index key <;> rfl

theorem Hash.Torn.grow (torn : ht.Torn) (alloc : Bool) :
    ht.grow alloc = some (0, ht) := by
  have load : ¬ hashResizeRatio ≤ ht.count / ht.slots := by
    rw [torn.count, Nat.zero_div]
    decide
  unfold Hash.grow
  rw [if_neg torn.slots, if_neg load]

theorem Hash.Torn.not_full (torn : ht.Torn) : ¬ ht.Full := by
  rintro ⟨_, load⟩
  rw [torn.count, Nat.zero_div] at load
  exact absurd load (by decide)

/-! ## The allocations one by one -/

/-- The new array cannot be allocated. -/
theorem hashInsert_torn (maps : ht.Maps map) (full : ht.Full) (key : CStr) (val : V)
    {alloc : InsertAlloc} (failed : alloc.data = false) :
    ∃ torn, hashInsert ht key val alloc = some (-1, torn) ∧ torn.Torn := by
  -- the number of slots is set as if the array were there
  obtain ⟨new, init, slots, _, empty, _⟩ := hashInit_maps V (resize_slots maps).1
  have same : new.slots = nextPower (ht.slots * 2 % 2 ^ 32) % 2 ^ 32 :=
    congrArg (fun result : Int × Hash V => result.2.slots) init.symm
  refine ⟨{ slots := nextPower (ht.slots * 2 % 2 ^ 32) % 2 ^ 32, count := 0, data := none },
    ?_, ?_, rfl, rfl⟩
  · unfold hashInsert Hash.grow hashResize hashInit
    rw [failed, if_neg full.1, if_pos full.2]
    rfl
  · rw [← same]
    exact Nat.ne_of_gt empty.slots_pos

theorem grow_of_alloc {alloc : Bool} (fine : ht.Full → alloc = true) :
    ht.grow alloc = ht.grow true := by
  unfold Hash.grow
  split
  · rfl
  · next slots =>
      split
      · next load => rw [fine ⟨slots, load⟩]
      · rfl

/-- The new entry cannot be allocated. -/
theorem hashInsert_noEntry (denotes : ht.Denotes map) {key : CStr} (absent : map key = none)
    (val : V) {alloc : InsertAlloc} (fine : ht.Full → alloc.data = true)
    (failed : alloc.entry = false) :
    ∃ ht', hashInsert ht key val alloc = some (-1, ht') ∧ ht'.Denotes map := by
  obtain ⟨ht₁, grown, maps, tallied, _⟩ := grow_maps denotes.maps
  obtain ⟨data, same, stores⟩ := maps.stored
  have missing : replace key val (data (bucket ht₁.slots key)) = none := by
    rw [replace_eq_none, stores.find_eq, absent]
  refine ⟨ht₁, ?_, maps, tallied denotes.tallied⟩
  unfold hashInsert
  simp only [grow_of_alloc fine, grown, maps.index key, same, missing, failed,
    Option.bind_eq_bind, Option.bind_some, ne_eq, not_true_eq_false, if_false, Bool.false_eq_true]

/-- No allocation fails. -/
theorem hashInsert_denotes (denotes : ht.Denotes map) (key : CStr) (val : V)
    {alloc : InsertAlloc} (fine : ht.Full → alloc.data = true)
    (fine' : map key = none → alloc.entry = true) :
    ∃ ht', hashInsert ht key val alloc = some (0, ht') ∧
      ht'.Denotes (Function.update map key (some val)) := by
  obtain ⟨ht', inserted, maps', tallied', _⟩ := hashInsert_maps denotes.maps key val
  refine ⟨ht', ?_, maps', tallied' denotes.tallied⟩
  rw [← inserted]
  obtain ⟨ht₁, grown, maps, _⟩ := grow_maps denotes.maps
  obtain ⟨data, same, stores⟩ := maps.stored
  unfold hashInsert InsertAlloc.succeed
  simp only [grow_of_alloc fine, grown, maps.index key, same, Option.bind_eq_bind,
    Option.bind_some, ne_eq, not_true_eq_false, if_false]
  cases found : replace key val (data (bucket ht₁.slots key)) with
  | some chain => rfl
  | none =>
      have absent : map key = none := by rw [← stores.find_eq, ← replace_eq_none, found]
      simp only [fine' absent, if_true]

/-- **What `hash_insert` leaves behind**: a table without an array, or one that stands for a
map. -/
theorem hashInsert_cases (denotes : ht.Denotes map) (key : CStr) (val : V) (alloc : InsertAlloc) :
    ∃ ret ht', hashInsert ht key val alloc = some (ret, ht') ∧
      (ht'.Torn ∧ ret ≠ 0 ∨ ∃ map', ht'.Denotes map') := by
  by_cases torn : ht.Full ∧ alloc.data = false
  · obtain ⟨ht', inserted, lost⟩ := hashInsert_torn denotes.maps torn.1 key val torn.2
    exact ⟨-1, ht', inserted, Or.inl ⟨lost, by decide⟩⟩
  · have fine : ht.Full → alloc.data = true := by
      intro full
      by_contra failed
      exact torn ⟨full, Bool.eq_false_iff.mpr failed⟩
    by_cases failed : map key = none ∧ alloc.entry = false
    · obtain ⟨ht', inserted, denotes'⟩ := hashInsert_noEntry denotes failed.1 val fine failed.2
      exact ⟨-1, ht', inserted, Or.inr ⟨map, denotes'⟩⟩
    · have fine' : map key = none → alloc.entry = true := by
        intro absent
        by_contra none'
        exact failed ⟨absent, Bool.eq_false_iff.mpr none'⟩
      obtain ⟨ht', inserted, denotes'⟩ := hashInsert_denotes denotes key val fine fine'
      exact ⟨0, ht', inserted, Or.inr ⟨_, denotes'⟩⟩

/-! ## Every operation -/

/-- A walk goes on as long as the property holds, and may end in a state of another kind. -/
theorem foreachChain_keeps {S : Type} (foreach : HashEntry V → S → Option (Int × S))
    {P Q : S → Prop} (weaker : ∀ s, P s → Q s)
    (keeps : ∀ he s, P s → ∃ ret s', foreach he s = some (ret, s') ∧ Q s' ∧ (ret = 0 → P s'))
    (chain : List (HashEntry V)) {s : S} (first : P s) :
    ∃ ret s', foreachChain foreach chain s = some (ret, s') ∧ Q s' := by
  induction chain generalizing s with
  | nil => exact ⟨0, s, rfl, weaker s first⟩
  | cons he next ih =>
      obtain ⟨ret, s₁, called, after, again⟩ := keeps he s first
      simp only [foreachChain, called, Option.bind_eq_bind, Option.bind_some]
      by_cases failed : ret = 0
      · rw [if_neg (not_not.mpr failed)]
        exact ih (again failed)
      · rw [if_pos failed]
        exact ⟨-1, s₁, rfl, after⟩

theorem hashDup_cases (denotes : ht.Denotes map) (create : Bool) (alloc : CStr → InsertAlloc) :
    hashDup ht create alloc = some none ∨
      ∃ copy, hashDup ht create alloc = some (some copy) ∧
        (copy.Torn ∨ ∃ map', copy.Denotes map') := by
  cases create with
  | false => exact Or.inl rfl
  | true =>
      obtain ⟨data, same, _⟩ := denotes.maps.stored
      obtain ⟨new, init, _, _, empty, _, tallied⟩ := hashInit_maps V denotes.maps.slots_le
      have start : ∃ map', new.Denotes map' := ⟨_, empty, tallied⟩
      obtain ⟨ret, copy, walked, state⟩ :=
        foreachChain_keeps (hashDupForeach alloc) (P := fun c => ∃ map', c.Denotes map')
          (Q := fun c => c.Torn ∨ ∃ map', c.Denotes map') (fun _ => Or.inr)
          (by
            rintro he copy ⟨map', denotes'⟩
            obtain ⟨ret, copy', inserted, outcome⟩ :=
              hashInsert_cases denotes' he.1 he.2 (alloc he.1)
            simp only [hashDupForeach, inserted, Option.bind_eq_bind, Option.bind_some]
            refine ⟨_, copy', rfl, outcome.imp_left And.left, fun fine => ?_⟩
            rcases outcome with ⟨_, failed⟩ | denotes''
            · rw [if_pos failed] at fine
              cases fine
            · exact denotes'')
          (entries ht.slots data) start
      refine Or.inr ⟨copy, ?_, state⟩
      unfold hashDup hashCreate
      simp only [init, hashForeach_entries _ same, walked, Option.bind_eq_bind, Option.bind_some]

end Insert

/-- The calls, with their allocations. A copy is used in place of the table from then on. -/
inductive AllocOp (V : Type) : Type
  | insert (key : CStr) (val : V) (alloc : InsertAlloc)
  | delete (key : CStr)
  | getVal (key : CStr)
  | dup (create : Bool) (alloc : CStr → InsertAlloc)
  | clear

def Hash.step {V : Type} (ht : Hash V) : AllocOp V → Option (Hash V)
  | .insert key val alloc => do
      let (_, ht) ← hashInsert ht key val alloc
      some ht
  | .delete key => do
      let (_, ht) ← hashDelete ht key
      some ht
  | .getVal key => do
      let _ ← hashGetVal ht key
      some ht
  | .dup create alloc => do
      let copy ← hashDup ht create alloc
      some (copy.getD ht)
  | .clear => do
      let (_, ht) ← hashClear ht
      some ht

/-- The table can be used: its entries are in their buckets, each key once, they are counted,
and every call returns. -/
structure Hash.Valid {V : Type} (ht : Hash V) : Prop where
  kept : ∃ data, ht.data = some data ∧ ((entries ht.slots data).map Prod.fst).Nodup ∧
    (∀ i < ht.slots, ∀ he ∈ data i, (hashFunc he.1).toNat % ht.slots = i) ∧
    ht.count = (entries ht.slots data).length % 2 ^ 32
  later : ∀ op, ∃ ht', ht.step op = some ht'

/-- What a run may come to: a table with too many slots to count them, one without an array, or
one that stands for a map. -/
def Hash.Sound {V : Type} (ht : Hash V) : Prop :=
  ht.slots = 0 ∨ ht.Torn ∨ ∃ map, ht.Denotes map

section Runs

variable {V : Type} {ht ht' : Hash V} {map : CStr → Option V}

/-- A table that stands for a map returns from every call. -/
theorem Hash.Denotes.step (denotes : ht.Denotes map) (op : AllocOp V) :
    ∃ ht', ht.step op = some ht' ∧ ht'.Sound := by
  cases op with
  | insert key val alloc =>
      obtain ⟨ret, ht', inserted, outcome⟩ := hashInsert_cases denotes key val alloc
      refine ⟨ht', ?_, Or.inr (outcome.imp_left And.left)⟩
      simp only [Hash.step, inserted, Option.bind_eq_bind, Option.bind_some]
  | delete key =>
      obtain ⟨ht', deleted, maps', kept⟩ := hashDelete_maps denotes.maps key
      refine ⟨ht', ?_, Or.inr (Or.inr ⟨_, maps', kept.tallied denotes.tallied⟩)⟩
      simp only [Hash.step, deleted, Option.bind_eq_bind, Option.bind_some]
  | getVal key =>
      refine ⟨ht, ?_, Or.inr (Or.inr ⟨map, denotes⟩)⟩
      simp only [Hash.step, hashGetVal_maps denotes.maps, Option.bind_eq_bind, Option.bind_some]
  | dup create alloc =>
      rcases hashDup_cases denotes create alloc with null | ⟨copy, copied, state⟩
      · refine ⟨ht, ?_, Or.inr (Or.inr ⟨map, denotes⟩)⟩
        simp only [Hash.step, null, Option.bind_eq_bind, Option.bind_some, Option.getD_none]
      · refine ⟨copy, ?_, Or.inr state⟩
        simp only [Hash.step, copied, Option.bind_eq_bind, Option.bind_some, Option.getD_some]
  | clear =>
      obtain ⟨ht', cleared, maps', kept⟩ := hashClear_maps denotes.maps
      refine ⟨ht', ?_, Or.inr (Or.inr ⟨_, maps', kept.tallied denotes.tallied⟩)⟩
      simp only [Hash.step, cleared, Option.bind_eq_bind, Option.bind_some]

theorem Hash.Denotes.valid (denotes : ht.Denotes map) : ht.Valid := by
  obtain ⟨data, same, stores⟩ := denotes.maps.stored
  refine ⟨⟨data, same, stores.unique, stores.placed, denotes.tallied same⟩, fun op => ?_⟩
  obtain ⟨ht', stepped, _⟩ := denotes.step op
  exact ⟨ht', stepped⟩

/-- A walk over a table without an array does not return. -/
theorem Hash.Torn.walk {S : Type} (table : S → Hash V) {s : S} (torn : (table s).Torn)
    (foreach : HashEntry V → S → Option (Int × S)) : hashForeach table foreach s = none := by
  unfold hashForeach
  obtain ⟨n, slots⟩ := Nat.exists_eq_succ_of_ne_zero torn.slots
  rw [slots, List.range_succ_eq_map]
  simp only [foreachBuckets, torn.data, Option.bind_eq_bind, Option.bind_none]

/-- A table without an array returns from no call that uses it. -/
theorem Hash.Torn.step (torn : ht.Torn) {op : AllocOp V} (stepped : ht.step op = some ht') :
    ht' = ht := by
  cases op with
  | insert key val alloc =>
      have none' : hashInsert ht key val alloc = none := by
        unfold hashInsert
        simp only [torn.grow, torn.data, Option.bind_eq_bind, Option.bind_some, Option.bind_none,
          ne_eq, not_true_eq_false, if_false, Option.bind_fun_none]
      simp only [Hash.step, none', Option.bind_eq_bind, Option.bind_none] at stepped
      cases stepped
  | delete key =>
      have none' : hashDelete ht key = none := by
        unfold hashDelete
        simp only [torn.data, Option.bind_eq_bind, Option.bind_none, Option.bind_fun_none]
      simp only [Hash.step, none', Option.bind_eq_bind, Option.bind_none] at stepped
      cases stepped
  | getVal key =>
      simp only [Hash.step, torn.hashGetVal, Option.bind_eq_bind, Option.bind_none] at stepped
      cases stepped
  | dup create alloc =>
      obtain ⟨copy, copied, rest⟩ := Option.bind_eq_some_iff.mp stepped
      cases rest
      unfold hashDup at copied
      cases created : hashCreate (V := V) ht.slots create with
      | none =>
          rw [created] at copied
          cases copied
          rfl
      | some new =>
          have none' := Hash.Torn.walk (fun _ => ht) (s := new) torn (hashDupForeach alloc)
          rw [created] at copied
          simp only [none', Option.bind_eq_bind, Option.bind_none] at copied
          cases copied
  | clear =>
      have none' : hashClear ht = none := Hash.Torn.walk id torn _
      simp only [Hash.step, none', Option.bind_eq_bind, Option.bind_none] at stepped
      cases stepped

theorem hashForeach_noSlots {S : Type} (table : S → Hash V) {s : S}
    (slots : (table s).slots = 0) (foreach : HashEntry V → S → Option (Int × S)) :
    hashForeach table foreach s = some (0, s) := by
  unfold hashForeach
  rw [slots]
  rfl

/-- Without slots every look into the table divides by zero. Only a copy has some. -/
theorem Hash.step_of_noSlots (slots : ht.slots = 0) {op : AllocOp V}
    (stepped : ht.step op = some ht') : ht'.Sound := by
  have index : ∀ key, ht.index key = none := fun key => if_pos slots
  cases op with
  | insert key val alloc =>
      have stuck : ht.grow alloc.data = none := if_pos slots
      have none' : hashInsert ht key val alloc = none := by
        unfold hashInsert
        rw [stuck]
        rfl
      simp only [Hash.step, none', Option.bind_eq_bind, Option.bind_none] at stepped
      cases stepped
  | delete key =>
      have none' : hashDelete ht key = none := by
        unfold hashDelete
        rw [index]
        rfl
      simp only [Hash.step, none', Option.bind_eq_bind, Option.bind_none] at stepped
      cases stepped
  | getVal key =>
      have none' : hashGetVal ht key = none := by
        unfold hashGetVal
        rw [index]
        rfl
      simp only [Hash.step, none', Option.bind_eq_bind, Option.bind_none] at stepped
      cases stepped
  | dup create alloc =>
      obtain ⟨copy, copied, rest⟩ := Option.bind_eq_some_iff.mp stepped
      cases rest
      cases create with
      | false =>
          cases copied
          exact Or.inl slots
      | true =>
          obtain ⟨new, init, _, _, empty, _, tallied⟩ := hashInit_maps V (Nat.zero_le (2 ^ 31))
          have walked := hashForeach_noSlots (fun _ => ht) (s := new) slots
            (hashDupForeach alloc)
          unfold hashDup hashCreate at copied
          simp only [slots, init, walked, Option.bind_eq_bind, Option.bind_some] at copied
          cases copied
          exact Or.inr (Or.inr ⟨_, empty, tallied⟩)
  | clear =>
      have cleared : hashClear ht = some (0, ht) := hashForeach_noSlots id slots _
      simp only [Hash.step, cleared, Option.bind_eq_bind, Option.bind_some] at stepped
      cases stepped
      exact Or.inl slots

theorem Hash.Sound.step (sound : ht.Sound) {op : AllocOp V} (stepped : ht.step op = some ht') :
    ht'.Sound := by
  rcases sound with slots | torn | ⟨map, denotes⟩
  · exact Hash.step_of_noSlots slots stepped
  · rw [torn.step stepped]
    exact Or.inr (Or.inl torn)
  · obtain ⟨ht₁, stepped₁, sound₁⟩ := denotes.step op
    cases Option.some.inj (stepped₁.symm.trans stepped)
    exact sound₁

/-- More than `2 ^ 31` slots are rounded up to `2 ^ 32`, which is 0 as an `unsigned int`. -/
theorem hashCreate_sound {slots : UInt32} (created : hashCreate slots.toNat true = some ht) :
    ht.Sound := by
  unfold hashCreate at created
  by_cases small : slots.toNat ≤ 2 ^ 31
  · obtain ⟨new, init, _, _, empty, _, tallied⟩ := hashInit_maps V small
    rw [init] at created
    cases created
    exact Or.inr (Or.inr ⟨_, empty, tallied⟩)
  · have word : slots.toNat < 2 ^ 32 := slots.toNat_lt
    have inRange : ¬ longMax ≤ slots.toNat := by
      unfold longMax
      omega
    obtain ⟨k, _, same, bound, least⟩ :=
      nextPowerLoop_spec 60 4 (Nat.le_trans (Nat.le_of_lt word)
        (Nat.pow_le_pow_right Nat.two_pos (by decide)))
    have low : 31 < k :=
      (Nat.pow_lt_pow_iff_right (by decide)).mp
        (Nat.lt_of_lt_of_le (Nat.lt_of_not_le small) bound)
    have high : k ≤ 32 := by
      rcases least with rfl | least
      · decide
      · have := (Nat.pow_lt_pow_iff_right (by decide)).mp (Nat.lt_trans least word)
        omega
    have power : nextPower slots.toNat = 2 ^ 32 := by
      unfold nextPower
      rw [if_neg inRange, ← Nat.le_antisymm high low]
      exact same
    cases created
    exact Or.inl ((congrArg (· % 2 ^ 32) power).trans (Nat.mod_self _))

end Runs

/-- **When a failed allocation leaves the table as it was**: that `hash_insert` returns -1 and
keeps the count, every lookup and a table that can be used, where an allocation in it fails,
holds if and only if it is not the array of a full table that cannot be allocated. -/
theorem insert_fails_cleanly_iff {V : Type} {slots : UInt32} {ht₀ ht : Hash V}
    (created : hashCreate slots.toNat true = some ht₀) (reach : Reach Hash.step always ht₀ ht)
    (key : CStr) (val : V) (alloc : InsertAlloc) :
    (ht.AllocFails key alloc →
        ∃ ht', hashInsert ht key val alloc = some (-1, ht') ∧ ht'.count = ht.count ∧
          (∀ key', hashGetVal ht' key' = hashGetVal ht key') ∧ ht'.Valid) ↔
      ¬ (ht.Full ∧ alloc.data = false) := by
  have sound : ht.Sound := reach.invariant (hashCreate_sound created) fun sound _ stepped =>
    sound.step stepped
  constructor
  · rintro clean ⟨full, failed⟩
    obtain ⟨ht', inserted, _, _, valid⟩ := clean (Or.inl ⟨full, failed⟩)
    rcases sound with slots | torn | ⟨map, denotes⟩
    · exact full.1 slots
    · exact torn.not_full full
    · obtain ⟨lost, inserted', torn⟩ := hashInsert_torn denotes.maps full key val failed
      cases Option.some.inj (inserted.symm.trans inserted')
      obtain ⟨data, same, _⟩ := valid.kept
      cases torn.data.symm.trans same
  · rintro fine (torn | ⟨grows, absent, failed⟩)
    · exact absurd torn fine
    · rcases sound with slots | torn | ⟨map, denotes⟩
      · have index : ht.index key = none := if_pos slots
        unfold hashGetVal at absent
        rw [index] at absent
        cases absent
      · cases (torn.hashGetVal key).symm.trans absent
      · have lookup := hashGetVal_maps denotes.maps
        have new : map key = none := Option.some.inj ((lookup key).symm.trans absent)
        obtain ⟨ht', inserted, denotes'⟩ := hashInsert_noEntry denotes new val grows failed
        have count :=
          Hash.Tallied.count_eq denotes.tallied denotes.maps denotes'.tallied denotes'.maps
        refine ⟨ht', inserted, count, fun key' => ?_, denotes'.valid⟩
        rw [lookup, hashGetVal_maps denotes'.maps]

/-- Sixteen keys fill a new table. -/
def sixteen : List (AllocOp Nat) :=
  (List.range 16).map fun n => .insert [UInt8.ofNat (n + 1)] n .succeed

/-- The seventeenth key, and memory for a larger array but none for the entry. -/
theorem insert_fails_cleanly_iff_sixteen :
    ∃ ht, Reach Hash.step always (hashInit 16 true).2 ht ∧ ht.count = 16 ∧ ht.Full ∧
      ∃ ht', hashInsert ht [97] 1 ⟨true, false⟩ = some (-1, ht') ∧ ht'.count = ht.count ∧
        (∀ key', hashGetVal ht' key' = hashGetVal ht key') ∧ ht'.Valid := by
  have ran : (run Hash.step (hashInit 16 true).2 sixteen).map (fun ht =>
      (ht.slots, ht.count, hashGetVal ht [97])) = some (16, 16, some none) := by decide +kernel
  obtain ⟨ht, same, state⟩ := Option.map_eq_some_iff.mp ran
  simp only [Prod.mk.injEq] at state
  obtain ⟨slots, count, absent⟩ := state
  have full : ht.Full := by
    unfold Hash.Full
    rw [slots, count]
    decide
  have reach : Reach Hash.step always (hashInit 16 true).2 ht := reach_of_run same
  have created : hashCreate (16 : UInt32).toNat true = some ((hashInit 16 true).2 : Hash Nat) := rfl
  exact ⟨ht, reach, count, full, (insert_fails_cleanly_iff created reach [97] 1 ⟨true, false⟩).mpr
    (fun torn => nomatch torn.2) (.inr ⟨fun _ => rfl, absent, rfl⟩)⟩

/-- The seventeenth key, and no memory for a larger array. -/
theorem insert_tears_table :
    ∃ ht, Reach Hash.step always (hashInit 16 true).2 ht ∧ ht.AllocFails [97] ⟨false, true⟩ ∧
      ¬ ∃ ht', hashInsert ht [97] 1 ⟨false, true⟩ = some (-1, ht') ∧ ht'.count = ht.count ∧
          (∀ key', hashGetVal ht' key' = hashGetVal ht key') ∧ ht'.Valid := by
  have ran : (run Hash.step (hashInit 16 true).2 sixteen).map (fun ht => (ht.slots, ht.count)) =
      some (16, 16) := by decide +kernel
  obtain ⟨ht, same, state⟩ := Option.map_eq_some_iff.mp ran
  obtain ⟨slots, count⟩ := Prod.mk.inj state
  have full : ht.Full := by
    unfold Hash.Full
    rw [slots, count]
    decide
  refine ⟨ht, reach_of_run same, Or.inl ⟨full, rfl⟩, ?_⟩
  rintro ⟨ht', inserted, kept, _⟩
  have lost : ht'.count = 0 := by
    unfold hashInsert Hash.grow at inserted
    rw [if_neg full.1, if_pos full.2] at inserted
    cases inserted
    rfl
  rw [lost, count] at kept
  cases kept

end Verben
