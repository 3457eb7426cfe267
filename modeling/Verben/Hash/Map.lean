import Verben.Hash.Model
import Verben.Lib.Transition

/-!
# The table is a finite map

`Hash.Maps` relates a table to the map from keys to values that it stands for. Each function
of `hash.c` keeps it, for the map that the function is meant to produce. A table that is
cleared is changed while its chains are walked: at every call the rest of the walk is what
is left of the bucket (`foreachChain_clear`).
-/

namespace Verben

open Buckets Transition

/-- The bucket of a key. -/
def bucket (slots : Nat) (key : CStr) : Nat := (hashFunc key).toNat % slots

/-- The table stands for the map. -/
structure Hash.Maps {V : Type} (ht : Hash V) (map : CStr → Option V) : Prop where
  slots : ∃ j, 4 ≤ j ∧ j ≤ 31 ∧ ht.slots = 2 ^ j
  stored : ∃ data, ht.data = some data ∧ Stores (bucket ht.slots) ht.slots data map

/-- The table counts its entries, and has a slot for each. -/
structure Hash.Counted {V : Type} (ht : Hash V) : Prop where
  count : ∀ {data}, ht.data = some data → ht.count = (entries ht.slots data).length
  full : ht.count ≤ ht.slots

/-- The count of a table that may have more entries than an `unsigned int` counts. -/
def Hash.Tallied {V : Type} (ht : Hash V) : Prop :=
  ∀ {data}, ht.data = some data → ht.count = (entries ht.slots data).length % 2 ^ 32

/-- The second table counts its entries as the first does. -/
structure Hash.CountKept {V : Type} (ht ht' : Hash V) : Prop where
  counted : ht.Counted → ht'.Counted
  tallied : ht.Tallied → ht'.Tallied

theorem Hash.CountKept.refl {V : Type} (ht : Hash V) : ht.CountKept ht := ⟨id, fun same => same⟩

theorem Hash.CountKept.trans {V : Type} {ht ht' ht'' : Hash V} (first : ht.CountKept ht')
    (second : ht'.CountKept ht'') : ht.CountKept ht'' :=
  ⟨second.counted ∘ first.counted, fun tallied => second.tallied (first.tallied tallied)⟩

/-! ## The number of slots -/

theorem nextPowerLoop_spec {size : Nat} (rounds j : Nat) (enough : size ≤ 2 ^ (j + rounds)) :
    ∃ k, j ≤ k ∧ nextPowerLoop size rounds (2 ^ j) = 2 ^ k ∧ size ≤ 2 ^ k ∧
      (k = j ∨ 2 ^ (k - 1) < size) := by
  induction rounds generalizing j with
  | zero => exact ⟨j, Nat.le_refl j, rfl, enough, Or.inl rfl⟩
  | succ rounds ih =>
      unfold nextPowerLoop
      split
      · next reached => exact ⟨j, Nat.le_refl j, rfl, reached, Or.inl rfl⟩
      · next below =>
          rw [← Nat.pow_succ]
          obtain ⟨k, more, same, bound, least⟩ := ih (j + 1) (by rwa [Nat.add_right_comm])
          refine ⟨k, by omega, same, bound, Or.inr ?_⟩
          rcases least with rfl | least
          · exact Nat.lt_of_not_le below
          · exact least

/-- A power of two from the first number of slots on, and not too large. -/
theorem nextPower_spec {size : Nat} (small : size ≤ 2 ^ 31) :
    ∃ k, 4 ≤ k ∧ k ≤ 31 ∧ nextPower size = 2 ^ k ∧ size ≤ 2 ^ k ∧
      (k = 4 ∨ 2 ^ (k - 1) < size) := by
  have inRange : ¬ longMax ≤ size := by
    unfold longMax
    omega
  obtain ⟨k, low, same, bound, least⟩ :=
    nextPowerLoop_spec 60 4 (Nat.le_trans small (Nat.pow_le_pow_right Nat.two_pos (by decide)))
  refine ⟨k, low, ?_, ?_, bound, least⟩
  · rcases least with rfl | least
    · decide
    · have below := Nat.lt_of_lt_of_le least small
      have := (Nat.pow_lt_pow_iff_right (by decide)).mp below
      omega
  · unfold nextPower
    rw [if_neg inRange]
    exact same

theorem nextPower_pow {j : Nat} (low : 4 ≤ j) (high : j ≤ 31) : nextPower (2 ^ j) = 2 ^ j := by
  obtain ⟨k, _, _, same, bound, least⟩ :=
    nextPower_spec (Nat.pow_le_pow_right Nat.two_pos high)
  have above := (Nat.pow_le_pow_iff_right (by decide)).mp bound
  have below : k ≤ j := by
    rcases least with rfl | least
    · exact low
    · have := (Nat.pow_lt_pow_iff_right (by decide)).mp least
      omega
  rw [same, Nat.le_antisymm below above]

section Table

variable {V : Type} {ht : Hash V} {map : CStr → Option V}

theorem hashInit_maps (V : Type) {slots : Nat} (small : slots ≤ 2 ^ 31) :
    ∃ ht : Hash V, hashInit slots true = (0, ht) ∧ ht.slots = nextPower slots ∧ ht.count = 0 ∧
      ht.Maps (fun _ => none) ∧ ht.Counted ∧ ht.Tallied := by
  obtain ⟨k, low, high, same, _⟩ := nextPower_spec small
  have fits : nextPower slots % 2 ^ 32 = 2 ^ k := by
    rw [same]
    exact Nat.mod_eq_of_lt (Nat.pow_lt_pow_right (by decide) (by omega))
  refine ⟨_, rfl, fits.trans same.symm, rfl, ⟨⟨k, low, high, fits⟩, ?_⟩, ⟨?_, Nat.zero_le _⟩, ?_⟩
  · refine ⟨fun _ => [], rfl, stores_nil fun key => ?_⟩
    apply Nat.mod_lt
    rw [fits]
    exact Nat.two_pow_pos k
  · intro data same'
    cases same'
    simp [entries]
  · intro data same'
    cases same'
    simp [entries]

/-- Two tables with the same map have the same count. -/
theorem Hash.Tallied.count_eq {ht' : Hash V} (tallied : ht.Tallied) (maps : ht.Maps map)
    (tallied' : ht'.Tallied) (maps' : ht'.Maps map) : ht'.count = ht.count := by
  obtain ⟨data, same, stores⟩ := maps.stored
  obtain ⟨data', same', stores'⟩ := maps'.stored
  rw [tallied same, tallied' same', (stores.perm stores').length_eq]

theorem Hash.Maps.slots_pos (maps : ht.Maps map) : 0 < ht.slots := by
  obtain ⟨j, _, _, same⟩ := maps.slots
  rw [same]
  exact Nat.two_pow_pos j

theorem Hash.Maps.slots_le (maps : ht.Maps map) : ht.slots ≤ 2 ^ 31 := by
  obtain ⟨j, _, high, same⟩ := maps.slots
  rw [same]
  exact Nat.pow_le_pow_right Nat.two_pos high

theorem Hash.Maps.index (maps : ht.Maps map) (key : CStr) :
    ht.index key = some (bucket ht.slots key) :=
  if_neg (Nat.ne_of_gt maps.slots_pos)

/-! ## Lookups -/

theorem hashGetVal_maps (maps : ht.Maps map) (key : CStr) :
    hashGetVal ht key = some (map key) := by
  obtain ⟨data, same, stores⟩ := maps.stored
  unfold hashGetVal
  rw [maps.index, same]
  exact congrArg some (stores.find_eq key)

/-! ## `hash_resize` -/

theorem link_eq {data : Nat → List (HashEntry V)} (slots : 0 < ht.slots)
    (same : ht.data = some data) (he : HashEntry V) :
    ∃ ht', ht.link he = some ht' ∧ ht'.slots = ht.slots ∧
      ht'.data = some (Function.update data (bucket ht.slots he.1)
        (he :: data (bucket ht.slots he.1))) ∧ ht'.count = (ht.count + 1) % 2 ^ 32 := by
  have index : ht.index he.1 = some (bucket ht.slots he.1) := if_neg (Nat.ne_of_gt slots)
  unfold Hash.link
  rw [index, same]
  exact ⟨_, rfl, rfl, rfl, rfl⟩

/-- Linking entries one by one. -/
theorem foldlM_link {data : Nat → List (HashEntry V)} (es : List (HashEntry V))
    (slots : 0 < ht.slots) (same : ht.data = some data) :
    ∃ ht', es.foldlM Hash.link ht = some ht' ∧ ht'.slots = ht.slots ∧
      ht'.data = some (es.foldl (fun d e => Function.update d (bucket ht.slots e.1)
        (e :: d (bucket ht.slots e.1))) data) ∧
      (ht.count < 2 ^ 32 → ht'.count = (ht.count + es.length) % 2 ^ 32) := by
  induction es generalizing ht data with
  | nil => exact ⟨ht, rfl, rfl, same, fun fits => (Nat.mod_eq_of_lt fits).symm⟩
  | cons e es ih =>
      obtain ⟨ht₁, linked, slots₁, same₁, count₁⟩ := link_eq slots same e
      obtain ⟨ht₂, rest, slots₂, same₂, count₂⟩ := ih (slots₁ ▸ slots) same₁
      rw [slots₁] at slots₂ same₂
      refine ⟨ht₂, ?_, slots₂, same₂, ?_⟩
      · rw [List.foldlM_cons, linked]
        exact rest
      · intro _
        have fits : ht₁.count < 2 ^ 32 := count₁ ▸ Nat.mod_lt _ (by decide)
        rw [count₂ fits, count₁, List.length_cons]
        omega

/-- The slots are doubled, or there are as few as in the beginning. -/
theorem resize_slots (maps : ht.Maps map) :
    ht.slots * 2 % 2 ^ 32 ≤ 2 ^ 31 ∧
      (ht.slots ≤ 2 ^ 30 → nextPower (ht.slots * 2 % 2 ^ 32) = ht.slots * 2) := by
  obtain ⟨j, low, high, slots⟩ := maps.slots
  rw [slots, ← Nat.pow_succ]
  constructor
  · by_cases last : j = 31
    · rw [last]
      decide
    · have bound : 2 ^ (j + 1) ≤ 2 ^ 31 := Nat.pow_le_pow_right Nat.two_pos (by omega)
      exact Nat.le_trans (Nat.mod_le ..) bound
  · intro room
    have := (Nat.pow_le_pow_iff_right (by decide)).mp room
    rw [Nat.mod_eq_of_lt (Nat.pow_lt_pow_right (by decide) (by omega))]
    exact nextPower_pow (by omega) (by omega)

/-- More slots change nothing in the map. -/
theorem hashResize_maps (maps : ht.Maps map) :
    ∃ ht', hashResize ht true = some (0, ht') ∧ ht'.Maps map ∧ ht'.Tallied ∧
      (ht.Counted → ht.slots ≤ 2 ^ 30 →
        ht'.Counted ∧ ht'.count = ht.count ∧ ht'.slots = ht.slots * 2) := by
  obtain ⟨data, same, stores⟩ := maps.stored
  obtain ⟨small, double⟩ := resize_slots maps
  obtain ⟨new, init, slots₁, count₁, empty, _, _⟩ := hashInit_maps V small
  obtain ⟨data₁, same₁, stores₁⟩ := empty.stored
  obtain ⟨ht', linked, slots₂, same₂, count₂⟩ :=
    foldlM_link (entries ht.slots data) empty.slots_pos same₁
  have stored := stores₁.link_all map stores.unique (fun _ _ => rfl) (by
    intro key val
    rw [stores.holds]
    simp)
  have recounted : ht'.count = (entries ht.slots data).length % 2 ^ 32 := by
    rw [count₂ (by rw [count₁]; decide), count₁, Nat.zero_add]
  refine ⟨ht', ?_, ⟨slots₂.symm ▸ empty.slots, _, same₂, ?_⟩, ?_, ?_⟩
  · unfold hashResize
    rw [init]
    simp only [same, linked, Option.bind_eq_bind, Option.bind_some]
  · rw [slots₂]
    exact stored
  · intro data₂ same₃
    cases Option.some.inj (same₃.symm.trans same₂)
    rw [recounted, slots₂, (stores.perm stored).length_eq]
  · intro counted room
    have count := counted.count same
    have full := counted.full
    have le := maps.slots_le
    have total : ht'.count = ht.count := by omega
    have twice : ht'.slots = ht.slots * 2 := by rw [slots₂, slots₁, double room]
    refine ⟨⟨?_, by omega⟩, total, twice⟩
    intro data₂ same₃
    cases Option.some.inj (same₃.symm.trans same₂)
    rw [total, count, slots₂]
    exact (stores.perm stored).length_eq

/-! ## `hash_insert` and `hash_delete` -/

theorem grow_maps (maps : ht.Maps map) :
    ∃ ht', ht.grow true = some (0, ht') ∧ ht'.Maps map ∧ (ht.Tallied → ht'.Tallied) ∧
      (ht.Counted → ht.count < 2 ^ 31 →
        ht'.Counted ∧ ht'.count = ht.count ∧ ht'.count < ht'.slots) := by
  have pos := maps.slots_pos
  unfold Hash.grow hashResizeRatio
  rw [if_neg (Nat.ne_of_gt pos)]
  by_cases reached : ht.slots ≤ ht.count
  · rw [if_pos (Nat.succ_le_of_lt (Nat.div_pos reached pos))]
    obtain ⟨ht', resized, maps', tallied, more⟩ := hashResize_maps maps
    refine ⟨ht', resized, maps', fun _ => tallied, ?_⟩
    intro counted few
    have full := counted.full
    have room : ht.slots ≤ 2 ^ 30 := by
      obtain ⟨j, _, _, slots⟩ := maps.slots
      rw [slots] at reached ⊢
      have := (Nat.pow_lt_pow_iff_right (by decide)).mp (Nat.lt_of_le_of_lt reached few)
      exact Nat.pow_le_pow_right Nat.two_pos (by omega)
    obtain ⟨counted', count, slots⟩ := more counted room
    exact ⟨counted', count, by omega⟩
  · have below := Nat.lt_of_not_le reached
    rw [Nat.div_eq_of_lt below, if_neg (by decide)]
    exact ⟨ht, rfl, maps, id, fun counted _ => ⟨counted, rfl, below⟩⟩

/-- An entry is added where the key has none, and keeps its place where it has one. -/
theorem hashInsert_maps (maps : ht.Maps map) (key : CStr) (val : V) :
    ∃ ht', hashInsert ht key val .succeed = some (0, ht') ∧
      ht'.Maps (Function.update map key (some val)) ∧ (ht.Tallied → ht'.Tallied) ∧
      (ht.Counted → ht.count < 2 ^ 31 →
        ht'.Counted ∧ ht'.count = if map key = none then ht.count + 1 else ht.count) := by
  obtain ⟨ht₁, grown, maps₁, tally, more⟩ := grow_maps maps
  obtain ⟨data, same, stores⟩ := maps₁.stored
  have inside := stores.inside key
  have le := maps₁.slots_le
  unfold hashInsert InsertAlloc.succeed
  simp only [grown, maps₁.index key, same, Option.bind_eq_bind, Option.bind_some, ne_eq,
    not_true_eq_false, if_false, if_true]
  cases found : replace key val (data (bucket ht₁.slots key)) with
  | some chain =>
      have old : map key ≠ none := by
        intro none'
        rw [← stores.find_eq, ← replace_eq_none (v := val), found] at none'
        cases none'
      have length := length_entries_update data inside chain
      have keys := (replace_eq_some (stores.nodup_bucket key) found).1
      have same' := congrArg List.length keys
      rw [List.length_map, List.length_map] at same'
      refine ⟨_, rfl, ⟨maps₁.slots, _, rfl, stores.replaced found⟩, ?_, ?_⟩
      · intro tallied data₁ same₁
        cases same₁
        have := tally tallied same
        simp only
        omega
      · intro counted few
        obtain ⟨counted₁, count₁, _⟩ := more counted few
        rw [if_neg old]
        refine ⟨⟨?_, counted₁.full⟩, count₁⟩
        intro data₁ same₁
        cases same₁
        have := counted₁.count same
        simp only
        omega
  | none =>
      have fresh : map key = none := by
        rw [← stores.find_eq, ← replace_eq_none, found]
      obtain ⟨ht₂, linked, slots₂, same₂, count₂⟩ := link_eq maps₁.slots_pos same (key, val)
      dsimp only at same₂
      simp only [linked, Option.bind_some]
      have length := length_entries_update data inside
        ((key, val) :: data (bucket ht₁.slots key))
      rw [List.length_cons] at length
      refine ⟨ht₂, rfl, ⟨slots₂ ▸ maps₁.slots, _, same₂, ?_⟩, ?_, ?_⟩
      · rw [slots₂]
        exact stores.insertNew fresh val
      · intro tallied data₁ same₁
        cases Option.some.inj (same₁.symm.trans same₂)
        have := tally tallied same
        rw [slots₂]
        omega
      · intro counted few
        obtain ⟨counted₁, count₁, room⟩ := more counted few
        rw [Nat.mod_eq_of_lt (by omega)] at count₂
        rw [if_pos fresh]
        refine ⟨⟨?_, by omega⟩, by omega⟩
        intro data₁ same₁
        cases Option.some.inj (same₁.symm.trans same₂)
        have := counted₁.count same
        rw [slots₂]
        omega

/-- The entry of a key is unlinked, wherever it stands in its chain. -/
theorem hashDelete_found (maps : ht.Maps map) {data : Nat → List (HashEntry V)}
    (same : ht.data = some data) {key : CStr} {chain : List (HashEntry V)}
    (found : remove key (data (bucket ht.slots key)) = some chain) :
    ∃ ht', hashDelete ht key = some (0, ht') ∧ ht'.Maps (Function.update map key none) ∧
      ht'.slots = ht.slots ∧
      ht'.data = some (Function.update data (bucket ht.slots key) chain) ∧ ht.CountKept ht' := by
  obtain ⟨data', same', stores⟩ := maps.stored
  cases Option.some.inj (same.symm.trans same')
  unfold hashDelete
  simp only [maps.index key, same, Option.bind_eq_bind, Option.bind_some, found]
  have inside := stores.inside key
  obtain ⟨val, perm⟩ := remove_eq_some found
  have one := perm.length_eq
  have length := length_entries_update data inside chain
  rw [List.length_cons] at one
  refine ⟨_, rfl, ⟨maps.slots, _, rfl, stores.removed found⟩, rfl, rfl, ⟨?_, ?_⟩⟩
  · intro counted
    have count := counted.count same
    have full := counted.full
    have le := maps.slots_le
    have less : (ht.count + 2 ^ 32 - 1) % 2 ^ 32 = ht.count - 1 := by omega
    rw [less]
    refine ⟨?_, by simp only; omega⟩
    intro data₁ same₁
    cases same₁
    simp only
    omega
  · intro tallied data₁ same₁
    cases same₁
    have := tallied same
    simp only
    omega

/-- The first entry of a chain is found in its bucket, and the rest of the chain stays. -/
theorem hashDelete_head (maps : ht.Maps map) {data : Nat → List (HashEntry V)} {i : Nat}
    {he : HashEntry V} {next : List (HashEntry V)} (inside : i < ht.slots)
    (same : ht.data = some data) (walk : data i = he :: next) :
    bucket ht.slots he.1 = i ∧
    ∃ ht', hashDelete ht he.1 = some (0, ht') ∧ ht'.Maps (Function.update map he.1 none) ∧
      ht'.slots = ht.slots ∧ ht'.data = some (Function.update data i next) ∧
      ht.CountKept ht' := by
  obtain ⟨data', same', stores⟩ := maps.stored
  cases Option.some.inj (same.symm.trans same')
  have here : bucket ht.slots he.1 = i :=
    stores.placed i inside he (walk ▸ List.mem_cons_self)
  have found : remove he.1 (data (bucket ht.slots he.1)) = some next := by
    rw [here, walk]
    exact if_pos rfl
  have deleted := hashDelete_found maps same found
  rw [here] at deleted
  exact ⟨here, deleted⟩

theorem hashDelete_maps (maps : ht.Maps map) (key : CStr) :
    ∃ ht', hashDelete ht key = some (if map key = none then -1 else 0, ht') ∧
      ht'.Maps (Function.update map key none) ∧ ht.CountKept ht' := by
  obtain ⟨data, same, stores⟩ := maps.stored
  cases found : remove key (data (bucket ht.slots key)) with
  | some chain =>
      have old : map key ≠ none := by
        intro none'
        rw [← stores.find_eq, ← remove_eq_none, found] at none'
        cases none'
      obtain ⟨ht', deleted, maps', _, _, counted⟩ := hashDelete_found maps same found
      rw [if_neg old]
      exact ⟨ht', deleted, maps', counted⟩
  | none =>
      have none' : map key = none := by
        rw [← stores.find_eq, ← remove_eq_none, found]
      rw [if_pos none', Function.update_eq_self_iff.mpr none'.symm]
      refine ⟨ht, ?_, maps, .refl ht⟩
      unfold hashDelete
      simp only [maps.index key, same, Option.bind_eq_bind, Option.bind_some, found]

/-! ## `hash_clear` -/

/-- The chain that is walked is what is left of the bucket at every call. -/
theorem foreachChain_clear {data : Nat → List (HashEntry V)} {i : Nat}
    {chain : List (HashEntry V)} (maps : ht.Maps map) (inside : i < ht.slots)
    (same : ht.data = some data) (walk : data i = chain) :
    ∃ ht', foreachChain hashDeleteForeach chain ht = some (0, ht') ∧
      ht'.Maps (fun key => if bucket ht.slots key = i then none else map key) ∧
      ht'.slots = ht.slots ∧ ht.CountKept ht' := by
  induction chain generalizing ht map data with
  | nil =>
      obtain ⟨data', same', stores⟩ := maps.stored
      cases Option.some.inj (same.symm.trans same')
      have empty : map = fun key => if bucket ht.slots key = i then none else map key := by
        funext key
        split
        · next here => rw [← stores.find_eq, here, walk, find]
        · rfl
      exact ⟨ht, rfl, empty ▸ maps, rfl, .refl ht⟩
  | cons he next ih =>
      obtain ⟨here, ht₁, deleted, maps₁, slots₁, same₁, kept₁⟩ :=
        hashDelete_head maps inside same walk
      obtain ⟨ht₂, rest, maps₂, slots₂, kept₂⟩ :=
        ih maps₁ (slots₁ ▸ inside) same₁ (Function.update_self ..)
      refine ⟨ht₂, ?_, ?_, slots₂.trans slots₁, kept₁.trans kept₂⟩
      · simp only [foreachChain, hashDeleteForeach, deleted, Option.bind_eq_bind,
          Option.bind_some, ne_eq, not_true_eq_false, if_false]
        exact rest
      · have cleared : (fun key => if bucket ht.slots key = i then none else map key) =
            fun key => if bucket ht₁.slots key = i then none
              else Function.update map he.1 none key := by
          funext key
          rw [slots₁]
          split
          · rfl
          · next other =>
              have ne : key ≠ he.1 := by
                rintro rfl
                exact other here
              rw [Function.update_of_ne ne]
        rw [cleared]
        exact maps₂

theorem foreachBuckets_clear (maps : ht.Maps map) (is : List Nat)
    (inside : ∀ i ∈ is, i < ht.slots) :
    ∃ ht', foreachBuckets id hashDeleteForeach is ht = some (0, ht') ∧
      ht'.Maps (fun key => if bucket ht.slots key ∈ is then none else map key) ∧
      ht.CountKept ht' := by
  induction is generalizing ht map with
  | nil =>
      refine ⟨ht, rfl, ?_, .refl ht⟩
      simpa using maps
  | cons i is ih =>
      obtain ⟨data, same, _⟩ := maps.stored
      obtain ⟨ht₁, walked, maps₁, slots₁, kept₁⟩ :=
        foreachChain_clear maps (inside i List.mem_cons_self) same rfl
      obtain ⟨ht₂, rest, maps₂, kept₂⟩ :=
        ih maps₁ fun j mem => slots₁ ▸ inside j (List.mem_cons_of_mem i mem)
      refine ⟨ht₂, ?_, ?_, kept₁.trans kept₂⟩
      · simp only [foreachBuckets, id, same, walked, Option.bind_eq_bind, Option.bind_some,
          ne_eq, not_true_eq_false, if_false]
        exact rest
      · have cleared : (fun key => if bucket ht.slots key ∈ i :: is then none else map key) =
            fun key => if bucket ht₁.slots key ∈ is then none
              else if bucket ht.slots key = i then none else map key := by
          funext key
          rw [slots₁]
          by_cases here : bucket ht.slots key = i <;> simp [here]
        rw [cleared]
        exact maps₂

theorem hashClear_maps (maps : ht.Maps map) :
    ∃ ht', hashClear ht = some (0, ht') ∧ ht'.Maps (fun _ => none) ∧ ht.CountKept ht' := by
  obtain ⟨ht', cleared, maps', kept⟩ :=
    foreachBuckets_clear maps (List.range ht.slots) fun i mem => List.mem_range.mp mem
  refine ⟨ht', cleared, ?_, kept⟩
  have all : ∀ key, bucket ht.slots key ∈ List.range ht.slots := by
    intro key
    exact List.mem_range.mpr (Nat.mod_lt _ maps.slots_pos)
  simpa only [all, if_true] using maps'

/-! ## `hash_dup` -/

theorem foreachChain_append {S : Type} (foreach : HashEntry V → S → Option (Int × S))
    (before after : List (HashEntry V)) (s : S) :
    foreachChain foreach (before ++ after) s =
      (foreachChain foreach before s).bind fun (ret, s) =>
        if ret ≠ 0 then some (-1, s) else foreachChain foreach after s := by
  induction before generalizing s with
  | nil => rfl
  | cons he before ih =>
      simp only [List.cons_append, foreachChain, Option.bind_eq_bind, Option.bind_assoc]
      refine congrArg _ (funext fun step => ?_)
      rcases step with ⟨ret, s⟩
      by_cases failed : ret = 0
      · simp [failed, ih]
      · simp [failed]

/-- A table that does not change is visited in the order of its entries. -/
theorem hashForeach_entries {S : Type} (foreach : HashEntry V → S → Option (Int × S))
    {data : Nat → List (HashEntry V)} (same : ht.data = some data) (s : S) :
    hashForeach (fun _ => ht) foreach s = foreachChain foreach (entries ht.slots data) s := by
  unfold hashForeach entries
  induction List.range ht.slots generalizing s with
  | nil => rfl
  | cons i is ih =>
      rw [List.flatMap_cons, foreachChain_append]
      simp only [foreachBuckets, same, Option.bind_eq_bind, Option.bind_some]
      refine congrArg _ (funext fun step => ?_)
      rcases step with ⟨ret, s⟩
      by_cases failed : ret = 0
      · simp [failed, ih]
      · simp [failed]

/-- Entries with new keys are copied one by one. -/
theorem foreachChain_dup {es : List (HashEntry V)} {copied : CStr → Option V}
    (maps : ht.Maps copied) (map : CStr → Option V)
    (unique : (es.map Prod.fst).Nodup) (fresh : ∀ he ∈ es, copied he.1 = none)
    (here : ∀ key val, map key = some val ↔ (key, val) ∈ es ∨ copied key = some val) :
    ∃ ht', foreachChain (hashDupForeach fun _ => .succeed) es ht = some (0, ht') ∧
      ht'.Maps map ∧
      (ht.Tallied → ht'.Tallied) ∧
      (ht.Counted → ht.count + es.length ≤ 2 ^ 31 → ht'.Counted) := by
  induction es generalizing ht copied with
  | nil =>
      have same : map = copied := by
        funext key
        apply Option.ext
        intro val
        rw [here]
        simp
      exact ⟨ht, rfl, same ▸ maps, id, fun counted _ => counted⟩
  | cons he es ih =>
      rw [List.map_cons, List.nodup_cons] at unique
      have new := fresh he List.mem_cons_self
      obtain ⟨ht₁, inserted, maps₁, tallied₁, counted₁⟩ := hashInsert_maps maps he.1 he.2
      rw [if_pos new] at counted₁
      obtain ⟨ht₂, rest, maps₂, tallied₂, counted₂⟩ := ih maps₁ unique.2 (by
        intro he' mem
        have ne : he'.1 ≠ he.1 := fun same => unique.1 (List.mem_map.mpr ⟨he', mem, same⟩)
        rw [Function.update_of_ne ne]
        exact fresh he' (List.mem_cons_of_mem _ mem)) (by
        intro key val
        rw [here]
        by_cases eq : key = he.1
        · subst eq
          have missing : (he.1, val) ∉ es := fun mem => unique.1 (List.mem_map.mpr ⟨_, mem, rfl⟩)
          simp [missing, new, Prod.ext_iff, eq_comm]
        · simp [eq, Prod.ext_iff])
      refine ⟨ht₂, ?_, maps₂, fun tallied => tallied₂ (tallied₁ tallied), ?_⟩
      · simp only [foreachChain, hashDupForeach, inserted, Option.bind_eq_bind,
          Option.bind_some, ne_eq, not_true_eq_false, if_false]
        exact rest
      · intro counted few
        rw [List.length_cons] at few
        obtain ⟨counted', count⟩ := counted₁ counted (by omega)
        exact counted₂ counted' (by omega)

theorem hashDup_maps (maps : ht.Maps map) :
    ∃ copy, hashDup ht true (fun _ => .succeed) = some (some copy) ∧ copy.Maps map ∧
      ht.CountKept copy := by
  obtain ⟨data, same, stores⟩ := maps.stored
  obtain ⟨new, init, _, count₁, empty, counted₁, tallied₁⟩ := hashInit_maps V maps.slots_le
  obtain ⟨copy, copied, maps', tallied₂, counted₂⟩ :=
    foreachChain_dup empty map stores.unique (fun _ _ => rfl) (by
      intro key val
      rw [stores.holds]
      simp)
  refine ⟨copy, ?_, maps', ⟨?_, fun _ => tallied₂ tallied₁⟩⟩
  · unfold hashDup hashCreate
    simp only [init, hashForeach_entries _ same, copied, Option.bind_eq_bind, Option.bind_some]
  · intro counted
    have count := counted.count same
    have full := counted.full
    have le := maps.slots_le
    exact counted₂ counted₁ (by omega)

end Table

/-! ## Whole runs -/

/-- The calls. A copy is used in place of the table from then on. -/
inductive HashOp (V : Type) : Type
  | insert (key : CStr) (val : V)
  | delete (key : CStr)
  | getVal (key : CStr)
  | dup
  | clear

/-- A table, and for each key the value inserted last and not deleted since. -/
structure HashRun (V : Type) where
  ht : Hash V
  map : CStr → Option V

def HashRun.step {V : Type} (r : HashRun V) : HashOp V → Option (HashRun V)
  | .insert key val => do
      let (_, ht) ← hashInsert r.ht key val .succeed
      some ⟨ht, Function.update r.map key (some val)⟩
  | .delete key => do
      let (_, ht) ← hashDelete r.ht key
      some ⟨ht, Function.update r.map key none⟩
  | .getVal key => do
      let _ ← hashGetVal r.ht key
      some r
  | .dup => do
      let ht ← (← hashDup r.ht true fun _ => .succeed)
      some ⟨ht, r.map⟩
  | .clear => do
      let (_, ht) ← hashClear r.ht
      some ⟨ht, fun _ => none⟩

/-- There are fewer than `2 ^ 31` entries. -/
def FewEntries {V : Type} (r : HashRun V) : HashOp V → Prop
  | .insert _ _ => r.ht.count < 2 ^ 31
  | _ => True

instance {V : Type} (r : HashRun V) : (op : HashOp V) → Decidable (FewEntries r op)
  | .insert _ _ => inferInstanceAs (Decidable (_ < _))
  | .delete _ => inferInstanceAs (Decidable True)
  | .getVal _ => inferInstanceAs (Decidable True)
  | .dup => inferInstanceAs (Decidable True)
  | .clear => inferInstanceAs (Decidable True)

/-- The table is the map: in what it answers, and in how it is kept. -/
structure Hash.Holds {V : Type} (ht : Hash V) (map : CStr → Option V) : Prop where
  lookup : ∀ key, hashGetVal ht key = some (map key)
  kept : ∃ data, ht.data = some data ∧ ((entries ht.slots data).map Prod.fst).Nodup ∧
    (∀ i < ht.slots, ∀ he ∈ data i, (hashFunc he.1).toNat % ht.slots = i) ∧
    ht.count = (entries ht.slots data).length

section Runs

variable {V : Type}

theorem Hash.Maps.holds {ht : Hash V} {map : CStr → Option V} (maps : ht.Maps map)
    (counted : ht.Counted) : ht.Holds map := by
  obtain ⟨data, same, stores⟩ := maps.stored
  exact ⟨hashGetVal_maps maps, data, same, stores.unique, stores.placed, counted.count same⟩

/-- The table of a run stands for its map, and counts its entries. -/
structure HashRun.Right (r : HashRun V) : Prop where
  maps : r.ht.Maps r.map
  counted : r.ht.Counted

theorem HashRun.Right.step {r r' : HashRun V} {op : HashOp V} (right : r.Right)
    (few : FewEntries r op) (stepped : r.step op = some r') : r'.Right := by
  rcases right with ⟨maps, counted⟩
  cases op with
  | insert key val =>
      obtain ⟨ht, inserted, maps', _, counted'⟩ := hashInsert_maps maps key val
      simp only [HashRun.step, inserted, Option.bind_eq_bind, Option.bind_some] at stepped
      cases stepped
      exact ⟨maps', (counted' counted few).1⟩
  | delete key =>
      obtain ⟨ht, deleted, maps', kept⟩ := hashDelete_maps maps key
      simp only [HashRun.step, deleted, Option.bind_eq_bind, Option.bind_some] at stepped
      cases stepped
      exact ⟨maps', kept.counted counted⟩
  | getVal key =>
      simp only [HashRun.step, hashGetVal_maps maps, Option.bind_eq_bind,
        Option.bind_some] at stepped
      cases stepped
      exact ⟨maps, counted⟩
  | dup =>
      obtain ⟨copy, copied, maps', kept⟩ := hashDup_maps maps
      simp only [HashRun.step, copied, Option.bind_eq_bind, Option.bind_some] at stepped
      cases stepped
      exact ⟨maps', kept.counted counted⟩
  | clear =>
      obtain ⟨ht, cleared, maps', kept⟩ := hashClear_maps maps
      simp only [HashRun.step, cleared, Option.bind_eq_bind, Option.bind_some] at stepped
      cases stepped
      exact ⟨maps', kept.counted counted⟩

end Runs

/-- **The hash table is a finite map.** In every state of every run from a created table: the
table answers with the value inserted last under a key and not deleted since, keeps each key
once, in its bucket, and counts the entries. Every call returns, with the code that the map
says; a copy holds the same map, and a cleared table none. -/
theorem hash_is_map {V : Type} {slots : Nat} (small : slots ≤ 2 ^ 31) {ht : Hash V}
    (created : hashCreate slots true = some ht) {r : HashRun V}
    (reach : Reach HashRun.step FewEntries ⟨ht, fun _ => none⟩ r) :
    r.ht.Holds r.map ∧
      (∀ key val, r.ht.count < 2 ^ 31 →
        ∃ ht', hashInsert r.ht key val .succeed = some (0, ht') ∧
          ht'.Holds (Function.update r.map key (some val))) ∧
      (∀ key, ∃ ht', hashDelete r.ht key = some (if r.map key = none then -1 else 0, ht') ∧
        ht'.Holds (Function.update r.map key none)) ∧
      (∃ copy, hashDup r.ht true (fun _ => .succeed) = some (some copy) ∧ copy.Holds r.map) ∧
      ∃ ht', hashClear r.ht = some (0, ht') ∧ ht'.Holds (fun _ => none) ∧ ht'.count = 0 := by
  have right : r.Right := by
    apply reach.invariant _ HashRun.Right.step
    obtain ⟨ht', init, _, _, empty, counted, _⟩ := hashInit_maps V small
    unfold hashCreate at created
    rw [init] at created
    cases created
    exact ⟨empty, counted⟩
  rcases right with ⟨maps, counted⟩
  refine ⟨maps.holds counted, ?_, ?_, ?_, ?_⟩
  · intro key val few
    obtain ⟨ht', inserted, maps', _, counted'⟩ := hashInsert_maps maps key val
    exact ⟨ht', inserted, maps'.holds (counted' counted few).1⟩
  · intro key
    obtain ⟨ht', deleted, maps', kept⟩ := hashDelete_maps maps key
    exact ⟨ht', deleted, maps'.holds (kept.counted counted)⟩
  · obtain ⟨copy, copied, maps', kept⟩ := hashDup_maps maps
    exact ⟨copy, copied, maps'.holds (kept.counted counted)⟩
  · obtain ⟨ht', cleared, maps', kept⟩ := hashClear_maps maps
    obtain ⟨data, same, stores⟩ := maps'.stored
    refine ⟨ht', cleared, maps'.holds (kept.counted counted), ?_⟩
    have empty : entries ht'.slots data = [] := by
      apply List.eq_nil_iff_forall_not_mem.mpr
      rintro ⟨key, val⟩ mem
      cases (stores.holds key val).mpr mem
    rw [(kept.counted counted).count same, empty, List.length_nil]

/-- Two keys in one bucket, and one of them deleted. -/
def collide : List (HashOp Nat) :=
  [.insert [97] 1, .insert [113] 2, .insert [97] 3, .delete [113], .dup]

theorem hash_is_map_collide :
    ∃ r, Reach HashRun.step FewEntries ⟨(hashInit 16 true).2, fun _ => none⟩ r ∧
      hashGetVal r.ht [97] = some (some 3) ∧ hashGetVal r.ht [113] = some none := by
  have ran : (runGuarded HashRun.step FewEntries ⟨(hashInit 16 true).2, fun _ => none⟩
      collide).map (fun r => (r.map [97], r.map [113])) = some (some 3, none) := by decide
  obtain ⟨r, same, state⟩ := Option.map_eq_some_iff.mp ran
  obtain ⟨first, second⟩ := Prod.mk.inj state
  have reach := reach_of_runGuarded same
  have lookup := (hash_is_map (by decide) rfl reach).1.lookup
  exact ⟨r, reach, by rw [lookup, first], by rw [lookup, second]⟩

end Verben
