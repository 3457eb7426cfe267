import Mathlib.Data.List.Nodup
import Mathlib.Data.List.Perm.Basic
import Mathlib.Logic.Function.Basic
import Mathlib.Tactic.Common

/-!
# A finite map in buckets

`n` buckets, each a list of key and value, with a bucket `b k` for every key. `Stores` says
that the buckets store a finite map: every entry is in the bucket of its key, no key is
stored twice, and the entries are those of the map. What a program does to one bucket is
`Stores.setBucket`; the rules for a new, a changed and a removed entry follow from it, and
`Stores.relink` rebuilds the buckets for another function `b`.
A bucket is a linked list that is walked from its head: `find`, `replace` and `remove` are
the three walks, for the first entry with a key.
-/

namespace Buckets

variable {K V : Type*}

/-! ## One bucket -/

section Chain

variable [DecidableEq K]

/-- The value of the first entry with the key. -/
def find (k : K) : List (K × V) → Option V
  | [] => none
  | (key, val) :: next => if k = key then some val else find k next

/-- Give the first entry with the key another value, if there is one. -/
def replace (k : K) (v : V) : List (K × V) → Option (List (K × V))
  | [] => none
  | (key, val) :: next =>
      if k = key then some ((key, v) :: next) else (replace k v next).map ((key, val) :: ·)

/-- Unlink the first entry with the key, if there is one. -/
def remove (k : K) : List (K × V) → Option (List (K × V))
  | [] => none
  | (key, val) :: next => if k = key then some next else (remove k next).map ((key, val) :: ·)

variable {k : K} {v : V} {l l' : List (K × V)}

theorem find_eq_some (unique : (l.map Prod.fst).Nodup) : find k l = some v ↔ (k, v) ∈ l := by
  induction l with
  | nil => simp [find]
  | cons e next ih =>
      rcases e with ⟨key, val⟩
      rw [List.map_cons, List.nodup_cons] at unique
      rcases unique with ⟨head, tail⟩
      unfold find
      by_cases same : k = key
      · subst same
        have missing : (k, v) ∉ next := fun mem => head (List.mem_map.mpr ⟨_, mem, rfl⟩)
        simp [missing, eq_comm]
      · simp [same, ih tail]

theorem replace_eq_none : replace k v l = none ↔ find k l = none := by
  induction l with
  | nil => simp [replace, find]
  | cons e next ih =>
      rcases e with ⟨key, val⟩
      unfold replace find
      split
      · simp
      · rw [Option.map_eq_none_iff, ih]

theorem remove_eq_none : remove k l = none ↔ find k l = none := by
  induction l with
  | nil => simp [remove, find]
  | cons e next ih =>
      rcases e with ⟨key, val⟩
      unfold remove find
      split
      · simp
      · rw [Option.map_eq_none_iff, ih]

/-- The keys stay as they are, and only the value of one changes. -/
theorem replace_eq_some (unique : (l.map Prod.fst).Nodup) (some' : replace k v l = some l') :
    l'.map Prod.fst = l.map Prod.fst ∧
      (k, v) ∈ l' ∧ ∀ k' v', k' ≠ k → ((k', v') ∈ l' ↔ (k', v') ∈ l) := by
  induction l generalizing l' with
  | nil => cases some'
  | cons e next ih =>
      rcases e with ⟨key, val⟩
      rw [List.map_cons, List.nodup_cons] at unique
      unfold replace at some'
      split at some'
      · next same =>
          cases some'
          subst same
          refine ⟨rfl, List.mem_cons_self, fun k' v' other => ?_⟩
          simp [other]
      · obtain ⟨next', rest, rfl⟩ := Option.map_eq_some_iff.mp some'
        obtain ⟨keys, mem, others⟩ := ih unique.2 rest
        refine ⟨by simp [keys], List.mem_cons_of_mem _ mem, fun k' v' other => ?_⟩
        rw [List.mem_cons, List.mem_cons, others k' v' other]

theorem remove_eq_some (some' : remove k l = some l') :
    ∃ v, l.Perm ((k, v) :: l') := by
  induction l generalizing l' with
  | nil => cases some'
  | cons e next ih =>
      rcases e with ⟨key, val⟩
      unfold remove at some'
      split at some'
      · next same =>
          cases some'
          subst same
          exact ⟨val, .refl _⟩
      · obtain ⟨next', rest, rfl⟩ := Option.map_eq_some_iff.mp some'
        obtain ⟨v, perm⟩ := ih rest
        exact ⟨v, (perm.cons _).trans (.swap ..)⟩

end Chain

/-! ## All buckets -/

/-- All entries, bucket by bucket. -/
def entries (n : Nat) (d : Nat → List (K × V)) : List (K × V) := (List.range n).flatMap d

section Entries

variable {n i : Nat} {d : Nat → List (K × V)} {e : K × V}

theorem mem_entries : e ∈ entries n d ↔ ∃ i < n, e ∈ d i := by
  simp [entries]

theorem entries_succ (n : Nat) (d : Nat → List (K × V)) :
    entries (n + 1) d = entries n d ++ d n := by
  simp [entries, List.range_succ]

theorem entries_congr {d' : Nat → List (K × V)} (same : ∀ i < n, d' i = d i) :
    entries n d' = entries n d := by
  induction n with
  | zero => rfl
  | succ n ih =>
      rw [entries_succ, entries_succ, ih fun i below => same i (Nat.lt_succ_of_lt below),
        same n (Nat.lt_succ_self n)]

/-- The entries outside one bucket do not depend on it. -/
theorem entries_update (d : Nat → List (K × V)) (inside : i < n) :
    ∃ rest, (∀ e, e ∈ rest ↔ ∃ j < n, j ≠ i ∧ e ∈ d j) ∧
      ∀ l, (entries n (Function.update d i l)).Perm (l ++ rest) := by
  induction n with
  | zero => exact absurd inside (Nat.not_lt_zero i)
  | succ n ih =>
      by_cases last : i = n
      · subst last
        refine ⟨entries i d, fun e => ?_, fun l => ?_⟩
        · rw [mem_entries]
          constructor
          · rintro ⟨j, below, mem⟩
            exact ⟨j, Nat.lt_succ_of_lt below, Nat.ne_of_lt below, mem⟩
          · rintro ⟨j, below, other, mem⟩
            exact ⟨j, by omega, mem⟩
        · have before : entries i (Function.update d i l) = entries i d :=
            entries_congr fun j below => Function.update_of_ne (Nat.ne_of_lt below) ..
          rw [entries_succ, before, Function.update_self]
          exact List.perm_append_comm
      · have below : i < n := by omega
        obtain ⟨rest, mem, perm⟩ := ih below
        refine ⟨rest ++ d n, fun e => ?_, fun l => ?_⟩
        · rw [List.mem_append, mem]
          constructor
          · rintro (⟨j, inside', other, mem'⟩ | mem')
            · exact ⟨j, Nat.lt_succ_of_lt inside', other, mem'⟩
            · exact ⟨n, Nat.lt_succ_self n, Ne.symm last, mem'⟩
          · rintro ⟨j, inside', other, mem'⟩
            rcases Nat.lt_succ_iff_lt_or_eq.mp inside' with before | rfl
            · exact Or.inl ⟨j, before, other, mem'⟩
            · exact Or.inr mem'
        · rw [entries_succ, Function.update_of_ne (Ne.symm last), ← List.append_assoc]
          exact (perm l).append_right (d n)

theorem length_entries_update (d : Nat → List (K × V)) (inside : i < n) (l : List (K × V)) :
    (entries n (Function.update d i l)).length + (d i).length =
      (entries n d).length + l.length := by
  obtain ⟨rest, _, perm⟩ := entries_update d inside
  have old := (perm (d i)).length_eq
  have new := (perm l).length_eq
  rw [Function.update_eq_self, List.length_append] at old
  rw [List.length_append] at new
  omega

end Entries

/-- The buckets store the map. -/
structure Stores (b : K → Nat) (n : Nat) (d : Nat → List (K × V)) (m : K → Option V) : Prop where
  inside : ∀ k, b k < n
  placed : ∀ i < n, ∀ e ∈ d i, b e.1 = i
  unique : ((entries n d).map Prod.fst).Nodup
  holds : ∀ k v, m k = some v ↔ (k, v) ∈ entries n d

section Stores

variable {b : K → Nat} {n : Nat} {d : Nat → List (K × V)} {m m' : K → Option V} {k : K} {v : V}

/-- A key is looked up in its bucket. -/
theorem Stores.lookup (stores : Stores b n d m) (k : K) (v : V) :
    m k = some v ↔ (k, v) ∈ d (b k) := by
  rw [stores.holds, mem_entries]
  constructor
  · rintro ⟨i, inside, mem⟩
    have here : b k = i := stores.placed i inside _ mem
    rwa [here]
  · intro mem
    exact ⟨b k, stores.inside k, mem⟩

theorem Stores.nodup_bucket (stores : Stores b n d m) (k : K) :
    ((d (b k)).map Prod.fst).Nodup := by
  obtain ⟨rest, _, perm⟩ := entries_update d (stores.inside k)
  have split := perm (d (b k))
  rw [Function.update_eq_self] at split
  have keys := (split.map Prod.fst).nodup_iff.mp stores.unique
  rw [List.map_append] at keys
  exact (List.nodup_append.mp keys).1

/-- The entries are those of the map, in some order. -/
theorem Stores.perm (stores : Stores b n d m) {b' : K → Nat} {n' : Nat}
    {d' : Nat → List (K × V)} (stores' : Stores b' n' d' m) :
    (entries n d).Perm (entries n' d') := by
  apply (List.perm_ext_iff_of_nodup stores.unique.of_map stores'.unique.of_map).mpr
  rintro ⟨k, v⟩
  rw [← stores.holds, ← stores'.holds]

/-- A bucket may be replaced by one that stores what the new map has there. -/
theorem Stores.setBucket (stores : Stores b n d m) (k : K) {l : List (K × V)}
    (placed : ∀ e ∈ l, b e.1 = b k) (unique : (l.map Prod.fst).Nodup)
    (here : ∀ k' v, b k' = b k → (m' k' = some v ↔ (k', v) ∈ l))
    (elsewhere : ∀ k', b k' ≠ b k → m' k' = m k') :
    Stores b n (Function.update d (b k) l) m' := by
  obtain ⟨rest, memRest, perm⟩ := entries_update d (stores.inside k)
  have split := perm (d (b k))
  rw [Function.update_eq_self] at split
  have keys := (split.map Prod.fst).nodup_iff.mp stores.unique
  rw [List.map_append] at keys
  have outside : ∀ e ∈ rest, b e.1 ≠ b k := by
    intro e mem
    obtain ⟨j, inside, other, memJ⟩ := (memRest e).mp mem
    rw [stores.placed j inside e memJ]
    exact other
  constructor
  case inside => exact stores.inside
  case placed =>
    intro i inside e mem
    by_cases same : i = b k
    · subst same
      rw [Function.update_self] at mem
      exact placed e mem
    · rw [Function.update_of_ne same] at mem
      exact stores.placed i inside e mem
  case unique =>
    rw [((perm l).map Prod.fst).nodup_iff, List.map_append]
    refine List.nodup_append.mpr ⟨unique, (List.nodup_append.mp keys).2.1, ?_⟩
    intro k₁ new k₂ old same
    obtain ⟨e₁, mem₁, key₁⟩ := List.mem_map.mp new
    obtain ⟨e₂, mem₂, key₂⟩ := List.mem_map.mp old
    apply outside e₂ mem₂
    rw [key₂, ← same, ← key₁]
    exact placed e₁ mem₁
  case holds =>
    intro k' v
    rw [(perm l).mem_iff, List.mem_append]
    by_cases same : b k' = b k
    · rw [here k' v same]
      refine ⟨Or.inl, ?_⟩
      rintro (mem | mem)
      · exact mem
      · exact absurd same (outside _ mem)
    · rw [elsewhere k' same, stores.holds, split.mem_iff, List.mem_append]
      have notHere : (k', v) ∉ d (b k) := by
        intro mem
        exact same (stores.placed _ (stores.inside k) _ mem)
      have notNew : (k', v) ∉ l := fun mem => same (placed _ mem)
      simp [notHere, notNew]

theorem stores_nil (inside : ∀ k, b k < n) :
    Stores b n (fun _ => ([] : List (K × V))) (fun _ => none) := by
  have none' : entries n (fun _ => ([] : List (K × V))) = [] := by simp [entries]
  refine ⟨inside, nofun, ?_, fun k v => ?_⟩
  · rw [none']
    exact List.nodup_nil
  · simp [none']

variable [DecidableEq K]

theorem Stores.insertNew (stores : Stores b n d m) (fresh : m k = none) (v : V) :
    Stores b n (Function.update d (b k) ((k, v) :: d (b k)))
      (Function.update m k (some v)) := by
  have missing : ∀ v', (k, v') ∉ d (b k) := by
    intro v' mem
    rw [← stores.lookup, fresh] at mem
    cases mem
  apply stores.setBucket k
  · intro e mem
    rcases List.mem_cons.mp mem with rfl | mem
    · rfl
    · exact stores.placed _ (stores.inside k) e mem
  · rw [List.map_cons, List.nodup_cons]
    refine ⟨?_, stores.nodup_bucket k⟩
    intro mem
    obtain ⟨⟨k', v'⟩, mem', same⟩ := List.mem_map.mp mem
    cases same
    exact missing v' mem'
  · intro k' v' same
    by_cases eq : k' = k
    · subst eq
      rw [Function.update_self]
      simp [missing, eq_comm]
    · rw [Function.update_of_ne eq, stores.lookup, same]
      simp [eq]
  · intro k' other
    have ne : k' ≠ k := by
      rintro rfl
      exact other rfl
    exact Function.update_of_ne ne ..

theorem Stores.find_eq (stores : Stores b n d m) (k : K) : find k (d (b k)) = m k := by
  apply Option.ext
  intro v
  rw [find_eq_some (stores.nodup_bucket k), stores.lookup]

theorem Stores.replaced (stores : Stores b n d m) {l : List (K × V)}
    (some' : replace k v (d (b k)) = some l) :
    Stores b n (Function.update d (b k) l) (Function.update m k (some v)) := by
  have nodup := stores.nodup_bucket k
  obtain ⟨keys, mem, others⟩ := replace_eq_some nodup some'
  have unique : (l.map Prod.fst).Nodup := keys ▸ nodup
  apply stores.setBucket k _ unique
  · intro k' v' same
    by_cases eq : k' = k
    · subst eq
      rw [Function.update_self, ← find_eq_some unique, (find_eq_some unique).mpr mem]
    · rw [Function.update_of_ne eq, stores.lookup, same, others k' v' eq]
  · intro k' other
    have ne : k' ≠ k := by
      rintro rfl
      exact other rfl
    exact Function.update_of_ne ne ..
  · intro e mem'
    have key : e.1 ∈ (d (b k)).map Prod.fst := keys ▸ List.mem_map_of_mem mem'
    obtain ⟨e', old, same⟩ := List.mem_map.mp key
    rw [← same]
    exact stores.placed _ (stores.inside k) e' old

theorem Stores.removed (stores : Stores b n d m) {l : List (K × V)}
    (some' : remove k (d (b k)) = some l) :
    Stores b n (Function.update d (b k) l) (Function.update m k none) := by
  obtain ⟨v, perm⟩ := remove_eq_some some'
  have nodup := (perm.map Prod.fst).nodup_iff.mp (stores.nodup_bucket k)
  rw [List.map_cons, List.nodup_cons] at nodup
  rcases nodup with ⟨gone, unique⟩
  apply stores.setBucket k _ unique
  · intro k' v' same
    by_cases eq : k' = k
    · subst eq
      rw [Function.update_self]
      have missing : (k', v') ∉ l := by
        intro mem
        exact gone (List.mem_map.mpr ⟨_, mem, rfl⟩)
      simp [missing]
    · rw [Function.update_of_ne eq, stores.lookup, same, perm.mem_iff]
      simp [eq]
  · intro k' other
    have ne : k' ≠ k := by
      rintro rfl
      exact other rfl
    exact Function.update_of_ne ne ..
  · intro e mem
    exact stores.placed _ (stores.inside k) e (perm.mem_iff.mpr (List.mem_cons_of_mem _ mem))

/-- Entries with keys that are not stored yet, linked one by one. -/
theorem Stores.link_all (stores : Stores b n d m) (m' : K → Option V) {es : List (K × V)}
    (unique : (es.map Prod.fst).Nodup) (fresh : ∀ e ∈ es, m e.1 = none)
    (here : ∀ k v, m' k = some v ↔ (k, v) ∈ es ∨ m k = some v) :
    Stores b n (es.foldl (fun d e => Function.update d (b e.1) (e :: d (b e.1))) d) m' := by
  induction es generalizing d m with
  | nil =>
      have same : m' = m := by
        funext k
        apply Option.ext
        intro v
        rw [here]
        simp
      rw [same]
      exact stores
  | cons e es ih =>
      rcases e with ⟨key, val⟩
      rw [List.map_cons, List.nodup_cons] at unique
      have new := stores.insertNew (fresh _ List.mem_cons_self) val
      apply ih new unique.2
      · intro e mem
        have ne : e.1 ≠ key := by
          intro same
          exact unique.1 (List.mem_map.mpr ⟨e, mem, same⟩)
        rw [Function.update_of_ne ne]
        exact fresh e (List.mem_cons_of_mem _ mem)
      · intro k v
        rw [here]
        by_cases eq : k = key
        · subst eq
          have missing : (k, v) ∉ es := fun mem => unique.1 (List.mem_map.mpr ⟨_, mem, rfl⟩)
          have none' := fresh _ List.mem_cons_self
          simp_all [eq_comm]
        · simp [eq]

end Stores

end Buckets
