import Mathlib.Algebra.Group.Nat.Defs
import Verben.Dlist.Model

/-!
# What a list holds

`Dlist.Entries` says which nodes a list has, in their order: the links in both directions, the
head, the tail and the length all belong to them. A walk, a search and the removal of a node
are described by what they do to the entries.
-/

namespace Verben

open Links

variable {α : Type} {dl : Dlist α} {before after : List (Nat × α)} {addr : Nat} {value : α}

/-- The nodes of a list, with their values. -/
structure Dlist.Entries (dl : Dlist α) (entries : List (Nat × α)) : Prop where
  nodup : (entries.map Prod.fst).Nodup
  links : Segment dl.nodes none dl.head entries dl.tail none
  len : dl.len = UInt32.ofNat entries.length

/-- The values of a list. -/
def Dlist.Holds (dl : Dlist α) (values : List α) : Prop :=
  ∃ entries, dl.Entries entries ∧ entries.map Prod.snd = values

/-- A new node at the end of a list, which has room for it in its length. -/
theorem Dlist.Entries.add {entries : List (Nat × α)} (listed : dl.Entries entries)
    (fresh : addr ∉ entries.map Prod.fst) (room : entries.length < 2 ^ 32) :
    ∃ dl', dlistAddNodeTail dl (some addr) value = some (true, dl') ∧
      dl'.Entries (entries ++ [(addr, value)]) := by
  have nodup : ((entries ++ [(addr, value)]).map Prod.fst).Nodup := by
    rw [List.map_append]
    refine List.nodup_append'.mpr ⟨listed.nodup, List.nodup_singleton _, ?_⟩
    exact List.disjoint_singleton.mpr fresh
  have len : dl.len + 1 = UInt32.ofNat (entries ++ [(addr, value)]).length := by
    rw [listed.len, List.length_append, UInt32.ofNat_add]
    rfl
  have zero_iff : dl.len = 0 ↔ entries.length = 0 := by
    rw [listed.len, ← UInt32.toNat_inj, UInt32.toNat_ofNat', Nat.mod_eq_of_lt room]
    rfl
  unfold dlistAddNodeTail
  dsimp only
  rcases listed.links.last_cases with ⟨rfl, none'⟩ | ⟨last, mem, there⟩
  · rw [if_pos (zero_iff.mpr rfl)]
    refine ⟨_, rfl, nodup, ⟨rfl, none, ?_, rfl, rfl⟩, len⟩
    exact Function.update_self _ _ _
  · have filled : ¬ dl.len = 0 := by
      rw [zero_iff, List.length_eq_zero_iff]
      rintro rfl
      cases mem
    have front : Segment (Function.update dl.nodes addr (some ⟨dl.tail, none, value⟩))
        none dl.head entries (some last) none :=
      there ▸ listed.links.update_of_notMem fresh _
    obtain ⟨node, found, relinked⟩ := front.node_last mem listed.nodup
    have ne : addr ≠ last := by
      rintro rfl
      exact fresh mem
    rw [if_neg filled]
    simp only [there, Option.bind_eq_bind, Option.bind_some] at found ⊢
    rw [found]
    refine ⟨_, rfl, nodup, ?_, len⟩
    refine segment_append.mpr ⟨some last, some addr, there ▸ relinked (some addr), rfl, none, ?_,
      rfl, rfl⟩
    exact (Function.update_of_ne ne _ _).trans (Function.update_self _ _ _)

/-- A node of the list, and where its links lead. -/
theorem Dlist.Entries.node (entries : dl.Entries (before ++ (addr, value) :: after)) :
    ∃ prev, dl.nodes addr = some ⟨prev, first after, value⟩ ∧
      Segment dl.nodes none dl.head before prev (some addr) ∧
      Segment dl.nodes (some addr) (first after) after dl.tail none := by
  obtain ⟨prev, here, front, start, next, node, back⟩ := segment_append.mp entries.links
  cases start
  cases back.here_eq
  exact ⟨prev, node, front, back⟩

/-- A step of an iterator that stands on an entry. -/
theorem Dlist.Entries.next_cons (entries : dl.Entries (before ++ (addr, value) :: after)) :
    dlistNext dl ⟨first ((addr, value) :: after), .head⟩ =
      some (some addr, ⟨first after, .head⟩) := by
  obtain ⟨_, node, _⟩ := entries.node
  change (dl.nodes addr).map _ = _
  rw [node]
  rfl

/-- The addresses of the others are other addresses. -/
theorem Dlist.Entries.apart (entries : dl.Entries (before ++ (addr, value) :: after)) :
    addr ∉ before.map Prod.fst ∧ addr ∉ after.map Prod.fst ∧
      (before.map Prod.fst).Disjoint (after.map Prod.fst) ∧
      (before.map Prod.fst).Nodup ∧ (after.map Prod.fst).Nodup := by
  have nodup := entries.nodup
  rw [List.map_append, List.map_cons, List.nodup_append'] at nodup
  obtain ⟨front, back, disjoint⟩ := nodup
  obtain ⟨other, back⟩ := List.nodup_cons.mp back
  rw [List.disjoint_cons_right] at disjoint
  exact ⟨disjoint.1, other, disjoint.2, front, back⟩

/-- The search goes through the values before the key. -/
theorem searchLoop_of_entries [DecidableEq α] (passed : List (Nat × α))
    (entries : dl.Entries (passed ++ (before ++ (addr, value) :: after)))
    (other : value ∉ before.map Prod.snd) {fuel : Nat} (enough : before.length < fuel) :
    dlistSearchLoop dl value fuel ⟨first (before ++ (addr, value) :: after), .head⟩ =
      some (some addr) := by
  induction before generalizing passed fuel with
  | nil =>
      obtain ⟨_, node, _⟩ := entries.node
      cases fuel with
      | zero => exact absurd enough (Nat.not_lt_zero _)
      | succ fuel =>
          unfold dlistSearchLoop
          simp only [List.nil_append, entries.next_cons, Option.bind_eq_bind, Option.bind_some,
            node, if_true]
  | cons entry before ih =>
      rcases entry with ⟨addr', value'⟩
      rw [List.cons_append] at entries
      obtain ⟨_, node, _⟩ := entries.node
      rw [List.map_cons, List.mem_cons, not_or] at other
      cases fuel with
      | zero => exact absurd enough (Nat.not_lt_zero _)
      | succ fuel =>
          unfold dlistSearchLoop
          simp only [List.cons_append, entries.next_cons, Option.bind_eq_bind, Option.bind_some,
            node, other.1, if_false]
          have entries' : dl.Entries
              ((passed ++ [(addr', value')]) ++ (before ++ (addr, value) :: after)) := by
            rwa [List.append_assoc]
          exact ih _ entries' other.2 (Nat.lt_of_succ_lt_succ enough)

theorem Dlist.Entries.searchKey [DecidableEq α]
    (entries : dl.Entries (before ++ (addr, value) :: after))
    (other : value ∉ before.map Prod.snd) {fuel : Nat} (enough : before.length < fuel) :
    dlistSearchKey fuel dl true value = some (some addr) := by
  unfold dlistSearchKey dlistGetIterator dlistRewind
  rw [entries.links.here_eq]
  exact searchLoop_of_entries [] entries other enough

/-- A new link behind the nodes of a front part. -/
theorem setNext_links {prev : Link} (next : Link)
    (front : Segment dl.nodes none dl.head before prev (some addr))
    (nodup : (before.map Prod.fst).Nodup) :
    ∃ dl', dl.setNext prev next = some dl' ∧ dl'.tail = dl.tail ∧ dl'.len = dl.len ∧
      (∀ addr', addr' ∉ before.map Prod.fst → dl'.nodes addr' = dl.nodes addr') ∧
      Segment dl'.nodes none dl'.head before prev next := by
  rcases front.last_cases with ⟨rfl, rfl⟩ | ⟨last, mem, rfl⟩
  · exact ⟨_, rfl, rfl, rfl, fun _ _ => rfl, rfl, rfl⟩
  · obtain ⟨node, there, relinked⟩ := front.node_last mem nodup
    refine ⟨{ dl with
      nodes := Function.update dl.nodes last (some { node with next := next }) },
      ?_, rfl, rfl, ?_, relinked next⟩
    · simp only [Dlist.setNext, there, Option.map_some]
    · intro addr' other
      have ne : addr' ≠ last := by
        rintro rfl
        exact other mem
      exact Function.update_of_ne ne _ _

/-- A new link before the nodes of a back part. -/
theorem setPrev_links (prev : Link)
    (back : Segment dl.nodes (some addr) (first after) after dl.tail none)
    (nodup : (after.map Prod.fst).Nodup) :
    ∃ dl', dl.setPrev (first after) prev = some dl' ∧ dl'.head = dl.head ∧ dl'.len = dl.len ∧
      (∀ addr', addr' ∉ after.map Prod.fst → dl'.nodes addr' = dl.nodes addr') ∧
      Segment dl'.nodes prev (first after) after dl'.tail none := by
  cases after with
  | nil => exact ⟨_, rfl, rfl, rfl, fun _ _ => rfl, rfl, rfl⟩
  | cons entry after =>
      rcases entry with ⟨next, v⟩
      obtain ⟨apart, nodup⟩ := List.nodup_cons.mp nodup
      obtain ⟨node, there, relinked⟩ := back.node_first apart
      refine ⟨{ dl with
        nodes := Function.update dl.nodes next (some { node with prev := prev }) },
        ?_, rfl, rfl, ?_, relinked prev⟩
      · simp only [Dlist.setPrev, first, there, Option.map_some]
      · intro addr' other
        have ne : addr' ≠ next := by
          rintro rfl
          exact other List.mem_cons_self
        exact Function.update_of_ne ne _ _

/-- `dlist_delete_node` takes an entry out, wherever it stands, and hands on its value. -/
theorem Dlist.Entries.delete (entries : dl.Entries (before ++ (addr, value) :: after)) :
    ∃ dl', dlistDeleteNode dl addr = some (dl', value) ∧ dl'.Entries (before ++ after) := by
  obtain ⟨prev, node, front, back⟩ := entries.node
  obtain ⟨fore, aft, disjoint, nodupFore, nodupAft⟩ := entries.apart
  obtain ⟨dl₁, linked₁, tail₁, len₁, same₁, front₁⟩ :=
    setNext_links (first after) front nodupFore
  have back₁ : Segment dl₁.nodes (some addr) (first after) after dl₁.tail none := by
    rw [tail₁]
    refine back.congr fun addr' mem => same₁ addr' ?_
    exact fun mem' => disjoint mem' mem
  obtain ⟨dl₂, linked₂, head₂, len₂, same₂, back₂⟩ :=
    setPrev_links prev back₁ nodupAft
  have front₂ : Segment dl₂.nodes none dl₂.head before prev (first after) := by
    rw [head₂]
    refine front₁.congr fun addr' mem => same₂ addr' ?_
    exact fun mem' => disjoint mem mem'
  have node₁ : dl₁.nodes addr = some ⟨prev, first after, value⟩ := (same₁ addr fore).trans node
  have node₂ : dl₂.nodes addr = some ⟨prev, first after, value⟩ := (same₂ addr aft).trans node₁
  refine ⟨{ dl₂ with nodes := Function.update dl₂.nodes addr none, len := dl₂.len - 1 },
    ?_, ?_, ?_, ?_⟩
  · unfold dlistDeleteNode
    simp only [Option.bind_eq_bind, Option.bind_some, node, linked₁, node₁, linked₂, node₂]
  · rw [List.map_append]
    exact List.nodup_append'.mpr ⟨nodupFore, nodupAft, disjoint⟩
  · exact segment_append.mpr ⟨prev, first after, front₂.update_of_notMem fore none,
      back₂.update_of_notMem aft none⟩
  · change dl₂.len - 1 = _
    rw [len₂, len₁, entries.len, List.length_append, List.length_append, List.length_cons,
      ← Nat.add_assoc, UInt32.ofNat_add]
    exact UInt32.add_sub_cancel _ _

end Verben
