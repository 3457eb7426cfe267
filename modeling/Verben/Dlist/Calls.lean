import Verben.Dlist.Entries
import Verben.Lib.Transition

/-!
# A list in use

The functions of `src/dlist.c` on one list, called in any order with one iterator, against a
sequence of entries with a cursor. No call follows a null pointer or one to a node that was freed,
and each returns what the sequence says (`dlist_refines`), as long as the node that the iterator
stands before is not deleted. Walking, indexing and adding from the tail are walking, indexing and
adding from the head of the mirrored list.
-/

namespace Verben

open Links Transition

variable {α : Type}

/-- The list seen from the other end. -/
def Dlist.mirror (dl : Dlist α) : Dlist α := ⟨Links.mirror dl.nodes, dl.tail, dl.head, dl.len⟩

@[simp] theorem Dlist.mirror_mirror (dl : Dlist α) : dl.mirror.mirror = dl := by
  unfold Dlist.mirror
  rw [Links.mirror_mirror]

section Entries

variable {dl : Dlist α} {entries before after : List (Nat × α)} {addr old : Nat} {value : α}

theorem Dlist.Entries.mirror (listed : dl.Entries entries) : dl.mirror.Entries entries.reverse := by
  refine ⟨?_, listed.links.mirror, ?_⟩
  · rw [List.map_reverse, List.nodup_reverse]
    exact listed.nodup
  · rw [List.length_reverse]
    exact listed.len

theorem Dlist.Entries.of_mirror (listed : dl.mirror.Entries entries.reverse) :
    dl.Entries entries := by
  have twice := listed.mirror
  rwa [dl.mirror_mirror, List.reverse_reverse] at twice

/-! ## Adding -/

theorem mirror_addNodeHead (dl : Dlist α) (malloc : Option Nat) (value : α) :
    (dlistAddNodeHead dl malloc value).map (fun (ok, dl') => (ok, dl'.mirror)) =
      dlistAddNodeTail dl.mirror malloc value := by
  unfold dlistAddNodeHead dlistAddNodeTail
  cases malloc with
  | none => rfl
  | some addr =>
      change Option.map _ (if dl.len = 0 then _ else _) = if dl.len = 0 then _ else _
      split
      · simp only [Option.map_some, Dlist.mirror, mirror_update]
        rfl
      · cases start : dl.head with
        | none => simp [Dlist.mirror, start]
        | some front =>
            obtain ⟨nodes, new⟩ : ∃ nodes, Function.update dl.nodes addr
                (some ⟨none, some front, value⟩) = nodes := ⟨_, rfl⟩
            have seen : Function.update (Links.mirror dl.nodes) addr
                (some ⟨some front, none, value⟩) = Links.mirror nodes :=
              new ▸ (mirror_update dl.nodes addr ⟨none, some front, value⟩).symm
            have there : Links.mirror nodes front = (nodes front).map Node.mirror := rfl
            simp only [Dlist.mirror, start, Option.bind_eq_bind, Option.bind_some, new, seen, there]
            cases nodes front with
            | none => rfl
            | some node =>
                simp only [Option.bind_some, Option.map_some, mirror_update]
                rfl

theorem Dlist.Entries.addHead (listed : dl.Entries entries)
    (fresh : addr ∉ entries.map Prod.fst) (room : entries.length < 2 ^ 32) (value : α) :
    ∃ dl', dlistAddNodeHead dl (some addr) value = some (true, dl') ∧
      dl'.Entries ((addr, value) :: entries) := by
  have fresh' : addr ∉ entries.reverse.map Prod.fst := by
    rwa [List.map_reverse, List.mem_reverse]
  obtain ⟨seen, added, listed'⟩ : ∃ dl', dlistAddNodeTail dl.mirror (some addr) value =
      some (true, dl') ∧ dl'.Entries (entries.reverse ++ [(addr, value)]) :=
    listed.mirror.add fresh' (by rwa [List.length_reverse])
  rw [← mirror_addNodeHead] at added
  obtain ⟨⟨ok, dl'⟩, done, same⟩ := Option.map_eq_some_iff.mp added
  simp only [Prod.mk.injEq] at same
  obtain ⟨rfl, rfl⟩ := same
  refine ⟨dl', done, Dlist.Entries.of_mirror ?_⟩
  rwa [List.reverse_cons]

/-- The node before a new one links on to it, if there is one. -/
theorem linkNext_links {prev next start : Link}
    (front : Segment dl.nodes none start before prev next) (nodup : (before.map Prod.fst).Nodup) :
    ∃ dl', dl.linkNext prev addr = some dl' ∧ dl'.head = dl.head ∧ dl'.tail = dl.tail ∧
      dl'.len = dl.len ∧
      (∀ addr', addr' ∉ before.map Prod.fst → dl'.nodes addr' = dl.nodes addr') ∧
      Segment dl'.nodes none (if before.isEmpty then some addr else start) before prev
        (some addr) := by
  rcases front.last_cases with ⟨rfl, rfl⟩ | ⟨last, mem, rfl⟩
  · exact ⟨dl, rfl, rfl, rfl, rfl, fun _ _ => rfl, rfl, rfl⟩
  · obtain ⟨node, there, relinked⟩ := front.node_last mem nodup
    have filled : ¬ before.isEmpty := by
      rw [List.isEmpty_iff]
      rintro rfl
      cases mem
    refine ⟨{ dl with
      nodes := Function.update dl.nodes last (some { node with next := some addr }) },
      ?_, rfl, rfl, rfl, ?_, ?_⟩
    · simp only [Dlist.linkNext, there, Option.map_some]
    · intro addr' other
      have ne : addr' ≠ last := by
        rintro rfl
        exact other mem
      exact Function.update_of_ne ne _ _
    · rw [if_neg filled]
      exact relinked _

/-- The node behind a new one links back to it, if there is one. -/
theorem linkPrev_links {prev last : Link}
    (back : Segment dl.nodes prev (first after) after last none)
    (nodup : (after.map Prod.fst).Nodup) :
    ∃ dl', dl.linkPrev (first after) addr = some dl' ∧ dl'.head = dl.head ∧
      dl'.tail = dl.tail ∧ dl'.len = dl.len ∧
      (∀ addr', addr' ∉ after.map Prod.fst → dl'.nodes addr' = dl.nodes addr') ∧
      Segment dl'.nodes (some addr) (first after) after
        (if after.isEmpty then some addr else last) none := by
  cases after with
  | nil => exact ⟨dl, rfl, rfl, rfl, rfl, fun _ _ => rfl, rfl, rfl⟩
  | cons entry after =>
      rcases entry with ⟨next, v⟩
      obtain ⟨apart, nodup⟩ := List.nodup_cons.mp nodup
      obtain ⟨node, there, relinked⟩ := back.node_first apart
      refine ⟨{ dl with
        nodes := Function.update dl.nodes next (some { node with prev := some addr }) },
        ?_, rfl, rfl, rfl, ?_, relinked _⟩
      · simp only [Dlist.linkPrev, first, there, Option.map_some]
      · intro addr' other
        have ne : addr' ≠ next := by
          rintro rfl
          exact other List.mem_cons_self
        exact Function.update_of_ne ne _ _

/-- A new node between two parts of a list. -/
theorem link_between (dl : Dlist α) (value : α) {prev head tail : Link}
    (front : Segment dl.nodes none head before prev (first after))
    (back : Segment dl.nodes prev (first after) after tail none)
    (nodup : ((before ++ after).map Prod.fst).Nodup)
    (fresh : addr ∉ (before ++ after).map Prod.fst)
    (new : dl.nodes addr = some ⟨prev, first after, value⟩)
    (headed : dl.head = if before.isEmpty then some addr else head)
    (tailed : dl.tail = if after.isEmpty then some addr else tail) :
    ∃ dl', (dl.linkNext prev addr).bind (fun dl' => dl'.linkPrev (first after) addr) = some dl' ∧
      dl'.len = dl.len ∧
      Segment dl'.nodes none dl'.head (before ++ (addr, value) :: after) dl'.tail none := by
  rw [List.map_append] at nodup fresh
  obtain ⟨nodupFore, nodupAft, disjoint⟩ := List.nodup_append'.mp nodup
  rw [List.mem_append, not_or] at fresh
  obtain ⟨dl₁, linked₁, head₁, tail₁, len₁, same₁, front₁⟩ := linkNext_links front nodupFore
  have back₁ : Segment dl₁.nodes prev (first after) after tail none :=
    back.congr fun addr' mem => same₁ addr' fun mem' => disjoint mem' mem
  obtain ⟨dl₂, linked₂, head₂, tail₂, len₂, same₂, back₂⟩ := linkPrev_links back₁ nodupAft
  have front₂ := front₁.congr fun addr' mem => same₂ addr' fun mem' => disjoint mem mem'
  refine ⟨dl₂, ?_, len₂.trans len₁, ?_⟩
  · rw [linked₁, Option.bind_some, linked₂]
  · rw [head₂, head₁, headed, tail₂, tail₁, tailed]
    refine segment_append.mpr ⟨prev, some addr, front₂, rfl, first after, ?_, back₂⟩
    rw [same₂ addr fresh.2, same₁ addr fresh.1, new]

/-- One more entry, which has a new address. -/
theorem Dlist.Entries.grown (listed : dl.Entries (before ++ after)) (dl' : Dlist α)
    (fresh : addr ∉ (before ++ after).map Prod.fst) (len : dl'.len = dl.len + 1)
    (links : Segment dl'.nodes none dl'.head (before ++ (addr, value) :: after) dl'.tail none) :
    dl'.Entries (before ++ (addr, value) :: after) := by
  refine ⟨?_, links, ?_⟩
  · have moved : ((before ++ (addr, value) :: after).map Prod.fst).Perm
        (addr :: (before ++ after).map Prod.fst) :=
      List.perm_middle.map Prod.fst
    exact moved.nodup_iff.mpr (List.nodup_cons.mpr ⟨fresh, listed.nodup⟩)
  · rw [len, listed.len, List.length_append, List.length_append, List.length_cons,
      ← Nat.add_assoc, UInt32.ofNat_add _ 1]
    rfl

variable {v : α}

/-- `dlist_insert_node` behind a node. -/
theorem Dlist.Entries.insertAfter (listed : dl.Entries (before ++ (old, v) :: after))
    (fresh : addr ∉ (before ++ (old, v) :: after).map Prod.fst) :
    ∃ dl', dlistInsertNode dl (some addr) old value true = some (true, dl') ∧
      dl'.Entries (before ++ (old, v) :: (addr, value) :: after) := by
  obtain ⟨prev, node, front, back⟩ := listed.node
  obtain ⟨fore, aft, _⟩ := listed.apart
  have split : before ++ (old, v) :: after = (before ++ [(old, v)]) ++ after := by
    rw [List.append_assoc, List.singleton_append]
  rw [split] at listed fresh
  have front' : Segment dl.nodes none dl.head (before ++ [(old, v)]) (some old) (first after) :=
    segment_append.mpr ⟨prev, some old, front, rfl, first after, node, rfl, rfl⟩
  have last : dl.tail = some old ↔ after.isEmpty := by
    rw [List.isEmpty_iff]
    rcases back.last_cases with ⟨rfl, same⟩ | ⟨addr', mem, same⟩
    · exact iff_of_true same rfl
    · rw [same]
      refine iff_of_false ?_ ?_
      · rintro ⟨⟩
        exact aft mem
      · rintro rfl
        cases mem
  have apart := List.map_append ▸ fresh
  rw [List.mem_append, not_or] at apart
  obtain ⟨dl', linked, len, links⟩ := link_between
    { dl with
      nodes := Function.update dl.nodes addr (some ⟨some old, first after, value⟩)
      tail := if dl.tail = some old then some addr else dl.tail } value
    (front'.update_of_notMem apart.1 _) (back.update_of_notMem apart.2 _) listed.nodup fresh
    (Function.update_self ..) (by simp) (by simp only [last])
  refine ⟨{ dl' with len := dl'.len + 1 }, ?_, ?_⟩
  · simp only [dlistInsertNode, node, Option.bind_eq_bind, Option.bind_some, if_true, true_and,
      Bool.not_true, Bool.false_eq_true, false_and, if_false]
    rw [← Option.bind_assoc, linked]
    rfl
  · have grown := listed.grown { dl' with len := dl'.len + 1 } fresh
      (congrArg (· + 1) len) links
    rwa [List.append_assoc, List.singleton_append] at grown

/-- `dlist_insert_node` before a node. -/
theorem Dlist.Entries.insertBefore (listed : dl.Entries (before ++ (old, v) :: after))
    (fresh : addr ∉ (before ++ (old, v) :: after).map Prod.fst) :
    ∃ dl', dlistInsertNode dl (some addr) old value false = some (true, dl') ∧
      dl'.Entries (before ++ (addr, value) :: (old, v) :: after) := by
  obtain ⟨prev, node, front, back⟩ := listed.node
  obtain ⟨fore, aft, _⟩ := listed.apart
  have back' : Segment dl.nodes prev (first ((old, v) :: after)) ((old, v) :: after) dl.tail none :=
    ⟨rfl, first after, node, back⟩
  have start : dl.head = some old ↔ before.isEmpty := by
    rw [List.isEmpty_iff, listed.links.here_eq]
    cases before with
    | nil => exact iff_of_true rfl rfl
    | cons entry before =>
        refine iff_of_false ?_ (List.cons_ne_nil _ _)
        rintro ⟨⟩
        exact fore List.mem_cons_self
  have apart := List.map_append ▸ fresh
  rw [List.mem_append, not_or] at apart
  obtain ⟨dl', linked, len, links⟩ := link_between
    { dl with
      nodes := Function.update dl.nodes addr (some ⟨prev, some old, value⟩)
      head := if dl.head = some old then some addr else dl.head } value
    (front.update_of_notMem apart.1 _) (back'.update_of_notMem apart.2 _) listed.nodup fresh
    (Function.update_self ..) (by simp only [start]) (by simp)
  refine ⟨{ dl' with len := dl'.len + 1 }, ?_, ?_⟩
  · simp only [dlistInsertNode, node, Option.bind_eq_bind, Option.bind_some, if_false, false_and,
      Bool.not_false, Bool.false_eq_true, true_and]
    simp only [first] at linked
    rw [← Option.bind_assoc, linked]
    rfl
  · exact listed.grown { dl' with len := dl'.len + 1 } fresh (congrArg (· + 1) len) links

/-! ## Walking -/

/-- What comes behind an address, in a direction. -/
def behind (entries : List (Nat × α)) (addr : Nat) : DlistDirection → Link
  | .head => first (entries.dropWhile (·.1 ≠ addr)).tail
  | .tail => first (entries.reverse.dropWhile (·.1 ≠ addr)).tail

theorem dropWhile_of_split (fore : addr ∉ before.map Prod.fst) :
    (before ++ (addr, value) :: after).dropWhile (·.1 ≠ addr) = (addr, value) :: after := by
  induction before with
  | nil => simp
  | cons entry before ih =>
      rw [List.map_cons, List.mem_cons, not_or] at fore
      have ne : entry.1 ≠ addr := Ne.symm fore.1
      rw [List.cons_append, List.dropWhile_cons_of_pos (by simpa using ne)]
      exact ih fore.2

theorem behind_head (fore : addr ∉ before.map Prod.fst) :
    behind (before ++ (addr, value) :: after) addr .head = first after := by
  simp only [behind, dropWhile_of_split fore, List.tail_cons]

theorem behind_tail (aft : addr ∉ after.map Prod.fst) :
    behind (before ++ (addr, value) :: after) addr .tail = first before.reverse := by
  have fore : addr ∉ after.reverse.map Prod.fst := by
    rwa [List.map_reverse, List.mem_reverse]
  simp only [behind, List.reverse_append, List.reverse_cons, List.append_assoc,
    List.singleton_append, dropWhile_of_split fore, List.tail_cons]

theorem exists_split (mem : addr ∈ entries.map Prod.fst) :
    ∃ before value after, entries = before ++ (addr, value) :: after := by
  obtain ⟨⟨_, value⟩, there, rfl⟩ := List.mem_map.mp mem
  obtain ⟨before, after, split⟩ := List.append_of_mem there
  exact ⟨before, value, after, split⟩

/-- A node of the list, by what comes behind it in both directions. -/
theorem Dlist.Entries.links_of_mem (listed : dl.Entries entries)
    (mem : addr ∈ entries.map Prod.fst) :
    ∃ node, dl.nodes addr = some node ∧ node.next = behind entries addr .head ∧
      node.prev = behind entries addr .tail := by
  obtain ⟨before, value, after, rfl⟩ := exists_split mem
  obtain ⟨fore, aft, _⟩ := listed.apart
  obtain ⟨prev, node, front, _⟩ := listed.node
  refine ⟨_, node, (behind_head fore).symm, ?_⟩
  rw [behind_tail aft]
  exact front.mirror.here_eq

/-- `dlist_next` on a node of the list. -/
theorem Dlist.Entries.next_of_mem (listed : dl.Entries entries)
    (mem : addr ∈ entries.map Prod.fst) (direction : DlistDirection) :
    dlistNext dl ⟨some addr, direction⟩ =
      some (some addr, ⟨behind entries addr direction, direction⟩) := by
  obtain ⟨node, there, next, prev⟩ := listed.links_of_mem mem
  simp only [dlistNext, there, Option.map_some]
  cases direction
  · rw [← next]
  · rw [← prev]

theorem Dlist.Entries.indexLoop (passed : List (Nat × α)) (listed : dl.Entries (passed ++ after))
    (n : Nat) : dlistIndexLoop dl .head n (first after) = some (after[n]?.map Prod.fst) := by
  induction n generalizing passed after with
  | zero => cases after <;> rfl
  | succ n ih =>
      cases after with
      | nil => rfl
      | cons entry after =>
          rcases entry with ⟨addr, value⟩
          obtain ⟨_, node, _⟩ := listed.node
          have listed' : dl.Entries ((passed ++ [(addr, value)]) ++ after) := by
            rwa [List.append_assoc]
          simp only [dlistIndexLoop, first, node, Option.bind_eq_bind, Option.bind_some]
          exact ih _ listed'

theorem dlistIndexLoop_mirror (dl : Dlist α) (n : Nat) (link : Link) :
    dlistIndexLoop dl .tail n link = dlistIndexLoop dl.mirror .head n link := by
  induction n generalizing link with
  | zero => rfl
  | succ n ih =>
      cases link with
      | none => rfl
      | some addr =>
          have there : dl.mirror.nodes addr = (dl.nodes addr).map Node.mirror := rfl
          simp only [dlistIndexLoop, there]
          cases dl.nodes addr with
          | none => rfl
          | some node => exact ih node.prev

/-- The entry at an index, which counts from the tail if it is negative. -/
def entryAt (entries : List (Nat × α)) (index : Int) : Option (Nat × α) :=
  if index < 0 then entries.reverse[(-index - 1).toNat]? else entries[index.toNat]?

theorem Dlist.Entries.index (listed : dl.Entries entries) {index : Int} (least : index ≠ -2 ^ 31) :
    dlistIndex dl index = some ((entryAt entries index).map Prod.fst) := by
  unfold dlistIndex entryAt
  split
  · have start : dl.tail = first entries.reverse := listed.mirror.links.here_eq
    rw [dlistIndexLoop_mirror, start]
    exact listed.mirror.indexLoop [] _
  · rw [listed.links.here_eq]
    exact listed.indexLoop [] _

/-- `dlist_search_key` finds the first node with the key, or none. -/
theorem Dlist.Entries.searchLoop [DecidableEq α] (passed : List (Nat × α))
    (listed : dl.Entries (passed ++ after)) (key : α) {fuel : Nat} (enough : after.length < fuel) :
    dlistSearchLoop dl key fuel ⟨first after, .head⟩ =
      some ((after.find? (key = ·.2)).map Prod.fst) := by
  induction after generalizing passed fuel with
  | nil =>
      cases fuel with
      | zero => exact absurd enough (Nat.not_lt_zero _)
      | succ fuel => rfl
  | cons entry after ih =>
      rcases entry with ⟨addr, value⟩
      obtain ⟨_, node, _⟩ := listed.node
      have listed' : dl.Entries ((passed ++ [(addr, value)]) ++ after) := by
        rwa [List.append_assoc]
      cases fuel with
      | zero => exact absurd enough (Nat.not_lt_zero _)
      | succ fuel =>
          unfold dlistSearchLoop
          simp only [listed.next_cons, node, Option.bind_eq_bind, Option.bind_some]
          by_cases same : key = value
          · rw [if_pos same, List.find?_cons_of_pos (by simpa using same)]
            rfl
          · rw [if_neg same, List.find?_cons_of_neg (by simpa using same)]
            exact ih _ listed' (Nat.lt_of_succ_lt_succ enough)

end Entries

/-! ## Calls -/

inductive DlistCall (α : Type) : Type
  | addHead (malloc : Option Nat) (value : α)
  | addTail (malloc : Option Nat) (value : α)
  | insert (malloc : Option Nat) (oldNode : Nat) (value : α) (after : Bool)
  | delete (node : Nat)
  | rewind
  | rewindTail
  | next
  | search (malloc : Bool) (key : α)
  | index (index : Int)

/-- What a call returns: whether a node was added; the value that goes to the `free` method; or a
node. -/
inductive DlistReply (α : Type) : Type
  | added (ok : Bool)
  | freed (value : Option α)
  | node (node : Link)

/-- A list with an iterator, and what the calls returned. -/
structure DlistUser (α : Type) : Type where
  list : Dlist α
  iter : DlistIter
  replies : List (DlistReply α)

def DlistUser.init : DlistUser α := ⟨dlistInit, dlistRewind (dlistInit : Dlist α), []⟩

def DlistUser.reply (u : DlistUser α) (list : Dlist α) (reply : DlistReply α) : DlistUser α :=
  { u with list := list, replies := u.replies ++ [reply] }

/-- A call. The search of a list ends behind its last node. -/
def DlistUser.step [DecidableEq α] (u : DlistUser α) : DlistCall α → Option (DlistUser α)
  | .addHead malloc value =>
      (dlistAddNodeHead u.list malloc value).map fun (ok, list) => u.reply list (.added ok)
  | .addTail malloc value =>
      (dlistAddNodeTail u.list malloc value).map fun (ok, list) => u.reply list (.added ok)
  | .insert malloc oldNode value after =>
      (dlistInsertNode u.list malloc oldNode value after).map fun (ok, list) =>
        u.reply list (.added ok)
  | .delete node =>
      (dlistDeleteNode u.list node).map fun (list, value) => u.reply list (.freed (some value))
  | .rewind => some { u with iter := dlistRewind u.list }
  | .rewindTail => some { u with iter := dlistRewindTail u.list }
  | .next =>
      (dlistNext u.list u.iter).map fun (node, iter) =>
        { u with iter := iter, replies := u.replies ++ [.node node] }
  | .search malloc key =>
      (dlistSearchKey (u.list.len.toNat + 1) u.list malloc key).map fun node =>
        u.reply u.list (.node node)
  | .index index => (dlistIndex u.list index).map fun node => u.reply u.list (.node node)

/-- A sequence of entries with a cursor, and what the calls return on it. -/
structure Listing (α : Type) : Type where
  entries : List (Nat × α)
  cursor : Link
  direction : DlistDirection
  replies : List (DlistReply α)

def Listing.init : Listing α := ⟨[], none, .head, []⟩

def Listing.reply (l : Listing α) (entries : List (Nat × α)) (reply : DlistReply α) : Listing α :=
  { l with entries := entries, replies := l.replies ++ [reply] }

/-- Put an entry beside one. -/
def insertBeside (entries : List (Nat × α)) (old : Nat) (new : Nat × α) (after : Bool) :
    List (Nat × α) :=
  entries.flatMap fun entry =>
    if entry.1 = old then (if after then [entry, new] else [new, entry]) else [entry]

def Listing.step [DecidableEq α] (l : Listing α) : DlistCall α → Option (Listing α)
  | .addHead none _ => some (l.reply l.entries (.added false))
  | .addHead (some addr) value => some (l.reply ((addr, value) :: l.entries) (.added true))
  | .addTail none _ => some (l.reply l.entries (.added false))
  | .addTail (some addr) value => some (l.reply (l.entries ++ [(addr, value)]) (.added true))
  | .insert none _ _ _ => some (l.reply l.entries (.added false))
  | .insert (some addr) oldNode value after =>
      some (l.reply (insertBeside l.entries oldNode (addr, value) after) (.added true))
  | .delete node =>
      some (l.reply (l.entries.filter (·.1 ≠ node))
        (.freed ((l.entries.find? (·.1 = node)).map Prod.snd)))
  | .rewind => some { l with cursor := first l.entries, direction := .head }
  | .rewindTail => some { l with cursor := first l.entries.reverse, direction := .tail }
  | .next =>
      some { l with
        cursor := l.cursor.bind fun addr => behind l.entries addr l.direction
        replies := l.replies ++ [.node l.cursor] }
  | .search _ key =>
      some (l.reply l.entries (.node ((l.entries.find? (key = ·.2)).map Prod.fst)))
  | .index index =>
      some (l.reply l.entries (.node ((entryAt l.entries index).map Prod.fst)))

/-- `malloc` returns no address of a node of the list, whose `len` counts one more. -/
def Listing.Fresh (l : Listing α) (malloc : Option Nat) : Prop :=
  ∀ addr ∈ malloc, addr ∉ l.entries.map Prod.fst ∧ l.entries.length + 1 < 2 ^ 32

/-- The calls that the functions are made for: nodes are nodes of the list, the one that the
iterator stands before is not deleted, and there is memory for the iterator of a search. -/
def Listing.Allows (l : Listing α) : DlistCall α → Prop
  | .addHead malloc _ => l.Fresh malloc
  | .addTail malloc _ => l.Fresh malloc
  | .insert malloc oldNode _ _ => l.Fresh malloc ∧ oldNode ∈ l.entries.map Prod.fst
  | .delete node => node ∈ l.entries.map Prod.fst ∧ l.cursor ≠ some node
  | .search malloc _ => malloc = true
  | .index index => index ≠ -2 ^ 31
  | _ => True

instance (l : Listing α) (malloc : Option Nat) : Decidable (l.Fresh malloc) :=
  inferInstanceAs (Decidable (∀ addr ∈ malloc, _ ∧ _))

instance (l : Listing α) : (call : DlistCall α) → Decidable (l.Allows call)
  | .addHead malloc _ => inferInstanceAs (Decidable (l.Fresh malloc))
  | .addTail malloc _ => inferInstanceAs (Decidable (l.Fresh malloc))
  | .insert malloc _ _ _ => inferInstanceAs (Decidable (l.Fresh malloc ∧ _))
  | .delete _ => inferInstanceAs (Decidable (_ ∧ _))
  | .index _ => inferInstanceAs (Decidable (_ ≠ _))
  | .rewind => .isTrue trivial
  | .rewindTail => .isTrue trivial
  | .next => .isTrue trivial
  | .search _ _ => inferInstanceAs (Decidable (_ = _))

/-- The list in memory is the sequence. -/
structure DlistUser.Shows (u : DlistUser α) (l : Listing α) : Prop where
  listed : u.list.Entries l.entries
  short : l.entries.length < 2 ^ 32
  next : u.iter.next = l.cursor
  direction : u.iter.direction = l.direction
  inside : ∀ addr ∈ l.cursor, addr ∈ l.entries.map Prod.fst
  replies : u.replies = l.replies

section Simulation

variable {u : DlistUser α} {l : Listing α} {entries before after : List (Nat × α)} {addr old : Nat}
  {v : α}

theorem insertBeside_of_notMem (apart : old ∉ entries.map Prod.fst) (new : Nat × α)
    (after : Bool) : insertBeside entries old new after = entries := by
  unfold insertBeside
  induction entries with
  | nil => rfl
  | cons entry entries ih =>
      rw [List.map_cons, List.mem_cons, not_or] at apart
      rw [List.flatMap_cons, if_neg (Ne.symm apart.1), ih apart.2]
      rfl

theorem insertBeside_of_split (fore : old ∉ before.map Prod.fst) (aft : old ∉ after.map Prod.fst)
    (new : Nat × α) (behind : Bool) :
    insertBeside (before ++ (old, v) :: after) old new behind =
      before ++ (if behind then [(old, v), new] else [new, (old, v)]) ++ after := by
  have front := insertBeside_of_notMem fore new behind
  have back := insertBeside_of_notMem aft new behind
  unfold insertBeside at front back ⊢
  rw [List.flatMap_append, List.flatMap_cons, front, back, if_pos rfl, List.append_assoc]

/-- Beside an entry, the new one joins the others. -/
theorem insertBeside_perm (nodup : (entries.map Prod.fst).Nodup)
    (mem : old ∈ entries.map Prod.fst) (new : Nat × α) (behind : Bool) :
    (insertBeside entries old new behind).Perm (new :: entries) := by
  obtain ⟨before, value, after, rfl⟩ := exists_split mem
  rw [List.map_append, List.map_cons, List.nodup_middle, List.nodup_cons, List.mem_append,
    not_or] at nodup
  rw [insertBeside_of_split nodup.1.1 nodup.1.2, List.append_assoc]
  cases behind with
  | true =>
      rw [if_pos rfl, List.cons_append, List.singleton_append, List.append_cons]
      exact List.perm_middle.trans (by rw [List.append_assoc, List.singleton_append])
  | false =>
      rw [if_neg Bool.false_ne_true, List.cons_append, List.singleton_append]
      exact List.perm_middle

/-- `dlist_insert_node`, beside any node of the list. -/
theorem Dlist.Entries.insert {dl : Dlist α} (listed : dl.Entries entries)
    (mem : old ∈ entries.map Prod.fst) (fresh : addr ∉ entries.map Prod.fst) (behind : Bool) :
    ∃ dl', dlistInsertNode dl (some addr) old v behind = some (true, dl') ∧
      dl'.Entries (insertBeside entries old (addr, v) behind) := by
  obtain ⟨before, value, after, rfl⟩ := exists_split mem
  obtain ⟨fore, aft, _⟩ := listed.apart
  rw [insertBeside_of_split fore aft]
  cases behind with
  | true =>
      rw [if_pos rfl, List.append_assoc]
      exact listed.insertAfter fresh
  | false =>
      rw [if_neg Bool.false_ne_true, List.append_assoc]
      exact listed.insertBefore fresh

theorem Dlist.Entries.deleteAt {dl : Dlist α} (listed : dl.Entries entries)
    (mem : addr ∈ entries.map Prod.fst) :
    ∃ dl' value, dlistDeleteNode dl addr = some (dl', value) ∧
      dl'.Entries (entries.filter (·.1 ≠ addr)) ∧
      (entries.find? (·.1 = addr)).map Prod.snd = some value := by
  obtain ⟨before, value, after, rfl⟩ := exists_split mem
  obtain ⟨fore, aft, _⟩ := listed.apart
  obtain ⟨dl', deleted, listed'⟩ := listed.delete
  have others : ∀ {part : List (Nat × α)}, addr ∉ part.map Prod.fst →
      part.filter (·.1 ≠ addr) = part ∧ part.find? (·.1 = addr) = none := by
    intro part apart
    have ne : ∀ entry ∈ part, entry.1 ≠ addr := by
      rintro entry there rfl
      exact apart (List.mem_map_of_mem there)
    refine ⟨List.filter_eq_self.mpr fun entry there => by simpa using ne entry there, ?_⟩
    exact List.find?_eq_none.mpr fun entry there => by simpa using ne entry there
  refine ⟨dl', value, deleted, ?_, ?_⟩
  · rw [List.filter_append, List.filter_cons_of_neg (by simp), (others fore).1, (others aft).1]
    exact listed'
  · rw [List.find?_append, (others fore).2, List.find?_cons_of_pos (by simp)]
    rfl

theorem first_mem {link : Nat} (start : first entries = some link) :
    link ∈ entries.map Prod.fst := by
  cases entries with
  | nil => cases start
  | cons entry entries =>
      cases start
      exact List.mem_cons_self

theorem behind_mem {direction : DlistDirection} {link : Nat}
    (leads : behind entries addr direction = some link) : link ∈ entries.map Prod.fst := by
  cases direction with
  | head =>
      have there := first_mem leads
      exact ((List.tail_sublist _).trans (List.dropWhile_sublist _)).map Prod.fst |>.subset there
  | tail =>
      have there := first_mem leads
      have mem := ((List.tail_sublist _).trans (List.dropWhile_sublist _)).map Prod.fst
        |>.subset there
      rwa [List.map_reverse, List.mem_reverse] at mem

/-- The list changes, and the cursor stays where it is. -/
theorem DlistUser.Shows.reply (shows : u.Shows l) {list : Dlist α}
    (listed : list.Entries entries) (short : entries.length < 2 ^ 32)
    (kept : ∀ addr ∈ l.cursor, addr ∈ entries.map Prod.fst) (reply : DlistReply α) :
    (u.reply list reply).Shows (l.reply entries reply) :=
  ⟨listed, short, shows.next, shows.direction, kept, congrArg (· ++ [reply]) shows.replies⟩

variable [DecidableEq α]

/-- **Each call does what it does on the sequence.** -/
theorem DlistUser.Shows.step (shows : u.Shows l) {call : DlistCall α} (allowed : l.Allows call) :
    ∃ u' l', u.step call = some u' ∧ l.step call = some l' ∧ u'.Shows l' := by
  have listed := shows.listed
  cases call with
  | addHead malloc value =>
      cases malloc with
      | none => exact ⟨_, _, rfl, rfl, shows.reply listed shows.short shows.inside _⟩
      | some addr =>
          obtain ⟨fresh, room⟩ := allowed addr rfl
          obtain ⟨list, added, listed'⟩ := listed.addHead fresh shows.short value
          refine ⟨_, _, Option.map_eq_some_iff.mpr ⟨_, added, rfl⟩, rfl, ?_⟩
          refine shows.reply listed' room (fun addr mem => ?_) _
          exact List.mem_cons_of_mem _ (shows.inside addr mem)
  | addTail malloc value =>
      cases malloc with
      | none => exact ⟨_, _, rfl, rfl, shows.reply listed shows.short shows.inside _⟩
      | some addr =>
          obtain ⟨fresh, room⟩ := allowed addr rfl
          obtain ⟨list, added, listed'⟩ : ∃ list, dlistAddNodeTail u.list (some addr) value =
              some (true, list) ∧ list.Entries (l.entries ++ [(addr, value)]) :=
            listed.add fresh shows.short
          refine ⟨_, _, Option.map_eq_some_iff.mpr ⟨_, added, rfl⟩, rfl, ?_⟩
          refine shows.reply listed' (by simpa using room) (fun addr mem => ?_) _
          rw [List.map_append]
          exact List.mem_append_left _ (shows.inside addr mem)
  | insert malloc oldNode value after =>
      cases malloc with
      | none => exact ⟨_, _, rfl, rfl, shows.reply listed shows.short shows.inside _⟩
      | some addr =>
          obtain ⟨new, mem⟩ := allowed
          obtain ⟨fresh, room⟩ := new addr rfl
          obtain ⟨list, inserted, listed'⟩ := listed.insert (v := value) mem fresh after
          have joined := insertBeside_perm listed.nodup mem (addr, value) after
          refine ⟨_, _, Option.map_eq_some_iff.mpr ⟨_, inserted, rfl⟩, rfl, ?_⟩
          refine shows.reply listed' ?_ (fun addr there => ?_) _
          · rwa [joined.length_eq, List.length_cons]
          · refine (joined.map Prod.fst).symm.subset ?_
            exact List.mem_cons_of_mem _ (shows.inside addr there)
  | delete node =>
      obtain ⟨mem, other⟩ := allowed
      obtain ⟨list, value, deleted, listed', found⟩ := listed.deleteAt mem
      refine ⟨_, _, Option.map_eq_some_iff.mpr ⟨_, deleted, rfl⟩, rfl, ?_⟩
      rw [found]
      refine shows.reply listed' ?_ (fun addr there => ?_) _
      · exact Nat.lt_of_le_of_lt (List.length_filter_le _ _) shows.short
      · obtain ⟨entry, inside, rfl⟩ := List.mem_map.mp (shows.inside addr there)
        refine List.mem_map_of_mem (List.mem_filter.mpr ⟨inside, ?_⟩)
        rw [decide_eq_true_eq]
        rintro rfl
        exact other there
  | rewind => 
      refine ⟨_, _, rfl, rfl, listed, shows.short, listed.links.here_eq, rfl, ?_, shows.replies⟩
      exact fun addr start => first_mem start
  | rewindTail =>
      refine ⟨_, _, rfl, rfl, listed, shows.short, listed.mirror.links.here_eq, rfl, ?_,
        shows.replies⟩
      intro addr start
      have mem := first_mem start
      rwa [List.map_reverse, List.mem_reverse] at mem
  | next =>
      have iter : u.iter = ⟨l.cursor, l.direction⟩ := by
        rw [← shows.next, ← shows.direction]
      have walked : dlistNext u.list u.iter =
          some (l.cursor, ⟨l.cursor.bind fun addr => behind l.entries addr l.direction,
            l.direction⟩) := by
        rw [iter]
        cases stands : l.cursor with
        | none => rfl
        | some addr => exact listed.next_of_mem (shows.inside addr stands) l.direction
      refine ⟨_, _, Option.map_eq_some_iff.mpr ⟨_, walked, rfl⟩, rfl, listed, shows.short, rfl,
        rfl, ?_, congrArg (· ++ [_]) shows.replies⟩
      intro link there
      obtain ⟨addr, _, leads⟩ := Option.bind_eq_some_iff.mp there
      exact behind_mem leads
  | search malloc key =>
      have enough : l.entries.length < u.list.len.toNat + 1 := by
        rw [listed.len, UInt32.toNat_ofNat', Nat.mod_eq_of_lt shows.short]
        exact Nat.lt_succ_self _
      cases (allowed : malloc = true)
      have found := listed.searchLoop [] key enough
      rw [← listed.links.here_eq] at found
      refine ⟨_, _, Option.map_eq_some_iff.mpr ⟨_, found, rfl⟩, rfl, ?_⟩
      exact shows.reply listed shows.short shows.inside _
  | index index =>
      refine ⟨_, _, Option.map_eq_some_iff.mpr ⟨_, listed.index allowed, rfl⟩, rfl, ?_⟩
      exact shows.reply listed shows.short shows.inside _

end Simulation

/-- **The list in memory is the sequence.** Calls in any order, on a new list, go through: none
follows a null pointer or one to a node that was freed. Each returns what it returns on the
sequence, and at the end the links in both directions, the head, the tail and the length are those
of the sequence. -/
theorem dlist_refines [DecidableEq α] {calls : List (DlistCall α)}
    (allowed : Along Listing.step Listing.Allows Listing.init calls) :
    ∃ u l, run DlistUser.step DlistUser.init calls = some u ∧
      run Listing.step Listing.init calls = some l ∧ u.list.Entries l.entries ∧
      u.replies = l.replies := by
  have init : (DlistUser.init : DlistUser α).Shows Listing.init := by
    refine ⟨⟨List.nodup_nil, ⟨rfl, rfl⟩, rfl⟩, ?_, rfl, rfl, ?_, rfl⟩
    · exact Nat.pow_pos (by decide)
    · intro addr mem
      cases mem
  obtain ⟨u, l, ran, ran', shows⟩ :=
    run_of_simulates (fun shows allowed => shows.step allowed) init allowed
  exact ⟨u, l, ran, ran', shows.listed, shows.replies⟩

/-- A list is filled from both ends and in the middle, and walked from the tail, where the node
that the walk has just passed is deleted. -/
def dlistRun : List (DlistCall Nat) :=
  [.addTail (some 1) 10, .addHead (some 2) 20, .insert (some 3) 2 30 true, .addTail none 40,
    .rewindTail, .next, .delete 1, .next, .index (-1), .search true 20, .next, .next]

theorem dlist_refines_twelve :
    ∃ u l, run DlistUser.step DlistUser.init dlistRun = some u ∧
      run Listing.step Listing.init dlistRun = some l ∧ u.list.Entries l.entries ∧
      u.replies = l.replies :=
  dlist_refines (along_of_runGuarded (by decide +kernel))

end Verben
