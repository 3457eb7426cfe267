import Verben.Dlist.Entries

/-!
# Copies of a list

`dlist_destroy` hands every value to the `free` method, in order, and leaves no node behind.
`dlist_dup` returns a list of the copies of all values, or `NULL`; then the copies that were
added are freed (`dlist_dup_whole`). A copy that could not be added is not. When there is no memory
for the iterator, it follows a null pointer.
-/

namespace Verben

open Links

variable {α : Type} {nodes : Nodes α} {dl orig copy : Dlist α} {entries rest copied : List (Nat × α)}

/-- What is in memory when these nodes are freed. -/
def without (nodes : Nodes α) (addrs : List Nat) : Nodes α :=
  fun addr => if addr ∈ addrs then none else nodes addr

theorem destroyLoop_of_segment {before here last : Link}
    (segment : Segment nodes before here entries last none)
    (nodup : (entries.map Prod.fst).Nodup) :
    dlistDestroyLoop nodes entries.length here =
      some (without nodes (entries.map Prod.fst), entries.map Prod.snd) := by
  induction entries generalizing nodes before here with
  | nil => rfl
  | cons entry entries ih =>
      rcases entry with ⟨addr, value⟩
      obtain ⟨rfl, next, node, tail⟩ := segment
      obtain ⟨apart, nodup⟩ := List.nodup_cons.mp nodup
      have destroyed := ih (tail.update_of_notMem apart none) nodup
      have left : without (Function.update nodes addr none) (entries.map Prod.fst) =
          without nodes (((addr, value) :: entries).map Prod.fst) := by
        funext other
        unfold without
        rw [List.map_cons]
        by_cases same : other = addr
        · rw [same, Function.update_self, if_pos List.mem_cons_self]
          exact ite_self _
        · rw [Function.update_of_ne same]
          simp only [List.mem_cons, same, false_or]
      unfold dlistDestroyLoop
      simp only [List.length_cons, Option.bind_eq_bind, Option.bind_some, node, destroyed, left]
      rfl

/-- `dlist_destroy` frees every node, and every value once. -/
theorem Dlist.Entries.destroy (listed : dl.Entries entries) (short : entries.length < 2 ^ 32) :
    dlistDestroy dl = some (without dl.nodes (entries.map Prod.fst), entries.map Prod.snd) := by
  have len : dl.len.toNat = entries.length := by
    rw [listed.len, UInt32.toNat_ofNat', Nat.mod_eq_of_lt short]
  unfold dlistDestroy
  rw [len]
  exact destroyLoop_of_segment listed.links listed.nodup

/-! ## Copying -/

/-- How the loop of `dlist_dup` ends that has `copied` some nodes and comes to the `values`: with
a copy of every one; or at the one behind the `freed`, of which there is no copy or no node. -/
inductive DupEnds (dup : Option (α → Option α)) (copied : List (Nat × α)) (values : List α)
    (mallocs : List (Option Nat)) : DlistDup α → Prop
  | whole {copy : Dlist α} {copies : List (Nat × α)} (listed : copy.Entries (copied ++ copies))
      (dups : values.mapM (dupValue dup) = some (copies.map Prod.snd))
      (addrs : mallocs.take values.length = copies.map fun entry => some entry.1) :
      DupEnds dup copied values mallocs (.copied copy)
  | stopped {k : Nat} {value : α} {freed : List α} (here : values[k]? = some value)
      (fails : dupValue dup value = none ∨ mallocs[k]?.join = none)
      (dups : (values.take k).mapM (dupValue dup) = some freed) :
      DupEnds dup copied values mallocs (.failed (copied.map Prod.snd ++ freed))

section Dup

variable {dup : Option (α → Option α)} {passed : List (Nat × α)} {values : List α} {value v : α}
  {addr : Nat} {mallocs : List (Option Nat)} {result : DlistDup α}

/-- One more copy in front of those to come. -/
theorem DupEnds.cons (dups : dupValue dup value = some v)
    (ends : DupEnds dup (copied ++ [(addr, v)]) values mallocs result) :
    DupEnds dup copied (value :: values) (some addr :: mallocs) result := by
  cases ends with
  | @whole copy copies listed others addrs =>
      rw [List.append_assoc, List.singleton_append] at listed
      refine .whole listed ?_ ?_
      · simp only [List.mapM_cons, dups, others, Option.bind_eq_bind, Option.bind_some]
        rfl
      · rw [List.length_cons, List.take_succ_cons, addrs]
        rfl
  | @stopped k other freed here fails others =>
      have kept : (copied ++ [(addr, v)]).map Prod.snd ++ freed =
          copied.map Prod.snd ++ (v :: freed) := by
        rw [List.map_append, List.append_assoc]
        rfl
      rw [kept]
      refine .stopped (k := k + 1) here fails ?_
      simp only [List.take_succ_cons, List.mapM_cons, dups, others, Option.bind_eq_bind,
        Option.bind_some]
      rfl

/-- The loop of `dlist_dup`, at any place. -/
theorem dupLoop_of_entries (listed : orig.Entries (passed ++ rest)) (copying : copy.Entries copied)
    (short : copied.length + rest.length < 2 ^ 32)
    (fresh : (copied.map Prod.fst ++ mallocs.reduceOption).Nodup) {fuel : Nat}
    (enough : rest.length < fuel) :
    ∃ result, dlistDupLoop orig dup fuel copy ⟨first rest, .head⟩ mallocs = some result ∧
      DupEnds dup copied (rest.map Prod.snd) mallocs result := by
  induction rest generalizing passed copy copied mallocs fuel with
  | nil =>
      cases fuel with
      | zero => exact absurd enough (Nat.not_lt_zero _)
      | succ fuel =>
          have listed' : copy.Entries (copied ++ []) := by
            rwa [List.append_nil]
          exact ⟨.copied copy, rfl, .whole listed' rfl rfl⟩
  | cons entry rest ih =>
      rcases entry with ⟨old, value⟩
      obtain ⟨_, node, _⟩ := listed.node
      have destroyed := copying.destroy (by omega)
      have listed' : orig.Entries ((passed ++ [(old, value)]) ++ rest) := by
        rwa [List.append_assoc]
      cases fuel with
      | zero => exact absurd enough (Nat.not_lt_zero _)
      | succ fuel =>
          unfold dlistDupLoop
          simp only [listed.next_cons, node, Option.bind_eq_bind, Option.bind_some]
          cases dups : dupValue dup value with
          | none =>
              refine ⟨.failed (copied.map Prod.snd ++ []), ?_, .stopped (k := 0) rfl (.inl dups) rfl⟩
              simp only [destroyed, Option.map_some, List.append_nil]
          | some v =>
              cases got : mallocs.head?.join with
              | none =>
                  refine ⟨.failed (copied.map Prod.snd ++ []), ?_,
                    .stopped (k := 0) rfl (.inr ?_) rfl⟩
                  · simp only [dlistAddNodeTail, Option.bind_some, Bool.false_eq_true, if_false,
                      destroyed, Option.map_some, List.append_nil]
                  · rw [← List.head?_eq_getElem?, got]
              | some addr =>
                  obtain ⟨later, rfl⟩ : ∃ later, mallocs = some addr :: later := by
                    cases mallocs with
                    | nil => cases got
                    | cons malloc later =>
                        cases got
                        exact ⟨later, rfl⟩
                  have fresh' : ((copied ++ [(addr, v)]).map Prod.fst ++
                      later.reduceOption).Nodup := by
                    rwa [List.map_append, List.append_assoc]
                  have apart : addr ∉ copied.map Prod.fst := fun mem =>
                    (List.nodup_append.mp fresh).2.2 addr mem addr List.mem_cons_self rfl
                  obtain ⟨copy', added, copying'⟩ : ∃ copy', dlistAddNodeTail copy (some addr) v =
                      some (true, copy') ∧ copy'.Entries (copied ++ [(addr, v)]) :=
                    copying.add apart (by omega)
                  have short' : (copied ++ [(addr, v)]).length + rest.length < 2 ^ 32 := by
                    rw [List.length_append, List.length_singleton]
                    rw [List.length_cons] at short
                    omega
                  obtain ⟨result, looped, ends⟩ :=
                    ih listed' copying' short' fresh' (Nat.lt_of_succ_lt_succ enough)
                  refine ⟨result, ?_, ends.cons dups⟩
                  simp only [added, Option.bind_some, if_true, List.tail_cons]
                  exact looped

end Dup

/-- **A whole copy, or none.** `dlist_dup` returns, unless there is memory for the copy and none for
the iterator. Without memory for the copy it returns `NULL`. Else it returns a list of the copies
of all values, in their order, in the nodes that `malloc` gave; or there was no copy of a value or
no node for it, and it returns `NULL`, and exactly the copies of the values before that one went
to the `free` method. -/
theorem dlist_dup_whole {dup : Option (α → Option α)} {mallocs : List (Option Nat)} {fuel : Nat}
    (listed : orig.Entries entries) (short : entries.length < 2 ^ 32)
    (fresh : mallocs.reduceOption.Nodup) (enough : entries.length < fuel) :
    dlistDup fuel orig dup false false mallocs = some (.failed []) ∧
      dlistDup fuel orig dup false true mallocs = some (.failed []) ∧
      dlistDup fuel orig dup true false mallocs = none ∧
      ∃ result, dlistDup fuel orig dup true true mallocs = some result ∧
        DupEnds dup [] (entries.map Prod.snd) mallocs result := by
  have start : dlistRewind orig = ⟨first entries, .head⟩ := by
    unfold dlistRewind
    rw [listed.links.here_eq]
  have all : orig.Entries ([] ++ entries) := listed
  have none : (dlistInit : Dlist α).Entries [] := ⟨List.nodup_nil, ⟨rfl, rfl⟩, rfl⟩
  refine ⟨rfl, rfl, rfl, ?_⟩
  unfold dlistDup dlistGetIterator
  simp only [if_true, start, Option.bind_eq_bind, Option.bind_some]
  exact dupLoop_of_entries all none (by simpa using short) fresh enough

/-- A list of two values, for the second of which `malloc` has no node. -/
def twoNodes : Dlist Nat where
  nodes := fun addr =>
    if addr = 1 then some ⟨none, some 2, 10⟩
    else if addr = 2 then some ⟨some 1, none, 20⟩
    else none
  head := some 1
  tail := some 2
  len := 2

theorem twoNodes_entries : twoNodes.Entries [(1, 10), (2, 20)] :=
  ⟨by decide, ⟨rfl, some 2, rfl, rfl, none, rfl, rfl, rfl⟩, rfl⟩

theorem dlist_dup_whole_two :
    ∃ result, dlistDup 3 twoNodes (some fun n => some (n + 1)) true true [some 8, none] =
        some result ∧
      DupEnds (some fun n => some (n + 1)) [] [10, 20] [some 8, none] result :=
  (dlist_dup_whole twoNodes_entries (by decide) (by decide) (by decide)).2.2.2

end Verben
