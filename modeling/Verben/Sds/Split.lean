import Mathlib.Data.List.Forall2
import Verben.Lib.Pieces
import Verben.Sds.Valid

/-!
# Splitting at a separator

`sdssplitlen` of `src/sds.c`. The array of tokens grows before it is full, the separator is only
looked for where it fits, and the tokens are the pieces of the text between the occurrences of
the separator, the first one taken each time (`sds_split_iff`).
-/

namespace Verben

open CInt

/-- The variables of `sdssplitlen`; `elements` is the length of `tokens`, which has room for
`slots` pointers. -/
structure Split : Type where
  tokens : List Sds
  slots : Int
  start : Int
  j : Int

/-- `if (slots < elements + 2)`, and what is behind it. `realloc` refuses more than half the address
space. -/
def Split.grow (st : Split) : Option Split :=
  if st.slots < st.tokens.length + 2 then
    let slots := toInt32 (st.slots * 2)
    if toUInt64 (8 * slots) < 2 ^ 63 then some { st with slots := slots } else none
  else
    some st

/-- `tokens[elements] = sdsnewlen(s + start, end - start); ++elements`. -/
def Split.token (st : Split) (s : List UInt8) (stop : Int) : Option Split :=
  (sdsnewlen (some (s.drop st.start.toNat)) (toUInt64 (stop - st.start)).toNat).bind fun token =>
    if st.tokens.length < st.slots then some { st with tokens := st.tokens ++ [token] } else none

/-- The search for the separator at `s + j`. `memcmp` reads `seplen` bytes of both. -/
def sepAt (s sep : List UInt8) (seplen : Int) (j : Int) : Option Bool :=
  if j + seplen ≤ s.length ∧ seplen ≤ sep.length then
    some ((seplen = 1 ∧ s[j.toNat]? = sep[0]?) ∨
      (s.drop j.toNat).take seplen.toNat = sep.take seplen.toNat)
  else
    none

/-- The loop, which has no result if it has not ended after so many rounds. -/
def splitLenLoop (s sep : List UInt8) (len seplen : Int) : Nat → Split → Option Split
  | 0, _ => none
  | rounds + 1, st =>
      if st.j < len - (seplen - 1) then
        st.grow.bind fun st =>
          (sepAt s sep seplen st.j).bind fun found =>
            if found then
              (st.token s st.j).bind fun st =>
                splitLenLoop s sep len seplen rounds
                  { st with start := st.j + seplen, j := st.j + seplen - 1 + 1 }
            else
              splitLenLoop s sep len seplen rounds { st with j := st.j + 1 }
      else
        some st

/-- `sdssplitlen` of the bytes at `s` and `sep`: the tokens, or `NULL`. -/
def sdssplitlen (s : List UInt8) (len : Int) (sep : List UInt8) (seplen : Int) :
    Option (Option (List Sds)) :=
  if seplen < 1 ∨ len < 0 then
    some none
  else if len = 0 then
    some (some [])
  else
    (splitLenLoop s sep len seplen (len.toNat + 1) ⟨[], 5, 0, 0⟩).bind fun st =>
      (st.token s len).map fun st => some st.tokens

section Pieces

open Search

variable {s sep : List UInt8} {n k j b : Nat} {st : Split}

/-- The separator is found where it begins. -/
theorem sepAt_eq (inside : j + k ≤ n) (text : n ≤ s.length) (word : k ≤ sep.length) :
    sepAt s sep k j = some (decide (sep.take k <+: (s.take n).drop j)) := by
  have fits : (j : Int) + k ≤ s.length ∧ (k : Int) ≤ sep.length := by omega
  have front : (s.drop j).take k = ((s.take n).drop j).take k := by
    rw [List.drop_take, List.take_take, Nat.min_eq_left (by omega)]
  have prefix_iff : sep.take k <+: (s.take n).drop j ↔ (s.drop j).take k = sep.take k := by
    rw [List.prefix_iff_eq_take, List.length_take_of_le word, ← front]
    exact eq_comm
  have one : k = 1 → s[j]? = sep[0]? → (s.drop j).take k = sep.take k := by
    rintro rfl first
    rw [List.take_one, List.take_one, List.head?_drop, first, List.head?_eq_getElem?]
  unfold sepAt
  rw [if_pos fits]
  simp only [Int.toNat_natCast, prefix_iff]
  congr 2
  refine propext ⟨?_, .inr⟩
  rintro (⟨single, first⟩ | same)
  · exact one (by omega) first
  · exact same

/-- Where the loop stands. -/
structure Split.At (st : Split) (b j : Nat) : Prop where
  start : st.start = b
  place : st.j = j
  ordered : b ≤ j
  room : (st.tokens.length : Int) < st.slots
  slots : st.slots < 2 ^ 31
  few : st.tokens.length ≤ j

/-- The array has room for the token of this round and for the last one. -/
theorem Split.At.grow (here : st.At b j) (few : j + 1 < 2 ^ 30) :
    ∃ st', st.grow = some st' ∧ st'.At b j ∧ st'.tokens = st.tokens ∧
      (st.tokens.length : Int) + 1 < st'.slots := by
  have room := here.room
  have slots := here.slots
  have count := here.few
  unfold Split.grow
  split
  · next full =>
      have twice : toInt32 (st.slots * 2) = st.slots * 2 := toInt32_of_range (by omega) (by omega)
      have size : toUInt64 (8 * (st.slots * 2)) = 8 * (st.slots * 2) :=
        toUInt64_of_range (by omega) (by omega)
      simp only [twice, size]
      rw [if_pos (by omega)]
      refine ⟨_, rfl, ⟨here.start, here.place, here.ordered, ?_, ?_, here.few⟩, rfl, ?_⟩
      · change (st.tokens.length : Int) < st.slots * 2
        omega
      · change st.slots * 2 < 2 ^ 31
        omega
      · change (st.tokens.length : Int) + 1 < st.slots * 2
        omega
  · exact ⟨st, rfl, here, rfl, by omega⟩

/-- A token is the text between two places. -/
theorem Split.token_eq (start : st.start = b) (ordered : b ≤ j) (inside : j ≤ s.length)
    (short : j < 2 ^ 30) (room : (st.tokens.length : Int) < st.slots) :
    ∃ token, st.token s j = some { st with tokens := st.tokens ++ [token] } ∧
      token.Holds ((s.drop b).take (j - b)) := by
  have span : (toUInt64 ((j : Int) - b)).toNat = j - b := by
    rw [toUInt64_of_range (by omega) (by omega)]
    omega
  have given : ∀ bytes, some (s.drop b) = some bytes → j - b ≤ bytes.length := by
    rintro bytes ⟨⟩
    rw [List.length_drop]
    omega
  obtain ⟨token, new, valid⟩ := sdsnewlen_of_short given (by omega)
  refine ⟨token, ?_, valid.holds⟩
  unfold Split.token
  rw [start, span, Int.toNat_natCast, new, Option.bind_some, if_pos room]

/-- From any round on, the tokens to come are the pieces of the text from the last separator
on. -/
theorem splitLenLoop_pieces (text : n ≤ s.length) (word : k ≤ sep.length) (some' : 0 < k)
    (short : n < 2 ^ 30) {rounds : Nat} (enough : n < j + rounds) (low : j ≤ n) (here : st.At b j)
    (absent : ∀ i, b ≤ i → i < j → ¬ sep.take k <+: (s.take n).drop i) :
    ∃ st' st'' tokens pieces, splitLenLoop s sep n k rounds st = some st' ∧
      st'.token s n = some st'' ∧ st''.tokens = st.tokens ++ tokens ∧
      List.Forall₂ Sds.Holds tokens pieces ∧
      Pieces (sep.take k) ((s.take n).drop b) pieces := by
  have wordLength : (sep.take k).length = k := List.length_take_of_le word
  have inside : sep.take k ≠ [] := List.ne_nil_of_length_pos (by omega)
  induction rounds generalizing st j b with
  | zero => omega
  | succ rounds ih =>
      have few := here.few
      unfold splitLenLoop
      rw [here.place]
      by_cases fits : j + k ≤ n
      · rw [if_pos (by omega)]
        obtain ⟨st₁, grown, here₁, same, room⟩ := here.grow (by omega)
        rw [grown, Option.bind_some, here₁.place, sepAt_eq fits text word, Option.bind_some]
        by_cases found : sep.take k <+: (s.take n).drop j
        · rw [if_pos (decide_eq_true found)]
          have low' : j ≤ s.length := by omega
          obtain ⟨token, made, holds⟩ := Split.token_eq here₁.start here₁.ordered low'
            (by omega) here₁.room
          rw [made, Option.bind_some]
          simp only [here₁.place]
          have next : Split.At { st₁ with
              tokens := st₁.tokens ++ [token]
              start := (j : Int) + k
              j := (j : Int) + k - 1 + 1 } (j + k) (j + k) := by
            refine ⟨by simp, by simp, Nat.le_refl _, ?_, here₁.slots, ?_⟩
            · simp only [List.length_append, List.length_singleton, same]
              omega
            · simp only [List.length_append, List.length_singleton, same]
              omega
          obtain ⟨st', st'', tokens, pieces, ran, last, all, held, cut⟩ :=
            ih (by omega) fits next fun i low' less => absurd less (Nat.not_lt.mpr low')
          refine ⟨st', st'', token :: tokens, _ :: pieces, ran, last, ?_, .cons holds held, ?_⟩
          · rw [all, same, List.append_assoc]
            rfl
          · have piece : (s.drop b).take (j - b) = ((s.take n).drop b).take (j - b) := by
              rw [List.drop_take, List.take_take, Nat.min_eq_left (by omega)]
            rw [piece]
            exact .of_place inside here.ordered found absent (by rwa [wordLength])
        · rw [if_neg (by simpa using found)]
          have next : Split.At { st₁ with j := (j : Int) + 1 } b (j + 1) :=
            ⟨here₁.start, by simp, Nat.le_succ_of_le here.ordered, here₁.room, here₁.slots,
              Nat.le_succ_of_le here₁.few⟩
          obtain ⟨st', st'', tokens, pieces, ran, last, all, held, cut⟩ :=
            ih (by omega) (by omega) next fun i low' less => by
              rcases Nat.lt_or_ge i j with before | behind
              · exact absent i low' before
              · rwa [Nat.le_antisymm (Nat.le_of_lt_succ less) behind]
          exact ⟨st', st'', tokens, pieces, ran, last, all.trans (by rw [same]), held, cut⟩
      · rw [if_neg (by omega)]
        obtain ⟨token, made, holds⟩ := Split.token_eq here.start (Nat.le_trans here.ordered low)
          text short here.room
        refine ⟨st, _, [token], [_], rfl, made, rfl, .cons holds .nil, ?_⟩
        rw [← List.drop_take]
        refine .last fun i found => ?_
        rw [List.drop_drop] at found
        have length := found.length_le
        rw [wordLength, List.length_drop, List.length_take_of_le text] at length
        exact absent (b + i) (Nat.le_add_right b i) (by omega) found

theorem map_content {tokens : List Sds} {pieces : List (List UInt8)}
    (held : List.Forall₂ Sds.Holds tokens pieces) : tokens.map Sds.content = pieces := by
  induction held with
  | nil => rfl
  | cons holds _ ih => rw [List.map_cons, holds.content_eq, ih]

/-- A text is always split into pieces, and which pieces these are: the text is cut at each
occurrence of the separator that begins behind the one before, and joining the pieces gives the
text back. -/
theorem sds_split_iff (text : n ≤ s.length) (word : k ≤ sep.length) (nonempty : 0 < n)
    (inside : 0 < k) (short : n < 2 ^ 30) :
    (∃ tokens pieces, sdssplitlen s n sep k = some (some tokens) ∧
        List.Forall₂ Sds.Holds tokens pieces) ∧
      ∀ pieces, (∃ tokens, sdssplitlen s n sep k = some (some tokens) ∧
          List.Forall₂ Sds.Holds tokens pieces) ↔
        (sep.take k).intercalate pieces = s.take n ∧ ∃ init last, pieces = init ++ [last] ∧
          (∀ piece ∈ init, First (sep.take k) (piece ++ sep.take k) piece.length) ∧
          ∀ i, ¬ sep.take k <+: last.drop i := by
  have start : (⟨[], 5, 0, 0⟩ : Split).At 0 0 :=
    ⟨rfl, rfl, Nat.le_refl 0, by decide, by decide, Nat.le_refl 0⟩
  obtain ⟨st', st'', tokens, found, ran, last, all, held, cut⟩ :=
    splitLenLoop_pieces text word inside short (show n < 0 + (n + 1) by omega) (Nat.zero_le n) start
      fun i _ less => absurd less (Nat.not_lt_zero i)
  have split : sdssplitlen s n sep k = some (some tokens) := by
    unfold sdssplitlen
    rw [if_neg (by omega), if_neg (by omega), Int.toNat_natCast, ran, Option.bind_some, last,
      Option.map_some, all]
    rfl
  rw [List.drop_zero] at cut
  refine ⟨⟨tokens, _, split, held⟩, fun pieces => ?_⟩
  rw [← pieces_iff]
  constructor
  case mp =>
    rintro ⟨tokens', split', held'⟩
    cases split.symm.trans split'
    rwa [← map_content held', map_content held]
  case mpr =>
    intro cut'
    exact ⟨tokens, split, cut.unique cut' ▸ held⟩

end Pieces

/-- Between the first two dashes and the last one, for a separator of two. -/
theorem sds_split_iff_dashes :
    ∃ tokens, sdssplitlen [97, 45, 45, 98, 45] 5 [45, 45] 2 = some (some tokens) ∧
      List.Forall₂ Sds.Holds tokens [[97], [98, 45]] := by
  refine ((sds_split_iff (by decide) (by decide) (by decide) (by decide) (by decide)).2 _).mpr
    ⟨by decide, [[97]], [98, 45], rfl, ?_, ?_⟩
  · intro piece mem
    cases List.mem_singleton.mp mem
    exact ⟨by decide, by decide⟩
  · intro i
    match i with
    | 0 => decide
    | 1 => decide
    | i + 2 => exact fun found => absurd found.length_le (by simp)

end Verben
