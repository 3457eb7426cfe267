import Verben.Conf.Round

/-!
# The configuration as a tree

`conf_get_block`, `conf_block_foreach` and `conf_array_foreach` of `src/conf.c`, which read a
configuration key by key, and the reference reading of a text: a list of items, each of them a
value for a key or a block with items of its own (`ConfText`). `Agrees` says that the tables
hold such a list, to a depth of `level` blocks, and that `foreach` is called for it in order
(`Walked`).
-/

namespace Verben

open Scopes

/-! ## Reading a configuration -/

section Foreach

variable {A S : Type}

/-- The loop over a list: it ends where `foreach` does not return 0. -/
def foreachList (foreach : A → S → Int × S) : List A → S → Int × S
  | [], s => (0, s)
  | x :: next, s =>
      let (ret, s) := foreach x s
      if ret ≠ 0 then (-1, s) else foreachList foreach next s

/-- The value under a key, or null. -/
def confValue (store : ConfStore) (conf : Nat) (key : CStr) : Option (Option ConfValue) := do
  let ht ← store.tables conf
  let cv ← hashGetVal ht key
  some (cv.map store.values)

/-- `conf_get_block`: the first block of the list, or null. -/
def confGetBlock (store : ConfStore) (conf : Nat) (key : CStr) : Option (Option Nat) := do
  match ← confValue store conf key with
  | some (.block blocks) => some blocks.head?
  | _ => some none

/-- `conf_block_foreach`. -/
def confBlockForeach (store : ConfStore) (conf : Nat) (key : CStr)
    (foreach : CStr → Nat → S → Int × S) (s : S) : Option (Int × S) := do
  match ← confValue store conf key with
  | some (.block blocks) => some (foreachList (foreach key) blocks s)
  | _ => some (-1, s)

/-- `conf_array_foreach`. -/
def confArrayForeach (store : ConfStore) (conf : Nat) (key : CStr)
    (foreach : CStr → CStr → S → Int × S) (s : S) : Option (Int × S) := do
  match ← confValue store conf key with
  | some (.entry values) => some (foreachList (foreach key) values s)
  | _ => some (-1, s)

end Foreach

/-! ## The reference reading -/

/-- What is given in a text: a value for a key, or a block. -/
inductive ConfItem : Type
  | value (key value : CStr)
  | block (key : CStr) (items : List ConfItem)

/-- The value, if it is one for the key. -/
def ConfItem.value? (key : CStr) : ConfItem → Option CStr
  | .value key' text => if key' = key then some text else none
  | .block _ _ => none

/-- The items of the block, if it is one for the key. -/
def ConfItem.block? (key : CStr) : ConfItem → Option (List ConfItem)
  | .value _ _ => none
  | .block key' items => if key' = key then some items else none

/-- The values that are given for a key, in the order of the text. -/
def valuesOf (key : CStr) (items : List ConfItem) : List CStr := items.filterMap (·.value? key)

/-- The blocks that are given for a key, in the order of the text. -/
def blocksOf (key : CStr) (items : List ConfItem) : List (List ConfItem) :=
  items.filterMap (·.block? key)

/-- The lines give the items. `{` is 123. -/
inductive ConfText : List LineKind → List ConfItem → Prop
  | nil : ConfText [] []
  | skip {lines : List LineKind} {items : List ConfItem} (rest : ConfText lines items) :
      ConfText (.skip :: lines) items
  | value {key value : CStr} {lines : List LineKind} {items : List ConfItem}
      (sets : value ≠ [123]) (rest : ConfText lines items) :
      ConfText (.pair key value :: lines) (.value key value :: items)
  | block {key : CStr} {inner lines : List LineKind} {items' items : List ConfItem}
      (body : ConfText inner items') (rest : ConfText lines items) :
      ConfText (.pair key [123] :: (inner ++ .close :: lines)) (.block key items' :: items)

/-- What the lines of a text are. -/
def textKinds (text : List UInt8) : List LineKind := (textLines text).map lineKind

section Walk

variable {A S : Type} {foreach : A → S → Int × S} {xs : List A} {s : S} {result : Int × S}

/-- What is left behind by one call of `foreach` for each element, in the order of the list. -/
def callEach (foreach : A → S → Int × S) (xs : List A) (s : S) : S :=
  xs.foldl (fun s x => (foreach x s).2) s

/-- All these calls return 0. -/
def AllZero (foreach : A → S → Int × S) (xs : List A) (s : S) : Prop :=
  ∀ before x after, xs = before ++ x :: after → (foreach x (callEach foreach before s)).1 = 0

/-- `foreach` is called once for each element, in the order of the list, up to the first call that
does not return 0. -/
inductive Walked (foreach : A → S → Int × S) (xs : List A) (s : S) : Int × S → Prop
  | all (zero : AllZero foreach xs s) : Walked foreach xs s (0, callEach foreach xs s)
  | stops (before : List A) (x : A) (after : List A) (split : xs = before ++ x :: after)
      (zero : AllZero foreach before s) (stop : (foreach x (callEach foreach before s)).1 ≠ 0) :
      Walked foreach xs s (-1, callEach foreach (before ++ [x]) s)

/-- A walk, or -1 where there is nothing to walk through. -/
def WalkedOrNone (foreach : A → S → Int × S) (xs : List A) (s : S) (result : Int × S) : Prop :=
  if xs = [] then result = (-1, s) else Walked foreach xs s result

theorem AllZero.cons {x : A} (first : (foreach x s).1 = 0)
    (zero : AllZero foreach xs (foreach x s).2) : AllZero foreach (x :: xs) s := by
  intro before y after split
  cases before with
  | nil =>
      cases split
      exact first
  | cons z before =>
      obtain ⟨rfl, rfl⟩ := List.cons.inj split
      exact zero before y after rfl

theorem foreachList_walked (foreach : A → S → Int × S) (xs : List A) (s : S) :
    Walked foreach xs s (foreachList foreach xs s) := by
  induction xs generalizing s with
  | nil => exact .all fun before x after split => absurd split (by simp)
  | cons x next ih =>
      unfold foreachList
      by_cases first : (foreach x s).1 = 0
      · simp only [first, ne_eq, not_true_eq_false, if_false]
        have walked := ih (foreach x s).2
        generalize foreachList foreach next (foreach x s).2 = result at walked
        cases walked with
        | all zero => exact .all (.cons first zero)
        | stops before y after split zero stop =>
            exact .stops (x :: before) y after (congrArg (x :: ·) split) (.cons first zero) stop
      · simp only [first, ne_eq, not_false_eq_true, if_true]
        exact .stops [] x next rfl (fun before y after split => absurd split (by simp)) first

theorem walkedOrNone_nil : WalkedOrNone foreach [] s (-1, s) := by
  unfold WalkedOrNone
  rw [if_pos rfl]

theorem foreachList_walkedOrNone (some' : xs ≠ []) :
    WalkedOrNone foreach xs s (foreachList foreach xs s) := by
  unfold WalkedOrNone
  rw [if_neg some']
  exact foreachList_walked foreach xs s

end Walk

/-- The values of a key, as they are found in a table. -/
structure FindsValues (store : ConfStore) (conf : Nat) (key : CStr) (values : List CStr) :
    Prop where
  array : ∀ (S : Type) (foreach : CStr → CStr → S → Int × S) (s : S),
    ∃ result, confArrayForeach store conf key foreach s = some result ∧
      WalkedOrNone (foreach key) values s result
  str : ∀ default, confGetStrValue store conf key default = values.head?.or default

/-- The blocks of a key, as they are found in a table. -/
structure FindsBlocks (store : ConfStore) (conf : Nat) (key : CStr) (blocks : List Nat) :
    Prop where
  each : ∀ (S : Type) (foreach : CStr → Nat → S → Int × S) (s : S),
    ∃ result, confBlockForeach store conf key foreach s = some result ∧
      WalkedOrNone (foreach key) blocks s result
  block : confGetBlock store conf key = some blocks.head?

/-- What is found in a table, and to a depth of `level` blocks under it, are the items: the last
one that is given for a key comes first. A key that is not given is not in the table. -/
def Agrees (store : ConfStore) : Nat → Nat → List ConfItem → Prop
  | 0, _, _ => True
  | level + 1, conf, items => ∀ key,
      FindsValues store conf key (valuesOf key items).reverse ∧
      (∃ blocks, FindsBlocks store conf key blocks ∧
        List.Forall₂ (Agrees store level) blocks (blocksOf key items).reverse) ∧
      (valuesOf key items = [] → blocksOf key items = [] →
        confValue store conf key = some none)

/-! ## Balanced texts -/

/-- What a line does to the blocks. -/
def LineKind.token : LineKind → Token CStr
  | .skip => .skip
  | .blank => .skip
  | .close => .close
  | .pair key value => if value = [123] then .opens key else .sets key

theorem token_lineKind (line : CStr) : (lineKind line).token = confToken line := by
  have length := length_splitFields defaultIfs 1 line
  unfold lineKind confToken
  by_cases comment : line.head? = some 35
  case pos =>
    rw [if_pos comment, if_pos comment]
    rfl
  case neg =>
    rw [if_neg comment, if_neg comment]
    generalize splitFields defaultIfs 1 line = fields at length
    match fields with
    | [] => rfl
    | [field] =>
        dsimp only
        split <;> rfl
    | [key, value] => rfl
    | a :: b :: c :: fields => simp at length

theorem textTokens_eq (text : List UInt8) :
    textTokens text = (textKinds text).map LineKind.token := by
  unfold textTokens textKinds
  rw [List.map_map]
  exact List.map_congr_left fun line _ => (token_lineKind line).symm

/-- Lines that close `depth` blocks, with items in front of each close and behind the last. -/
def ReadsUnder : Nat → List LineKind → Prop
  | 0, lines => ∃ items, ConfText lines items
  | depth + 1, lines => ∃ inner items rest,
      lines = inner ++ .close :: rest ∧ ConfText inner items ∧ ReadsUnder depth rest

section Balanced

variable {depth : Nat} {lines : List LineKind}

theorem ReadsUnder.skip (reads : ReadsUnder depth lines) : ReadsUnder depth (.skip :: lines) := by
  cases depth with
  | zero =>
      obtain ⟨items, text⟩ := reads
      exact ⟨items, .skip text⟩
  | succ depth =>
      obtain ⟨inner, items, rest, rfl, text, reads⟩ := reads
      exact ⟨.skip :: inner, items, rest, rfl, .skip text, reads⟩

theorem ReadsUnder.value (reads : ReadsUnder depth lines) (key : CStr) {value : CStr}
    (sets : value ≠ [123]) : ReadsUnder depth (.pair key value :: lines) := by
  cases depth with
  | zero =>
      obtain ⟨items, text⟩ := reads
      exact ⟨_, .value sets text⟩
  | succ depth =>
      obtain ⟨inner, items, rest, rfl, text, reads⟩ := reads
      exact ⟨.pair key value :: inner, _, rest, rfl, .value sets text, reads⟩

theorem ReadsUnder.block (reads : ReadsUnder (depth + 1) lines) (key : CStr) :
    ReadsUnder depth (.pair key [123] :: lines) := by
  obtain ⟨inner, items, rest, rfl, text, reads⟩ := reads
  cases depth with
  | zero =>
      obtain ⟨items', text'⟩ := reads
      exact ⟨_, .block text text'⟩
  | succ depth =>
      obtain ⟨inner', items', rest', rfl, text', reads'⟩ := reads
      refine ⟨.pair key [123] :: (inner ++ .close :: inner'), _, rest', ?_, .block text text',
        reads'⟩
      simp

/-- Lines behind which no block is open, when `depth` blocks are open in front of them. -/
theorem readsUnder_of_depth (noBlank : .blank ∉ lines)
    (closed : (lines.map LineKind.token).foldl Token.depth depth = 0)
    (clean : ∀ before after, lines.map LineKind.token = before ++ .close :: after →
      0 < before.foldl Token.depth depth) : ReadsUnder depth lines := by
  induction lines generalizing depth with
  | nil =>
      cases closed
      exact ⟨[], .nil⟩
  | cons kind lines ih =>
      rw [List.mem_cons, not_or] at noBlank
      have rest := ih noBlank.2 closed fun before after same =>
        clean (kind.token :: before) after (congrArg (kind.token :: ·) same)
      cases kind with
      | blank => exact absurd rfl noBlank.1
      | skip => exact rest.skip
      | close =>
          have inside := clean [] (lines.map LineKind.token) rfl
          obtain ⟨depth, rfl⟩ : ∃ d, depth = d + 1 := ⟨depth - 1, by
            change 0 < depth at inside
            omega⟩
          exact ⟨[], [], lines, rfl, .nil, rest⟩
      | pair key value =>
          by_cases opens : value = [123]
          case pos =>
            subst opens
            exact ReadsUnder.block rest key
          case neg =>
            have token : (LineKind.pair key value).token = .sets key := if_neg opens
            rw [token] at rest
            exact ReadsUnder.value rest key opens

/-- A text with balanced blocks has a reference reading. -/
theorem confText_of_balanced {text : List UInt8} (noBlank : .blank ∉ textKinds text)
    (closed : Scopes.depth (textTokens text) = 0) (clean : NoStray (textTokens text)) :
    ∃ items, ConfText (textKinds text) items := by
  rw [textTokens_eq] at closed clean
  exact readsUnder_of_depth noBlank closed clean

end Balanced

end Verben
