import Verben.Conf.Store

/-!
# Which configurations are accepted

`Parsed` is what a call of `conf_parse` says about the text that it read: it came to the end,
or to the line that closes its block, and its part of the text reads well in any stack of open
blocks; or it failed, and no such stack reads it. The loop is followed line by line, into the
blocks and out of them (`confLoop_parsed`).

The end of the text is taken for the end of every block that is still open. A configuration is
therefore accepted even when blocks are not closed (`confParse_ok_iff`).
-/

namespace Verben

open Scopes ConfStore

/-- The blocks around a call: only a call for a block has some. -/
def Around (block : Bool) (outer : List (Scope CStr)) : Prop := block = false ↔ outer = []

/-- What the result of the loop says about the text, from a state in which the keys of the table
`t` were used as in `scope`. -/
inductive Parsed (t : Nat) (block : Bool) (text : List UInt8) (scope : Scope CStr) (low : Nat)
    (store : ConfStore) (out : ConfOut) : Prop
  | ended (ok : out.ret = .ok) (fp : out.fp = []) (beyond : store.Beyond out.store t low)
      (read : ∀ outer, Around block outer →
        ((textTokens text).foldlM check (scope :: outer)).isSome)
  | closed (ok : out.ret = .ok) (done : List (Token CStr))
      (tokens : textTokens text = done ++ textTokens out.fp) (plain : PlainText out.fp)
      (shorter : out.fp.length < text.length) (beyond : store.Beyond out.store t low)
      (read : ∀ outer, Around block outer → done.foldlM check (scope :: outer) = some outer)
  | refused (failed : out.ret ≠ .ok)
      (unread : ∀ outer, Around block outer →
        (textTokens text).foldlM check (scope :: outer) = none)

section Parsed

variable {t : Nat} {block : Bool} {text rest : List UInt8} {scope scope' : Scope CStr}
  {low : Nat} {store store' : ConfStore} {out : ConfOut}

theorem confError_ne (conf : Nat) (fp : List UInt8) (store : ConfStore) :
    (confError conf fp store).ret ≠ .ok := by
  unfold confError
  rcases confFree store.tableNum store conf with ⟨ret, store'⟩
  cases ret <;> nofun

theorem foldlM_append_eq {before after : List (Token CStr)} {scopes scopes' : List (Scope CStr)}
    (read : before.foldlM check scopes = some scopes') :
    (before ++ after).foldlM check scopes = after.foldlM check scopes' := by
  rw [List.foldlM_append, read]
  rfl

/-- What was allocated before the call. -/
theorem Parsed.before (parsed : Parsed t block text scope low store' out)
    (beyond : store.Beyond store' t low) : Parsed t block text scope low store out := by
  cases parsed with
  | ended ok fp beyond' read => exact .ended ok fp (beyond.trans beyond') read
  | closed ok done tokens plain shorter beyond' read =>
      exact .closed ok done tokens plain shorter (beyond.trans beyond') read
  | refused failed unread => exact .refused failed unread

/-- Lines that were read before, in whatever blocks they stand. -/
theorem Parsed.append (parsed : Parsed t block rest scope' low store' out)
    (done : List (Token CStr)) (tokens : textTokens text = done ++ textTokens rest)
    (shorter : rest.length < text.length) (beyond : store.Beyond store' t low)
    (read : ∀ outer, Around block outer →
      done.foldlM check (scope :: outer) = some (scope' :: outer)) :
    Parsed t block text scope low store out := by
  cases parsed with
  | ended ok fp beyond' read' =>
      refine .ended ok fp (beyond.trans beyond') fun outer around => ?_
      rw [tokens, foldlM_append_eq (read outer around)]
      exact read' outer around
  | closed ok done' tokens' plain shorter' beyond' read' =>
      refine .closed ok (done ++ done') ?_ plain (Nat.lt_trans shorter' shorter)
        (beyond.trans beyond') fun outer around => ?_
      · rw [tokens, tokens', List.append_assoc]
      · rw [foldlM_append_eq (read outer around)]
        exact read' outer around
  | refused failed unread =>
      refine .refused failed fun outer around => ?_
      rw [tokens, foldlM_append_eq (read outer around)]
      exact unread outer around

/-- One line that the stack can read. -/
theorem Parsed.cons (parsed : Parsed t block rest scope' low store' out) {tok : Token CStr}
    (tokens : textTokens text = tok :: textTokens rest) (shorter : rest.length < text.length)
    (beyond : store.Beyond store' t low)
    (read : ∀ outer, check (scope :: outer) tok = some (scope' :: outer)) :
    Parsed t block text scope low store out := by
  refine parsed.append [tok] tokens shorter beyond fun outer _ => ?_
  rw [List.foldlM_cons, read]
  rfl

/-- A line at which the parser and the stack both stop. -/
theorem Parsed.stop {tok : Token CStr} (tokens : textTokens text = tok :: textTokens rest)
    (failed : out.ret ≠ .ok)
    (unread : ∀ outer, Around block outer → check (scope :: outer) tok = none) :
    Parsed t block text scope low store out := by
  refine .refused failed fun outer around => ?_
  rw [tokens, List.foldlM_cons, unread outer around]
  rfl

/-- The end of the text, which is none of a block. -/
theorem parsed_nil (t : Nat) (block : Bool) (scope : Scope CStr) (low : Nat)
    (store : ConfStore) : Parsed t block [] scope low store ⟨.ok, [], store⟩ :=
  .ended rfl rfl (.refl ..) fun _ _ => rfl

end Parsed

section Loop

variable {env : ConfEnv} {fuel : Nat} {f : ConfFrame} {text rest : List UInt8}
  {store : ConfStore} {map : CStr → Option Nat} {low : Nat}

/-- At the end of the text the loop returns. -/
theorem confLoop_nil (enough : 0 < fuel) (f : ConfFrame) (store : ConfStore) :
    confLoop env fuel f [] store = some ⟨.ok, [], store⟩ := by
  cases fuel with
  | zero => cases enough
  | succ fuel => rfl

/-- The loop says of every shorter text what `Parsed` asks for. -/
def Follows (env : ConfEnv) (fuel : Nat) : Prop :=
  ∀ (f : ConfFrame) {text : List UInt8} {store : ConfStore} {map : CStr → Option Nat} {low : Nat},
    text.length < fuel → PlainText text → store.Ready f.conf low map →
    ∃ out, confLoop env fuel f text store = some out ∧
      Parsed f.conf f.block text (store.scope map) low store out

/-- A call of `conf_parse` starts with an empty table behind all others. -/
theorem ready_newTable (store : ConfStore) {new : Hash Nat} (maps : new.Maps fun _ => none) :
    (store.newTable new).Ready store.tableNum store.valueNum (fun _ => none) where
  table := {
    held := ⟨new, Function.update_self .., maps⟩
    inside := Nat.lt_succ_self _
    below := Nat.le_refl _
    values := nofun
    apart := nofun }
  typed := nofun

theorem beyond_newTable (store : ConfStore) (new : Hash Nat) :
    store.Beyond (store.newTable new) store.tableNum store.valueNum where
  tables := (store.beyond_setTable store.tableNum store.valueNum (some new)).tables
  values := fun _ _ => rfl
  tableNum := Nat.le_succ _
  valueNum := Nat.le_refl _

/-- A whole call, with a table of its own. -/
theorem Follows.call (follows : Follows env fuel) (enough : text.length < fuel)
    (plain : PlainText text) (path : CStr) (block : Bool) (store : ConfStore) :
    ∃ out, confParse env (confLoop env fuel) none path text block store =
        some (store.tableNum, out) ∧
      Parsed store.tableNum block text (fun _ => none) store.valueNum store out := by
  obtain ⟨new, opened, maps⟩ := store.opened_eq
  have ready : (store.called.newTable new).Ready store.tableNum store.valueNum (fun _ => none) :=
    ready_newTable store.called maps
  obtain ⟨out, ran, parsed⟩ := follows (store.frame env store.tableNum path block) enough plain
    ready
  have beyond := beyond_newTable store.called new
  refine ⟨out, ?_, parsed.before ⟨beyond.tables, beyond.values, beyond.tableNum, beyond.valueNum⟩⟩
  rw [confParse_opened opened, ran]
  rfl

/-- A block in the text: its call reads on, and then the loop does. -/
theorem Follows.opens (follows : Follows env fuel) (enough : rest.length < fuel)
    (plain : PlainText rest) (ready : store.Ready f.conf low map) {key : CStr}
    (tokens : textTokens text = .opens key :: textTokens rest)
    (shorter : rest.length < text.length) :
    ∃ out, confItem env (confLoop env fuel) f rest store key [123] [123] = some out ∧
      Parsed f.conf f.block text (store.scope map) low store out := by
  cases recorded : (store.scope map).record key .scope with
  | none =>
      refine ⟨_, confItem_refused ready rfl recorded, Parsed.stop tokens (confError_ne _ _ _) ?_⟩
      intro outer _
      rw [check, recorded]
      rfl
  | some scope' =>
      obtain ⟨store₁, cv, link, map', item, inside, after⟩ := confItem_opens ready recorded
      obtain ⟨out, called, parsed⟩ := follows.call enough plain f.resolvedPath true store₁
      have opened : ∀ outer, check (store.scope map :: outer) (.opens key) =
          some ((fun _ => none) :: scope' :: outer) := by
        intro outer
        rw [check, recorded]
        rfl
      have nested : ∀ outer : List (Scope CStr), Around true (scope' :: outer) :=
        fun outer => ⟨nofun, nofun⟩
      rw [item]
      unfold confBlock
      rw [called]
      cases parsed with
      | ended ok fp beyond read =>
          -- the end of the text ends this call too
          obtain ⟨ready', same, beyond'⟩ := after out.store store₁.tableNum beyond
          let linked := out.store.setValue cv (link (out.store.values cv) store₁.tableNum)
          refine ⟨⟨.ok, [], linked⟩, ?_, .ended rfl rfl beyond' fun outer _ => ?_⟩
          · simp only [Option.bind_eq_bind, Option.bind_some, ok, fp]
            exact confLoop_nil (Nat.zero_lt_of_lt enough) ..
          · rw [tokens, List.foldlM_cons, opened]
            exact read _ (nested outer)
      | closed ok done tokens' plain' shorter' beyond read =>
          obtain ⟨ready', same, beyond'⟩ := after out.store store₁.tableNum beyond
          obtain ⟨out', ran, parsed'⟩ :=
            follows f (Nat.lt_trans shorter' enough) plain' ready'
          refine ⟨out', ?_, ?_⟩
          · simp only [Option.bind_eq_bind, Option.bind_some, ok]
            exact ran
          · rw [same] at parsed'
            refine parsed'.append (.opens key :: done) ?_ (Nat.lt_trans shorter' shorter) beyond'
              fun outer _ => ?_
            · rw [tokens, tokens']
              rfl
            · rw [List.foldlM_cons, opened]
              exact read _ (nested outer)
      | refused failed unread =>
          have unread' : ∀ outer, Around f.block outer →
              (textTokens text).foldlM check (store.scope map :: outer) = none := by
            intro outer _
            rw [tokens, List.foldlM_cons, opened]
            exact unread _ (nested outer)
          simp only [Option.bind_eq_bind, Option.bind_some]
          cases ret : out.ret with
          | ok => exact absurd ret failed
          | error => exact ⟨_, rfl, .refused (confError_ne _ _ _) unread'⟩
          | exit => exact ⟨_, rfl, .refused failed unread'⟩
          | fault => exact ⟨_, rfl, .refused failed unread'⟩

/-- A value in the text: it is put under its key, and the loop goes on. -/
theorem Follows.sets (follows : Follows env fuel) (enough : rest.length < fuel)
    (plain : PlainText rest) (ready : store.Ready f.conf low map) {key value : CStr}
    (value' : value ≠ [123]) (tokens : textTokens text = .sets key :: textTokens rest)
    (shorter : rest.length < text.length) :
    ∃ out, confItem env (confLoop env fuel) f rest store key value value = some out ∧
      Parsed f.conf f.block text (store.scope map) low store out := by
  cases recorded : (store.scope map).record key .value with
  | none =>
      refine ⟨_, confItem_refused ready (by rw [if_neg value']) recorded, ?_⟩
      refine Parsed.stop tokens (confError_ne _ _ _) fun outer _ => ?_
      rw [check, recorded]
      rfl
  | some scope' =>
      obtain ⟨store', map', item, ready', same, beyond⟩ := confItem_sets ready value' recorded
      obtain ⟨out, ran, parsed⟩ := follows f enough plain ready'
      refine ⟨out, item.trans ran, ?_⟩
      rw [same] at parsed
      refine parsed.cons tokens shorter beyond fun outer => ?_
      rw [check, recorded]
      rfl

/-- **The loop of `conf_parse`** says of a text what its lines say. -/
theorem confLoop_parsed (env : ConfEnv) (fuel : Nat) : Follows env fuel := by
  induction fuel with
  | zero =>
      intro _ _ _ _ _ enough
      exact absurd enough (Nat.not_lt_zero _)
  | succ fuel ih =>
      intro f text store map low enough plain ready
      by_cases none' : text = []
      · subst none'
        exact ⟨_, confLoop_nil (Nat.succ_pos _) .., parsed_nil ..⟩
      · obtain ⟨rest, tok, buf, field0, tokens, plain', shorter, follow⟩ :=
          confLine_token plain none'
        have enough' : rest.length < fuel := by omega
        let f' : ConfFrame := { f with buf := buf, field0 := field0 }
        change ∃ out, confLine env (fuel + 1) (confLoop env fuel) f text store = some out ∧ _
        cases tok with
        | skip =>
            obtain ⟨out, ran, parsed⟩ := ih f' enough' plain' ready
            exact ⟨out, follow.trans ran, parsed.cons tokens shorter (.refl ..) fun _ => rfl⟩
        | close =>
            refine ⟨_, follow, ?_⟩
            by_cases block : f.block = true
            · rw [if_pos block]
              refine .closed rfl [.close] tokens plain' shorter (.refl ..) fun outer around => ?_
              rw [block] at around
              cases outer with
              | nil => exact absurd (around.mpr rfl) nofun
              | cons scope outer => rfl
            · rw [if_neg block]
              refine Parsed.stop tokens (confError_ne _ _ _) fun outer around => ?_
              rw [around.mp (Bool.eq_false_iff.mpr block)]
              rfl
        | opens key =>
            obtain ⟨out, ran, parsed⟩ := ih.opens enough' plain' (f := f') ready tokens shorter
            exact ⟨out, follow.trans ran, parsed⟩
        | sets key =>
            obtain ⟨value, value', follow⟩ := follow
            obtain ⟨out, ran, parsed⟩ :=
              ih.sets enough' plain' (f := f') ready value' tokens shorter
            exact ⟨out, follow.trans ran, parsed⟩

end Loop

/-! ## The whole text -/

section Accept

variable {fuel : Nat} {text : List UInt8}

/-- **What `conf_parse` accepts**: the text reads to its end. Whether blocks are open there does
not matter. -/
theorem confParse_ok_iff (env : ConfEnv) (plain : PlainText text) (enough : text.length < fuel)
    (path : CStr) (store : ConfStore) :
    ∃ t out, confParse env (confLoop env fuel) none path text false store = some (t, out) ∧
      (out.ret = .ok ↔ NoStray (textTokens text) ∧ Consistent (textTokens text)) := by
  obtain ⟨out, called, parsed⟩ :=
    (confLoop_parsed env fuel).call enough plain path false store
  refine ⟨store.tableNum, out, called, ?_⟩
  have around : Around false [] := ⟨fun _ => rfl, fun _ => rfl⟩
  rw [← check_isSome_iff]
  cases parsed with
  | ended ok _ _ read => exact ⟨fun _ => read [] around, fun _ => ok⟩
  | closed _ done _ _ _ _ read =>
      exact absurd (read [] around) (foldlM_check_ne_nil (List.cons_ne_nil _ _) done)
  | refused failed unread =>
      refine ⟨fun ok => absurd ok failed, fun some' => ?_⟩
      rw [unread [] around] at some'
      cases some'

/-- A call at the top returns 0 exactly for the texts that close every block, have no close
outside a block and use each key in one way, if and only if the text closes every block or one
of the other two fails. -/
theorem conf_accepts_iff (env : ConfEnv) (plain : PlainText text) (enough : text.length < fuel)
    (path : CStr) (store : ConfStore) :
    ∃ t out, confParse env (confLoop env fuel) none path text false store = some (t, out) ∧
      ((out.ret = .ok ↔ depth (textTokens text) = 0 ∧ NoStray (textTokens text) ∧
          Consistent (textTokens text)) ↔
        depth (textTokens text) = 0 ∨ ¬ NoStray (textTokens text) ∨
          ¬ Consistent (textTokens text)) := by
  obtain ⟨t, out, called, accepted⟩ := confParse_ok_iff env plain enough path store
  refine ⟨t, out, called, ?_⟩
  rw [accepted]
  tauto

/-- A system without files or variables. -/
def ConfEnv.bare : ConfEnv where
  realpath := some
  fopen := fun _ => none
  dirname := id
  basename := id
  opendir := fun _ => none
  fnmatch := fun _ _ => .noMatch
  getenv := fun _ => none
  buf := fun _ _ => 0
  field := fun _ => .null

/-- The text is `a {`, then `b 1`, then `}`. -/
theorem conf_accepts_iff_closed :
    ∃ t out, confParse .bare (confLoop .bare 12) none []
        [97, 32, 123, 10, 98, 32, 49, 10, 125, 10] false .init = some (t, out) ∧
      (out.ret = .ok ↔
        depth (textTokens [97, 32, 123, 10, 98, 32, 49, 10, 125, 10]) = 0 ∧
          NoStray (textTokens [97, 32, 123, 10, 98, 32, 49, 10, 125, 10]) ∧
          Consistent (textTokens [97, 32, 123, 10, 98, 32, 49, 10, 125, 10])) := by
  have lines : textLines [97, 32, 123, 10, 98, 32, 49, 10, 125, 10] =
      [[97, 32, 123], [98, 32, 49], [125]] := by decide
  have plain : PlainText [97, 32, 123, 10, 98, 32, 49, 10, 125, 10] := by
    refine plainText_of (by decide) (by decide) ?_
    rw [lines]
    simp only [List.forall_mem_cons]
    exact ⟨⟨by decide, [97], [[123]], by decide, by decide⟩,
      ⟨by decide, [98], [[49]], by decide, by decide⟩,
      ⟨by decide, [125], [], by decide, by decide⟩, nofun⟩
  have enough : ([97, 32, 123, 10, 98, 32, 49, 10, 125, 10] : List UInt8).length < 12 := by
    decide
  obtain ⟨t, out, called, accepted⟩ := conf_accepts_iff .bare plain enough [] .init
  exact ⟨t, out, called, accepted.mpr (Or.inl (by decide))⟩

/-- The block of the text `a {` is never closed. -/
theorem conf_accepts_unclosed :
    PlainText [97, 32, 123, 10] ∧
      ∃ t out, confParse .bare (confLoop .bare 5) none [] [97, 32, 123, 10] false .init =
          some (t, out) ∧
        ¬ (out.ret = .ok ↔ depth (textTokens [97, 32, 123, 10]) = 0 ∧
            NoStray (textTokens [97, 32, 123, 10]) ∧
            Consistent (textTokens [97, 32, 123, 10])) := by
  have plain : PlainText [97, 32, 123, 10] := by
    refine plainText_of (by decide) (by decide) ?_
    have lines : textLines [97, 32, 123, 10] = [[97, 32, 123]] := by decide
    rw [lines]
    simp only [List.forall_mem_cons]
    exact ⟨⟨by decide, [97], [[123]], by decide, by decide⟩, nofun⟩
  have enough : ([97, 32, 123, 10] : List UInt8).length < 5 := by decide
  obtain ⟨t, out, called, accepted⟩ := confParse_ok_iff .bare plain enough [] .init
  refine ⟨plain, t, out, called, fun claimed => ?_⟩
  have tokens : textTokens [97, 32, 123, 10] = [.opens [97]] := by decide
  have read : NoStray (textTokens [97, 32, 123, 10]) ∧
      Consistent (textTokens [97, 32, 123, 10]) := by
    rw [← check_isSome_iff, tokens]
    rfl
  have closed := (claimed.mp (accepted.mpr read)).1
  rw [tokens] at closed
  cases closed

end Accept

end Verben
