import Mathlib.Data.List.Induction
import Mathlib.Logic.Function.Basic
import Mathlib.Tactic.Common

/-!
# Nested scopes

A text of tokens that open and close scopes and use names in them: a name is used for a value,
or for a scope that it opens. `check` reads the tokens with a stack of scopes and stops at a
close that matches nothing, and at a name that its scope has used in the other way.
`check_isSome_iff` says what that means for the text: no close is stray (`NoStray`), and no
scope uses a name in both ways (`Consistent`). Whether every scope is closed at the end is
another matter: `depth` counts those that are open.
-/

namespace Scopes

variable {K : Type*}

/-- What a name is used for. -/
inductive Use : Type
  | value
  | scope
  deriving DecidableEq

inductive Token (K : Type*)
  | opens (key : K)
  | sets (key : K)
  | close
  | skip
  deriving DecidableEq

/-- The name that a token uses in the scope it stands in. -/
def Token.use : Token K → Option (K × Use)
  | .opens key => some (key, .scope)
  | .sets key => some (key, .value)
  | .close => none
  | .skip => none

/-- The open scopes behind a token. A stray close closes none. -/
def Token.depth (d : Nat) : Token K → Nat
  | .opens _ => d + 1
  | .close => d - 1
  | .sets _ => d
  | .skip => d

/-- How many scopes a text leaves open. -/
def depth (toks : List (Token K)) : Nat := toks.foldl Token.depth 0

/-- The text uses the name in the scope that is still open at level `d`. -/
def Uses (toks : List (Token K)) (d : Nat) (key : K) (use : Use) : Prop :=
  ∃ before tok after, toks = before ++ tok :: after ∧ tok.use = some (key, use) ∧
    depth before = d ∧ ∀ part, part <+: tok :: after → d ≤ depth (before ++ part)

/-- No close stands outside a scope. -/
def NoStray (toks : List (Token K)) : Prop :=
  ∀ before after, toks = before ++ .close :: after → 0 < depth before

/-- A name that is used again in its scope is used in the same way. -/
def Consistent (toks : List (Token K)) : Prop :=
  ∀ before tok after, toks = before ++ tok :: after → ∀ key use, tok.use = some (key, use) →
    ∀ use', Uses before (depth before) key use' → use' = use

section Text

variable {toks : List (Token K)} {tok : Token K} {d : Nat} {key : K} {use : Use}

theorem depth_concat (toks : List (Token K)) (tok : Token K) :
    depth (toks ++ [tok]) = tok.depth (depth toks) := by
  unfold depth
  rw [List.foldl_append]
  rfl

/-- One more token keeps the uses in the scopes that stay open, and may add one. -/
theorem uses_concat :
    Uses (toks ++ [tok]) d key use ↔ d ≤ depth (toks ++ [tok]) ∧
      (Uses toks d key use ∨ tok.use = some (key, use) ∧ depth toks = d) := by
  constructor
  · rintro ⟨before, first, after, same, used, level, above⟩
    have last : d ≤ depth (toks ++ [tok]) := by
      rw [same]
      exact above _ (List.prefix_refl _)
    refine ⟨last, ?_⟩
    rcases List.eq_nil_or_concat after with rfl | ⟨after, last', rfl⟩
    · obtain ⟨rfl, eq⟩ := List.append_inj' same rfl
      cases eq
      exact Or.inr ⟨used, level⟩
    · have split : toks ++ [tok] = (before ++ first :: after) ++ [last'] := by
        rw [same]
        simp
      obtain ⟨rfl, eq⟩ := List.append_inj' split rfl
      refine Or.inl ⟨before, first, after, rfl, used, level, fun part inside => ?_⟩
      exact above part (inside.trans ⟨[last'], by simp⟩)
  · rintro ⟨last, ⟨before, first, after, rfl, used, level, above⟩ | ⟨used, level⟩⟩
    · refine ⟨before, first, after ++ [tok], by simp, used, level, fun part inside => ?_⟩
      rw [← List.cons_append] at inside
      rcases List.prefix_concat_iff.mp inside with rfl | inside
      · simpa using last
      · exact above part inside
    · refine ⟨toks, tok, [], rfl, used, level, fun part inside => ?_⟩
      rcases List.prefix_cons_iff.mp inside with rfl | ⟨rest, rfl, none'⟩
      · have level' : depth (toks ++ []) = d := by rw [List.append_nil, level]
        exact Nat.le_of_eq level'.symm
      · rw [List.prefix_nil.mp none']
        exact last

theorem noStray_concat :
    NoStray (toks ++ [tok]) ↔ NoStray toks ∧ (tok = .close → 0 < depth toks) := by
  constructor
  · intro clean
    refine ⟨fun before after same => ?_, fun close => ?_⟩
    · exact clean before (after ++ [tok]) (by rw [same]; simp)
    · exact clean toks [] (by rw [close])
  · rintro ⟨clean, last⟩ before after same
    rcases List.eq_nil_or_concat after with rfl | ⟨after, last', rfl⟩
    · obtain ⟨rfl, eq⟩ := List.append_inj' same rfl
      cases eq
      exact last rfl
    · have split : toks ++ [tok] = (before ++ .close :: after) ++ [last'] := by
        rw [same]
        simp
      obtain ⟨rfl, _⟩ := List.append_inj' split rfl
      exact clean before after rfl

theorem consistent_concat :
    Consistent (toks ++ [tok]) ↔ Consistent toks ∧
      ∀ key use, tok.use = some (key, use) →
        ∀ use', Uses toks (depth toks) key use' → use' = use := by
  constructor
  · intro clean
    refine ⟨fun before first after same => ?_, clean toks tok [] rfl⟩
    exact clean before first (after ++ [tok]) (by rw [same]; simp)
  · rintro ⟨clean, last⟩ before first after same
    rcases List.eq_nil_or_concat after with rfl | ⟨after, last', rfl⟩
    · obtain ⟨rfl, eq⟩ := List.append_inj' same rfl
      cases eq
      exact last
    · have split : toks ++ [tok] = (before ++ first :: after) ++ [last'] := by
        rw [same]
        simp
      obtain ⟨rfl, _⟩ := List.append_inj' split rfl
      exact clean before first after rfl

end Text

/-! ## Reading with a stack -/

/-- How a scope has used each name. -/
abbrev Scope (K : Type*) := K → Option Use

/-- Record a use, unless the name was used in the other way. -/
def Scope.record [DecidableEq K] (scope : Scope K) (key : K) (use : Use) : Option (Scope K) :=
  if scope key = none ∨ scope key = some use then
    some (Function.update scope key (some use))
  else
    none

/-- The stack of open scopes behind a token, the innermost one first. -/
def check [DecidableEq K] : List (Scope K) → Token K → Option (List (Scope K))
  | scopes, .skip => some scopes
  | _ :: outer :: scopes, .close => some (outer :: scopes)
  | _, .close => none
  | scope :: scopes, .sets key => (scope.record key .value).map (· :: scopes)
  | scope :: scopes, .opens key =>
      (scope.record key .scope).map fun scope => (fun _ => none) :: scope :: scopes
  | [], _ => none

/-- The stack has the uses of every open scope, level by level. -/
def Keeps (toks : List (Token K)) : Nat → List (Scope K) → Prop
  | 0, [] => True
  | d + 1, scope :: scopes =>
      (∀ key use, scope key = some use ↔ Uses toks d key use) ∧ Keeps toks d scopes
  | _, _ => False

section Check

variable {toks : List (Token K)} {tok : Token K} {scope : Scope K}
  {scopes scopes' : List (Scope K)} {key : K} {use : Use}

/-- A token changes nothing in the scopes below the innermost one. -/
theorem Keeps.lower {n : Nat} (keeps : Keeps toks n scopes) (below : n ≤ depth toks)
    (below' : n ≤ depth (toks ++ [tok]) + 1) : Keeps (toks ++ [tok]) n scopes := by
  induction n generalizing scopes with
  | zero =>
      cases scopes with
      | nil => trivial
      | cons scope scopes => cases keeps
  | succ n ih =>
      cases scopes with
      | nil => cases keeps
      | cons scope scopes =>
          rcases keeps with ⟨here, rest⟩
          refine ⟨fun key use => ?_, ih rest (by omega) (by omega)⟩
          have other : depth toks ≠ n := by omega
          have inside : n ≤ depth (toks ++ [tok]) := by omega
          rw [here, uses_concat]
          simp [other, inside]

/-- A scope that was just opened has no uses. -/
theorem not_uses_opened (toks : List (Token K)) (opened key : K) (use : Use) :
    ¬ Uses (toks ++ [.opens opened]) (depth toks + 1) key use := by
  rw [uses_concat]
  rintro ⟨_, ⟨before, tok, after, same, _, _, above⟩ | ⟨_, eq⟩⟩
  · have inside := above _ (List.prefix_refl _)
    rw [← same] at inside
    omega
  · omega

variable [DecidableEq K]

/-- Recording fails exactly on the other use. -/
theorem Scope.record_eq_none :
    scope.record key use = none ↔ ∃ use' ≠ use, scope key = some use' := by
  unfold Scope.record
  cases before : scope key with
  | none => simp
  | some use' => simp

theorem Scope.record_eq_some {scope' : Scope K} (recorded : scope.record key use = some scope') :
    scope' = Function.update scope key (some use) ∧
      ∀ use', scope key = some use' → use' = use := by
  unfold Scope.record at recorded
  split at recorded
  · next same =>
      cases recorded
      refine ⟨rfl, fun use' before => ?_⟩
      rcases same with same | same
      · rw [same] at before
        cases before
      · exact Option.some.inj (before.symm.trans same)
  · cases recorded

/-- What a token that uses a name does to the uses of the scope it stands in. -/
theorem keeps_recorded (tok : Token K) {scope' : Scope K}
    (here : ∀ key use, scope key = some use ↔ Uses toks (depth toks) key use)
    (used : tok.use = some (key, use)) (stays : depth toks ≤ depth (toks ++ [tok]))
    (recorded : scope.record key use = some scope') :
    (∀ key' use', scope' key' = some use' ↔ Uses (toks ++ [tok]) (depth toks) key' use') ∧
      ∀ key' use', tok.use = some (key', use') →
        ∀ other, Uses toks (depth toks) key' other → other = use' := by
  obtain ⟨rfl, clean⟩ := Scope.record_eq_some recorded
  refine ⟨fun key' use' => ?_, fun key' use' again other before => ?_⟩
  · rw [uses_concat, used, ← here]
    by_cases same : key' = key
    · subst same
      rw [Function.update_self]
      constructor
      · intro eq
        exact ⟨stays, Or.inr ⟨by rw [Option.some.inj eq], rfl⟩⟩
      · rintro ⟨_, before | ⟨eq, _⟩⟩
        · rw [clean use' before]
        · rw [(Prod.mk.inj (Option.some.inj eq)).2]
    · have other : (key, use) ≠ (key', use') := fun eq => same (Prod.mk.inj eq).1.symm
      rw [Function.update_of_ne same]
      simp [stays, other]
  · cases used.symm.trans again
    exact clean other ((here key other).mpr before)

theorem keeps_check (keeps : Keeps toks (depth toks + 1) scopes)
    (checked : check scopes tok = some scopes') :
    Keeps (toks ++ [tok]) (depth (toks ++ [tok]) + 1) scopes' ∧
      (tok = .close → 0 < depth toks) ∧
      ∀ key use, tok.use = some (key, use) →
        ∀ use', Uses toks (depth toks) key use' → use' = use := by
  cases scopes with
  | nil => cases keeps
  | cons scope scopes =>
      rcases keeps with ⟨here, rest⟩
      cases tok with
      | skip =>
          have level : depth (toks ++ [.skip]) = depth toks := depth_concat ..
          cases checked
          refine ⟨?_, nofun, nofun⟩
          rw [level]
          refine ⟨fun key use => ?_, rest.lower (Nat.le_refl _) (by omega)⟩
          rw [here, uses_concat, level]
          simp [Token.use]
      | close =>
          have level : depth (toks ++ [.close]) = depth toks - 1 := depth_concat ..
          cases scopes with
          | nil => cases checked
          | cons outer scopes =>
              cases checked
              cases up : depth toks with
              | zero =>
                  rw [up] at rest
                  cases rest
              | succ n =>
                  refine ⟨?_, fun _ => Nat.succ_pos n, nofun⟩
                  have level' : depth (toks ++ [.close]) + 1 = depth toks := by omega
                  rw [level']
                  exact rest.lower (Nat.le_refl _) (by omega)
      | sets key =>
          have level : depth (toks ++ [.sets key]) = depth toks := depth_concat ..
          obtain ⟨scope', recorded, rfl⟩ := Option.map_eq_some_iff.mp checked
          obtain ⟨here', clean⟩ := keeps_recorded (.sets key) here rfl (by omega) recorded
          refine ⟨?_, nofun, clean⟩
          rw [level]
          exact ⟨here', rest.lower (Nat.le_refl _) (by omega)⟩
      | opens key =>
          have level : depth (toks ++ [.opens key]) = depth toks + 1 := depth_concat ..
          obtain ⟨scope', recorded, rfl⟩ := Option.map_eq_some_iff.mp checked
          obtain ⟨here', clean⟩ := keeps_recorded (.opens key) here rfl (by omega) recorded
          refine ⟨?_, nofun, clean⟩
          rw [level]
          refine ⟨fun key' use' => ?_, here', rest.lower (Nat.le_refl _) (by omega)⟩
          exact ⟨nofun, fun uses => absurd uses (not_uses_opened toks key key' use')⟩

/-- Reading stops at a stray close, and at a name that is used in the other way. -/
theorem stops_of_check (keeps : Keeps toks (depth toks + 1) scopes)
    (checked : check scopes tok = none) :
    tok = .close ∧ depth toks = 0 ∨
      ∃ key use, tok.use = some (key, use) ∧ ∃ use' ≠ use, Uses toks (depth toks) key use' := by
  cases scopes with
  | nil => cases keeps
  | cons scope scopes =>
      rcases keeps with ⟨here, rest⟩
      cases tok with
      | skip => cases checked
      | close =>
          cases scopes with
          | nil =>
              refine Or.inl ⟨rfl, ?_⟩
              cases up : depth toks with
              | zero => rfl
              | succ n =>
                  rw [up] at rest
                  cases rest
          | cons outer scopes => cases checked
      | sets key =>
          have failed := Option.map_eq_none_iff.mp checked
          obtain ⟨use', other, before⟩ := Scope.record_eq_none.mp failed
          exact Or.inr ⟨key, .value, rfl, use', other, (here key use').mp before⟩
      | opens key =>
          have failed := Option.map_eq_none_iff.mp checked
          obtain ⟨use', other, before⟩ := Scope.record_eq_none.mp failed
          exact Or.inr ⟨key, .scope, rfl, use', other, (here key use').mp before⟩

/-- The outermost scope stays open. -/
theorem check_ne_nil (some' : scopes ≠ []) (tok : Token K) : check scopes tok ≠ some [] := by
  intro checked
  unfold check at checked
  split at checked
  · exact some' (Option.some.inj checked)
  · cases checked
  · cases checked
  · simp at checked
  · simp at checked
  · cases checked

theorem foldlM_check_ne_nil (some' : scopes ≠ []) (toks : List (Token K)) :
    toks.foldlM check scopes ≠ some [] := by
  induction toks generalizing scopes with
  | nil => exact fun eq => some' (Option.some.inj eq)
  | cons tok toks ih =>
      rw [List.foldlM_cons]
      cases checked : check scopes tok with
      | none => nofun
      | some scopes' =>
          refine ih ?_
          rintro rfl
          exact check_ne_nil some' tok checked

/-- What reading a whole text says about it. -/
theorem check_all (toks : List (Token K)) :
    match toks.foldlM check [fun _ => none] with
    | some scopes => NoStray toks ∧ Consistent toks ∧ Keeps toks (depth toks + 1) scopes
    | none => ¬ (NoStray toks ∧ Consistent toks) := by
  induction toks using List.reverseRecOn with
  | nil =>
      refine ⟨fun before after same => ?_, fun before tok after same => ?_, ?_, trivial⟩
      · simp at same
      · simp at same
      · intro key use
        refine ⟨nofun, ?_⟩
        rintro ⟨before, tok, after, same, _⟩
        simp at same
  | append_singleton toks tok ih =>
      rw [List.foldlM_append]
      cases read : toks.foldlM check [fun _ => none] with
      | none =>
          rw [read] at ih
          rintro ⟨clean, consistent⟩
          exact ih ⟨(noStray_concat.mp clean).1, (consistent_concat.mp consistent).1⟩
      | some scopes =>
          rw [read] at ih
          rcases ih with ⟨clean, consistent, keeps⟩
          have one : ((some scopes).bind fun scopes => [tok].foldlM check scopes) =
              check scopes tok := by
            simp
          change match (some scopes).bind fun scopes => [tok].foldlM check scopes with
            | some scopes => _
            | none => _
          rw [one]
          cases checked : check scopes tok with
          | some scopes' =>
              obtain ⟨keeps', close, again⟩ := keeps_check keeps checked
              exact ⟨noStray_concat.mpr ⟨clean, close⟩,
                consistent_concat.mpr ⟨consistent, again⟩, keeps'⟩
          | none =>
              rintro ⟨clean', consistent'⟩
              rcases stops_of_check keeps checked with
                ⟨close, bottom⟩ | ⟨key, use, used, use', other, before⟩
              · have := (noStray_concat.mp clean').2 close
                omega
              · exact other ((consistent_concat.mp consistent').2 key use used use' before)

/-- **A text is read to its end** if and only if no close is stray and no scope uses a name in
both ways. -/
theorem check_isSome_iff (toks : List (Token K)) :
    (toks.foldlM check [fun _ => none]).isSome ↔ NoStray toks ∧ Consistent toks := by
  have all := check_all toks
  cases read : toks.foldlM check [fun _ => none] with
  | some scopes =>
      rw [read] at all
      exact ⟨fun _ => ⟨all.1, all.2.1⟩, fun _ => rfl⟩
  | none =>
      rw [read] at all
      exact ⟨nofun, fun both => absurd both all⟩

end Check

end Scopes
