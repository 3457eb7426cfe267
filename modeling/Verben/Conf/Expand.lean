import Verben.Conf.Plain

/-!
# What `conf_evaluate` returns

A value is read as bytes and references (`Reads`), and its complete expansion has the text of each
name in the place of the reference (`expand`). `conf_evaluate` ends a name at a closing bracket of
any kind, whether or not there is an opening one, but not at a `$`, cuts off what does not fit its
buffer behind a reference, and at an error behind the first reference it frees a name twice. Where
none of this happens, the result is the complete expansion (`conf_evaluate_expands`).
-/

namespace Verben

/-! ## Reading a value -/

inductive Bracket : Type
  | brace
  | paren
  deriving DecidableEq

def Bracket.opening : Bracket → UInt8
  | .brace => 123
  | .paren => 40

def Bracket.closing : Bracket → UInt8
  | .brace => 125
  | .paren => 41

/-- What stands around a name: no bracket, or an opening one, with or without the closing one of
its kind. -/
inductive Brackets : Type
  | bare
  | closed (bracket : Bracket)
  | unclosed (bracket : Bracket)

def Brackets.opening : Brackets → CStr
  | .bare => []
  | .closed bracket => [bracket.opening]
  | .unclosed bracket => [bracket.opening]

def Brackets.closing : Brackets → CStr
  | .bare => []
  | .closed bracket => [bracket.closing]
  | .unclosed _ => []

/-- A part of a value: `name`, `{name}` or `(name)` behind a `$`, or another byte. -/
inductive Piece : Type
  | byte (b : UInt8)
  | ref (brackets : Brackets) (name : CStr)

/-- What separates a name from the text behind it: `$`, a blank, and a closing bracket. -/
def EndsName (b : UInt8) : Prop := b = 36 ∨ b = 32 ∨ b = 125 ∨ b = 41

instance decidableEndsName (b : UInt8) : Decidable (EndsName b) :=
  inferInstanceAs (Decidable (_ ∨ _))

/-- What may stand behind a name, so that it does not go on there and no bracket is left out. -/
def Brackets.Behind : Brackets → CStr → CStr → Prop
  | .bare, name, rest =>
      (∀ b ∈ (name ++ rest).head?, b ≠ 123 ∧ b ≠ 40) ∧ ∀ b ∈ rest.head?, EndsName b
  | .closed _, _, _ => True
  | .unclosed bracket, _, rest => ∀ b ∈ rest.head?, EndsName b ∧ b ≠ bracket.closing

/-- The value consists of these parts. -/
inductive Reads : CStr → List Piece → Prop
  | nil : Reads [] []
  | byte {b : UInt8} {rest : CStr} {pieces : List Piece} (plain : b ≠ 36)
      (more : Reads rest pieces) : Reads (b :: rest) (.byte b :: pieces)
  | ref {brackets : Brackets} {name rest : CStr} {pieces : List Piece}
      (named : ∀ b ∈ name, ¬ EndsName b) (behind : brackets.Behind name rest)
      (more : Reads rest pieces) :
      Reads (36 :: (brackets.opening ++ (name ++ (brackets.closing ++ rest))))
        (.ref brackets name :: pieces)

/-- Every reference is replaced by the text of its name, or by nothing, and every other byte is
kept; `none` if a reference has no name. -/
def expand (var : CStr → Option CStr) : List Piece → Option CStr
  | [] => some []
  | .byte b :: pieces => (expand var pieces).map (b :: ·)
  | .ref _ name :: pieces =>
      if name = [] then none
      else (expand var pieces).map ((var name).getD [] ++ ·)

/-- A result is the complete expansion, or null where a reference has no name or the expansion is
too long. -/
def CompleteOrNull (expanded : Option CStr) : EvalRet → Prop
  | .text text => expanded = some text
  | .null => ∀ text, expanded = some text → maxLine - 1 < text.length
  | .fault => False

/-- `conf_evaluate` returns, and what it returns is the complete expansion, or null where the
expansion does not exist or does not fit. -/
def Expands (var : CStr → Option CStr) (value : CStr) : Prop :=
  ∃ pieces, Reads value pieces ∧
    ∃ fuel ret, confEvaluate var fuel value = some ret ∧ CompleteOrNull (expand var pieces) ret

/-! ## Where nothing is lost -/

def Piece.spell : Piece → CStr
  | .byte b => [b]
  | .ref brackets name => 36 :: (brackets.opening ++ (name ++ brackets.closing))

def spell (pieces : List Piece) : CStr := pieces.flatMap Piece.spell

/-- The reference is closed, or the text behind it begins with no byte of a kind. -/
def Brackets.Apart (brackets : Brackets) (rest : CStr) (kind : UInt8 → Prop) : Prop :=
  match brackets with
  | .closed _ => True
  | _ => ∀ b ∈ rest.head?, ¬ kind b

/-- Behind `used` bytes, every reference has a name. No `$` and no closing bracket follows one that
is not closed, and the text fits the buffer whenever a reference is replaced. -/
def RefsFit (var : CStr → Option CStr) : Nat → List Piece → Prop
  | _, [] => True
  | used, .byte _ :: pieces => RefsFit var (used + 1) pieces
  | used, .ref brackets name :: pieces =>
      let done := used + ((var name).getD []).length
      name ≠ [] ∧ brackets.Apart (spell pieces) (· ≠ 32) ∧
        done + (spell pieces).length ≤ maxLine - 1 ∧ RefsFit var done pieces

/-- Behind `used` bytes, the first reference cannot be replaced: it comes too late, or, when no `$`
follows it unclosed, it has no name or its text is too long. -/
def FirstFails (var : CStr → Option CStr) : Nat → List Piece → Prop
  | _, [] => False
  | used, .byte _ :: pieces => FirstFails var (used + 1) pieces
  | used, .ref brackets name :: pieces =>
      maxLine - 1 < used ∨
        brackets.Apart (spell pieces) (· = 36) ∧
          (name = [] ∨ maxLine - 1 < used + ((var name).getD []).length)

section Reads

variable {value name name' rest rest' : CStr} {pieces pieces' : List Piece}

theorem Reads.spelled (reads : Reads value pieces) : value = spell pieces := by
  induction reads with
  | nil => rfl
  | byte _ _ ih => exact congrArg _ ih
  | ref _ _ _ ih =>
      rw [ih]
      simp [spell, Piece.spell]

/-- A value falls apart in one way only behind a `$` and a bracket. -/
theorem name_unique (same : name ++ rest = name' ++ rest') (named : ∀ b ∈ name, ¬ EndsName b)
    (named' : ∀ b ∈ name', ¬ EndsName b) (ends : ∀ b ∈ rest.head?, EndsName b)
    (ends' : ∀ b ∈ rest'.head?, EndsName b) : name = name' ∧ rest = rest' := by
  induction name generalizing name' with
  | nil =>
      cases name' with
      | nil => exact ⟨rfl, same⟩
      | cons b name' =>
          cases same
          exact absurd (ends b rfl) (named' b List.mem_cons_self)
  | cons b name ih =>
      cases name' with
      | nil =>
          cases same
          exact absurd (ends' b rfl) (named b List.mem_cons_self)
      | cons b' name' =>
          obtain ⟨rfl, same'⟩ := List.cons.inj same
          obtain ⟨rfl, rfl⟩ := ih same' (fun b mem => named b (List.mem_cons_of_mem _ mem))
            fun b mem => named' b (List.mem_cons_of_mem _ mem)
          exact ⟨rfl, rfl⟩

theorem Brackets.Behind.ends {brackets : Brackets} (behind : brackets.Behind name rest) :
    ∀ b ∈ (brackets.closing ++ rest).head?, EndsName b := by
  rcases brackets with _ | bracket | bracket
  · exact behind.2
  · intro b mem
    cases Option.mem_some_iff.mp mem
    cases bracket <;> decide
  · exact fun b mem => (behind b mem).1

theorem Brackets.opening_mem (brackets : Brackets) : brackets.opening ∈ [[], [123], [40]] := by
  rcases brackets with _ | bracket | bracket
  · decide
  · cases bracket <;> decide
  · cases bracket <;> decide

/-- No bracket is left out in front of a name. -/
theorem Brackets.Behind.bare {brackets : Brackets} (behind : brackets.Behind name rest)
    (opening : brackets.opening = []) :
    ∀ b ∈ (name ++ (brackets.closing ++ rest)).head?, b ≠ 123 ∧ b ≠ 40 := by
  rcases brackets with _ | bracket | bracket
  · exact behind.1
  · cases opening
  · cases opening

theorem Bracket.opening_inj {bracket bracket' : Bracket}
    (same : bracket.opening = bracket'.opening) : bracket = bracket' := by
  cases bracket <;> cases bracket' <;> first | rfl | cases same

theorem ref_unique {brackets brackets' : Brackets}
    (same : brackets.opening ++ (name ++ (brackets.closing ++ rest)) =
      brackets'.opening ++ (name' ++ (brackets'.closing ++ rest')))
    (named : ∀ b ∈ name, ¬ EndsName b) (named' : ∀ b ∈ name', ¬ EndsName b)
    (behind : brackets.Behind name rest) (behind' : brackets'.Behind name' rest') :
    brackets = brackets' ∧ name = name' ∧ rest = rest' := by
  have body := congrArg refBody same
  rw [refBody_of_spelled brackets.opening_mem behind.bare,
    refBody_of_spelled brackets'.opening_mem behind'.bare] at body
  rw [body] at same
  have opening := List.append_cancel_right same
  obtain ⟨rfl, tail⟩ := name_unique body named named' behind.ends behind'.ends
  rcases brackets with _ | bracket | bracket <;> rcases brackets' with _ | bracket' | bracket'
  · exact ⟨rfl, rfl, tail⟩
  · cases opening
  · cases opening
  · cases opening
  · cases Bracket.opening_inj (List.cons.inj opening).1
    exact ⟨rfl, rfl, (List.cons.inj tail).2⟩
  · cases Bracket.opening_inj (List.cons.inj opening).1
    exact absurd rfl (behind' _ (congrArg List.head? tail.symm)).2
  · cases opening
  · cases Bracket.opening_inj (List.cons.inj opening).1
    exact absurd rfl (behind _ (congrArg List.head? tail)).2
  · cases Bracket.opening_inj (List.cons.inj opening).1
    exact ⟨rfl, rfl, tail⟩

/-- A value can be read in one way only. -/
theorem Reads.unique (reads : Reads value pieces) (reads' : Reads value pieces') :
    pieces = pieces' := by
  generalize same : value = value' at reads'
  induction reads generalizing value' pieces' with
  | nil =>
      cases reads' with
      | nil => rfl
      | byte => cases same
      | ref => cases same
  | @byte b rest pieces plain _ ih =>
      cases reads' with
      | nil => cases same
      | byte _ more' =>
          obtain ⟨rfl, rfl⟩ := List.cons.inj same
          exact congrArg _ (ih _ rfl more')
      | ref => exact absurd (List.cons.inj same).1 plain
  | @ref brackets name rest pieces named behind _ ih =>
      cases reads' with
      | nil => cases same
      | byte plain => exact absurd (List.cons.inj same).1.symm plain
      | ref named' behind' more' =>
          obtain ⟨rfl, rfl, rfl⟩ :=
            ref_unique (List.cons.inj same).2 named named' behind behind'
          exact congrArg _ (ih _ rfl more')

/-- Every value can be read. -/
theorem reads_exists (value : CStr) : ∃ pieces, Reads value pieces := by
  induction length : value.length using Nat.strongRecOn generalizing value with
  | ind n ih =>
      subst length
      cases value with
      | nil => exact ⟨[], .nil⟩
      | cons b scan =>
          by_cases dollar : b = 36
          case neg =>
            obtain ⟨pieces, more⟩ := ih scan.length (Nat.lt_succ_self _) scan rfl
            exact ⟨_, .byte dollar more⟩
          case pos =>
            subst dollar
            obtain ⟨opening, opens, split, bare⟩ := refBody_spelled scan
            generalize refBody scan = body at split bare
            obtain ⟨name, rest, rfl, named, ends⟩ : ∃ name rest : CStr, body = name ++ rest ∧
                (∀ b ∈ name, ¬ EndsName b) ∧ ∀ b ∈ rest.head?, EndsName b := by
              refine ⟨body.takeWhile fun b => ¬ EndsName b, body.dropWhile fun b => ¬ EndsName b,
                List.takeWhile_append_dropWhile.symm, fun b mem => ?_, fun b mem => ?_⟩
              · have own := List.mem_takeWhile_imp mem
                exact of_decide_eq_true own
              have stop := List.head?_dropWhile_not (fun b => decide (¬ EndsName b)) body
              rw [Option.mem_def.mp mem] at stop
              exact not_not.mp (of_decide_eq_false stop)
            subst split
            have reads : ∀ (brackets : Brackets) (rest' : CStr), brackets.opening = opening →
                rest = brackets.closing ++ rest' → brackets.Behind name rest' →
                ∃ pieces, Reads (36 :: (opening ++ (name ++ rest))) pieces := by
              rintro brackets rest' rfl rfl behind
              obtain ⟨pieces, more⟩ := ih rest'.length
                (by simp only [List.length_cons, List.length_append]; omega) rest' rfl
              exact ⟨_, .ref named behind more⟩
            have bracketed : ∀ bracket : Bracket, [bracket.opening] = opening →
                ∃ pieces, Reads (36 :: (opening ++ (name ++ rest))) pieces := by
              intro bracket same
              by_cases closes : rest.head? = some bracket.closing
              · refine reads (.closed bracket) rest.tail same ?_ trivial
                cases rest with
                | nil => cases closes
                | cons b rest => exact congrArg (· :: rest) (Option.some.inj closes)
              · refine reads (.unclosed bracket) rest same rfl fun b mem => ⟨ends b mem, ?_⟩
                rintro rfl
                exact closes mem
            simp only [List.mem_cons, List.not_mem_nil, or_false] at opens
            rcases opens with rfl | rfl | rfl
            · exact reads .bare rest rfl rfl ⟨bare rfl, ends⟩
            · exact bracketed .brace rfl
            · exact bracketed .paren rfl

end Reads

section Count

variable {var : CStr → Option CStr} {value : CStr} {n : Nat}

theorem refRest_sublist (scan : CStr) : (refRest scan).Sublist scan := by
  have body : (refBody scan).Sublist scan := by
    unfold refBody
    split
    · exact List.tail_sublist scan
    · exact List.Sublist.refl scan
  exact (List.drop_sublist _ _).trans body

theorem skipClosing_sublist (rest : CStr) : (skipClosing rest).Sublist rest := by
  unfold skipClosing
  split
  · exact List.tail_sublist rest
  · exact List.Sublist.refl rest

/-- A call replaces a reference, and leaves no more of the others than there were. -/
theorem count_of_next {value' : CStr} (plainVar : ∀ name text, var name = some text → 36 ∉ text)
    (next : evalNext var value = .next value') : value'.count 36 < value.count 36 := by
  have plainText : 36 ∉ (var (refName (refScan value))).getD [] := by
    cases found : var (refName (refScan value)) with
    | none => exact List.not_mem_nil
    | some text => exact plainVar _ _ found
  unfold evalNext at next
  dsimp only at next
  split_ifs at next with mem long unnamed tight
  cases next
  have rest : (skipClosing (refRest (refScan value))).count 36 ≤ (refScan value).count 36 := by
    exact List.Sublist.count_le 36 ((skipClosing_sublist _).trans (refRest_sublist _))
  have taken := List.Sublist.count_le 36 (List.take_sublist
    (maxLine - 1 - (refHead value).length - ((var (refName (refScan value))).getD []).length)
    (skipClosing (refRest (refScan value))))
  have whole : value.count 36 = (refScan value).count 36 + 1 := by
    conv_lhs => rw [← refHead_refScan mem]
    rw [List.count_append, List.count_eq_zero_of_not_mem (plain_refHead value),
      List.count_cons_self, Nat.zero_add]
  rw [List.count_append, List.count_append, List.count_eq_zero_of_not_mem (plain_refHead value),
    List.count_eq_zero_of_not_mem plainText]
  omega

/-- The calls come to an end when no variable has a reference in its value. -/
theorem confEvaluate_of_plain (plainVar : ∀ name text, var name = some text → 36 ∉ text)
    (few : value.count 36 < n) : ∃ ret, confEvaluate var n value = some ret := by
  induction n generalizing value with
  | zero => cases few
  | succ n ih =>
      rw [confEvaluate_succ]
      cases next : evalNext var value with
      | done ret => exact ⟨ret, rfl⟩
      | next value' =>
          have fewer := count_of_next plainVar next
          obtain ⟨ret, returns⟩ := ih (show value'.count 36 < n by omega)
          exact ⟨ret.outer, congrArg (Option.map EvalRet.outer) returns⟩

end Count

section Expand

variable {var : CStr → Option CStr} {before value name rest : CStr} {pieces : List Piece}
  {brackets : Brackets}

theorem Brackets.closing_mem (brackets : Brackets) : brackets.closing ∈ [[], [125], [41]] := by
  rcases brackets with _ | bracket | bracket
  · decide
  · cases bracket <;> decide
  · exact List.mem_cons_self

theorem name_plain (named : ∀ b ∈ name, ¬ EndsName b) :
    ∀ b ∈ name, b ≠ 125 ∧ b ≠ 41 ∧ b ≠ 32 := by
  intro b mem
  have other := named b mem
  unfold EndsName at other
  rw [not_or, not_or, not_or] at other
  exact ⟨other.2.2.1, other.2.2.2, other.2.1⟩

/-- Where a reference that is not closed is followed by a blank, the code takes it as it is
written. -/
theorem firstRef_of_blank (plain : 36 ∉ before) (named : ∀ b ∈ name, ¬ EndsName b)
    (behind : brackets.Behind name rest) (blank : brackets.Apart rest (· ≠ 32)) :
    FirstRef (before ++ 36 :: (brackets.opening ++ (name ++ (brackets.closing ++ rest)))) before
      name rest where
  spelled := by
    refine ⟨_, _, brackets.opening_mem, brackets.closing_mem, rfl, behind.bare, fun closing => ?_⟩
    rcases brackets with _ | bracket | bracket
    · exact fun b mem => not_not.mp (blank b mem)
    · cases closing
    · exact fun b mem => not_not.mp (blank b mem)
  head_plain := plain
  name_plain := name_plain named

/-- Where no `$` follows, the code takes the name as it is written, but a bracket behind it may be
lost. -/
theorem firstRef_of_apart (plain : 36 ∉ before) (named : ∀ b ∈ name, ¬ EndsName b)
    (behind : brackets.Behind name rest) (apart : brackets.Apart rest (· = 36)) :
    ∃ rest', FirstRef (before ++ 36 :: (brackets.opening ++ (name ++ (brackets.closing ++ rest))))
      before name rest' := by
  by_cases blank : brackets.Apart rest (· ≠ 32)
  · exact ⟨rest, firstRef_of_blank plain named behind blank⟩
  · have lost : ∃ b rest', rest = b :: rest' ∧ (b = 125 ∨ b = 41) ∧ brackets.closing = [] := by
      have other : ∀ ends : ∀ b ∈ rest.head?, EndsName b, ∀ apart : ∀ b ∈ rest.head?, ¬ b = 36,
          ∀ _ : ¬ ∀ b ∈ rest.head?, ¬ b ≠ 32,
            ∃ b rest', rest = b :: rest' ∧ (b = 125 ∨ b = 41) := by
        intro ends apart blank
        cases rest with
        | nil => exact absurd (fun b mem => nomatch mem) blank
        | cons b rest =>
            refine ⟨b, rest, rfl, ?_⟩
            rcases ends b rfl with dollar | space | closing
            · exact absurd dollar (apart b rfl)
            · refine absurd (fun b' mem => ?_) blank
              cases Option.mem_some_iff.mp mem
              exact not_not_intro space
            · exact closing
      rcases brackets with _ | bracket | bracket
      · obtain ⟨b, rest', split, closing⟩ := other behind.2 apart blank
        exact ⟨b, rest', split, closing, rfl⟩
      · exact absurd trivial blank
      · obtain ⟨b, rest', split, closing⟩ := other (fun b mem => (behind b mem).1) apart blank
        exact ⟨b, rest', split, closing, rfl⟩
    obtain ⟨b, rest', rfl, closing, none'⟩ := lost
    have bare := behind.bare
    rw [none', List.nil_append] at bare ⊢
    refine ⟨rest', ⟨_, [b], brackets.opening_mem, ?_, rfl, bare, nofun⟩, plain, name_plain named⟩
    rcases closing with rfl | rfl <;> decide

theorem plain_text (plainVar : ∀ name text, var name = some text → 36 ∉ text) (name : CStr) :
    36 ∉ (var name).getD [] := by
  cases found : var name with
  | none => exact List.not_mem_nil
  | some text => exact plainVar _ _ found

/-- **A value whose references fit** is replaced by its complete expansion, behind text without a
reference. -/
theorem confEvaluate_fit (plainVar : ∀ name text, var name = some text → 36 ∉ text)
    (reads : Reads value pieces) (plain : 36 ∉ before)
    (fits : RefsFit var before.length pieces) :
    ∃ fuel text, expand var pieces = some text ∧
      confEvaluate var fuel (before ++ value) = some (.text (before ++ text)) := by
  induction reads generalizing before with
  | nil =>
      refine ⟨1, [], rfl, ?_⟩
      rw [List.append_nil, confEvaluate_succ, evalNext_of_plain plain]
      rfl
  | @byte b rest pieces other _ ih =>
      have plain' : 36 ∉ before ++ [b] := by
        simp only [List.mem_append, List.mem_singleton, not_or]
        exact ⟨plain, other.symm⟩
      obtain ⟨fuel, text, expanded, returns⟩ :=
        ih plain' (by rw [List.length_append, List.length_singleton]; exact fits)
      refine ⟨fuel, b :: text, ?_, ?_⟩
      · rw [expand, expanded]
        rfl
      · simpa using returns
  | @ref brackets name rest pieces named behind more ih =>
      obtain ⟨used, blank, room, fits'⟩ := fits
      rw [← more.spelled] at blank room
      have plain' : 36 ∉ before ++ (var name).getD [] := by
        rw [List.mem_append, not_or]
        exact ⟨plain, plain_text plainVar name⟩
      obtain ⟨fuel, text, expanded, returns⟩ :=
        ih plain' (by rw [List.length_append]; exact fits')
      have short : (before ++ (var name).getD [] ++ rest).length ≤ maxLine - 1 := by
        rw [List.length_append, List.length_append]
        exact room
      have first := firstRef_of_blank plain named behind blank
      have fits : (before ++ (var name).getD []).length ≤ maxLine - 1 :=
        Nat.le_trans (List.sublist_append_left _ _).length_le short
      have replaced : Replaces var _ _ := .intro first used fits
      rw [List.take_of_length_le short] at replaced
      refine ⟨fuel + 1, (var name).getD [] ++ text, ?_, ?_⟩
      · rw [expand, if_neg used, expanded]
        rfl
      · rw [confEvaluate_succ, replaces_iff.mp replaced, ← List.append_assoc]
        exact congrArg (Option.map EvalRet.outer) returns

/-- **A value whose first reference cannot be replaced** gives null, and has no expansion that
fits. -/
theorem evalNext_of_firstFails (reads : Reads value pieces) (plain : 36 ∉ before)
    (fails : FirstFails var before.length pieces) :
    evalNext var (before ++ value) = .done .null ∧
      ∀ text, expand var pieces = some text → maxLine - 1 < before.length + text.length := by
  induction reads generalizing before with
  | nil => cases fails
  | @byte b rest pieces other _ ih =>
      have plain' : 36 ∉ before ++ [b] := by
        simp only [List.mem_append, List.mem_singleton, not_or]
        exact ⟨plain, other.symm⟩
      obtain ⟨null, long⟩ :=
        ih plain' (by rw [List.length_append, List.length_singleton]; exact fails)
      refine ⟨by simpa using null, fun text expanded => ?_⟩
      obtain ⟨text', expanded', rfl⟩ := Option.map_eq_some_iff.mp expanded
      have := long text' expanded'
      rw [List.length_append, List.length_singleton] at this
      rw [List.length_cons]
      omega
  | @ref brackets name rest pieces named behind more ih =>
      have mem : 36 ∈ before ++
          36 :: (brackets.opening ++ (name ++ (brackets.closing ++ rest))) :=
        List.mem_append_right _ List.mem_cons_self
      have least : ∀ text, expand var (.ref brackets name :: pieces) = some text →
          name ≠ [] ∧ ((var name).getD []).length ≤ text.length := by
        intro text expanded
        rw [expand] at expanded
        split at expanded
        · cases expanded
        · next used =>
            obtain ⟨text', _, rfl⟩ := Option.map_eq_some_iff.mp expanded
            exact ⟨used, by rw [List.length_append]; exact Nat.le_add_right _ _⟩
      have head : refHead (before ++
          36 :: (brackets.opening ++ (name ++ (brackets.closing ++ rest)))) = before := by
        rw [refHead_append plain]
        exact List.append_nil before
      unfold evalNext
      dsimp only
      rw [if_neg (not_not_intro mem), head]
      by_cases late : maxLine - 1 < before.length
      · rw [if_pos late]
        exact ⟨rfl, fun text _ => Nat.lt_of_lt_of_le late (Nat.le_add_right _ _)⟩
      · obtain ⟨apart, reason⟩ := fails.resolve_left late
        rw [← more.spelled] at apart
        obtain ⟨rest', first⟩ := firstRef_of_apart plain named behind apart
        obtain ⟨_, _, same, _⟩ := firstRef_iff.mp first
        rw [if_neg late, ← same]
        by_cases unnamed : name = []
        · rw [if_pos unnamed]
          exact ⟨rfl, fun text expanded => absurd unnamed (least text expanded).1⟩
        · have long := reason.resolve_left unnamed
          rw [if_neg unnamed, if_pos (by omega)]
          refine ⟨rfl, fun text expanded => ?_⟩
          have := (least text expanded).2
          omega

end Expand

/-- The value of a variable, where the environment has no reference in it. -/
theorem plain_confVar {env : ConfEnv} {store : ConfStore} (conf : Nat)
    (plainEnv : ∀ name text, env.getenv name = some text → 36 ∉ text) (plain : store.Plain) :
    ∀ name text, confVar env store conf name = some text → 36 ∉ text := by
  intro name text found
  rcases Option.or_eq_some_iff.mp found with own | ⟨_, other⟩
  · unfold confGetStrValue at own
    split at own
    · split at own
      · next cv _ value _ content =>
          cases own
          exact plain _ _ content _ List.mem_cons_self
      · cases own
    · cases own
  · exact plainEnv name text other

/-- The variable `A` of the environment is `x`. -/
def ConfEnv.justA : ConfEnv :=
  { ConfEnv.bare with getenv := fun name => if name = [65] then some [120] else none }

theorem plain_justA : ∀ name text, ConfEnv.justA.getenv name = some text → 36 ∉ text := by
  intro name text found
  have : text = [120] := by
    simp only [ConfEnv.justA, Option.ite_none_right_eq_some, Option.some.injEq] at found
    exact found.2.symm
  subst this
  decide

instance decidableApart (brackets : Brackets) (rest : CStr) (kind : UInt8 → Prop)
    [DecidablePred kind] : Decidable (brackets.Apart rest kind) :=
  match brackets with
  | .closed _ => inferInstanceAs (Decidable True)
  | .bare => Option.decidableForallMem rest.head?
  | .unclosed _ => Option.decidableForallMem rest.head?

instance decidableRefsFit (var : CStr → Option CStr) :
    (used : Nat) → (pieces : List Piece) → Decidable (RefsFit var used pieces)
  | _, [] => inferInstanceAs (Decidable True)
  | used, .byte _ :: pieces => decidableRefsFit var (used + 1) pieces
  | used, .ref _ name :: pieces =>
      have := decidableRefsFit var (used + ((var name).getD []).length) pieces
      inferInstanceAs (Decidable (_ ∧ _ ∧ _ ∧ _))

/-- **What `conf_evaluate` returns.** For every table that `conf_parse` built and every
environment without references in its values: a value whose references all fit is replaced by
its complete expansion, and one whose first reference cannot be replaced by null. -/
theorem conf_evaluate_expands (env : ConfEnv) (store : ConfStore) (conf : Nat) {value : CStr}
    {pieces : List Piece} (plainEnv : ∀ name text, env.getenv name = some text → 36 ∉ text)
    (plain : store.Plain) (reads : Reads value pieces)
    (fits : RefsFit (confVar env store conf) 0 pieces ∨
      FirstFails (confVar env store conf) 0 pieces) :
    Expands (confVar env store conf) value := by
  have none' : 36 ∉ ([] : CStr) := List.not_mem_nil
  refine ⟨pieces, reads, ?_⟩
  rcases fits with fits | fails
  · obtain ⟨fuel, text, expanded, returns⟩ :=
      confEvaluate_fit (plain_confVar conf plainEnv plain) reads none' fits
    exact ⟨fuel, .text text, returns, expanded⟩
  · obtain ⟨null, long⟩ := evalNext_of_firstFails reads none' fails
    refine ⟨1, .null, ?_, fun text expanded => ?_⟩
    · rw [confEvaluate_succ]
      exact congrArg (EvalNext.result _) null
    · have := long text expanded
      rwa [List.length_nil, Nat.zero_add] at this

/-- The value `${A}/$A`. -/
theorem conf_evaluate_expands_two :
    Expands (confVar .justA .init 0) [36, 123, 65, 125, 47, 36, 65] := by
  have plain : ∀ b ∈ [65], ¬ EndsName b := List.forall_mem_singleton.mpr (by decide)
  have reads : Reads [36, 123, 65, 125, 47, 36, 65]
      [.ref (.closed .brace) [65], .byte 47, .ref .bare [65]] := by
    have last : Reads [36, 65] [.ref .bare [65]] :=
      @Reads.ref .bare [65] [] [] plain ⟨fun b mem => by cases mem; decide, nofun⟩ .nil
    have rest : Reads [47, 36, 65] [.byte 47, .ref .bare [65]] := .byte (by decide) last
    exact @Reads.ref (.closed .brace) [65] _ _ plain trivial rest
  exact conf_evaluate_expands .justA .init 0 plain_justA ConfStore.plain_init reads
    (.inl (by decide))

/-- The bracket of the value `$A}` is dropped; the table is that of an empty file. -/
theorem conf_evaluate_drops_bracket :
    ∃ out, confParse .justA (confLoop .justA 1) none [] [] false .init = some (0, out) ∧
      out.ret = .ok ∧ ¬ Expands (confVar .justA out.store 0) [36, 65, 125] := by
  have parsed : (confParse .justA (confLoop .justA 1) none [] [] false .init).isSome = true := rfl
  obtain ⟨⟨t, out⟩, parsed⟩ := Option.isSome_iff_exists.mp parsed
  have known : t = 0 ∧ out.ret = .ok ∧
      confEvaluate (confVar .justA out.store 0) 2 [36, 65, 125] = some (.text [120]) ∧
      expand (confVar .justA out.store 0) [.ref .bare [65], .byte 125] = some [120, 125] := by
    cases parsed
    exact ⟨rfl, rfl, rfl, rfl⟩
  obtain ⟨rfl, ok, returned, expanded⟩ := known
  refine ⟨out, parsed, ok, ?_⟩
  rintro ⟨pieces, reads, fuel, ret, ran, complete⟩
  have reads' : Reads [36, 65, 125] [.ref .bare [65], .byte 125] :=
    @Reads.ref .bare [65] [125] _ (List.forall_mem_singleton.mpr (by decide))
      ⟨fun b mem => by cases mem; decide, fun b mem => by cases mem; decide⟩
      (.byte (by decide) .nil)
  cases reads.unique reads'
  cases confEvaluate_unique returned ran
  cases (expanded.symm.trans complete)

end Verben
