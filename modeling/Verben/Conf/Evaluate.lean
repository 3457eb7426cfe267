import Verben.Conf.Accept
import Verben.Lib.Orbit

/-!
# When `conf_evaluate` returns

`conf_evaluate` replaces the first reference of a string and calls itself on the result. The
strings it comes to are no longer than the buffer, so it does not come to an end just when one of
them leads back to itself, as for a variable of the environment that refers to itself. When a later
call returns null, `error:` frees the name a second time. Elsewhere the call returns
(`conf_evaluate_returns_iff`), and what it returns has no reference left.
-/

namespace Verben

open Orbit

/-! ## The parts of a reference -/

/-- The text in front of the first `$`. -/
def refHead (value : CStr) : CStr := value.takeWhile (· ≠ 36)

/-- The text behind the first `$`. -/
def refScan (value : CStr) : CStr := (value.dropWhile (· ≠ 36)).tail

/-- The text from the name on: an opening bracket is passed over. -/
def refBody (scan : CStr) : CStr :=
  if scan.headD 0 = 123 ∨ scan.headD 0 = 40 then scan.tail else scan

/-- A name goes on up to a closing bracket or a blank. -/
def refName (scan : CStr) : CStr := (refBody scan).takeWhile fun b => b ≠ 125 && b ≠ 41 && b ≠ 32

/-- The text behind the name. -/
def refRest (scan : CStr) : CStr := (refBody scan).drop (refName scan).length

/-- A closing bracket is passed over, whichever it is. -/
def skipClosing (rest : CStr) : CStr :=
  if rest.headD 0 = 125 ∨ rest.headD 0 = 41 then rest.tail else rest

/-- How a call goes on: it returns, or it calls itself. -/
inductive EvalNext : Type
  | done (ret : EvalRet)
  | next (value : CStr)

/-- The result, when the call that may come next is known. -/
def EvalNext.result (call : CStr → Option EvalRet) : EvalNext → Option EvalRet
  | .done ret => some ret
  | .next value => (call value).map EvalRet.outer

section Evaluate

variable {var : CStr → Option CStr} {value value' text head name rest : CStr}

/-- One call of `conf_evaluate`. A name without a value counts as empty text. -/
def evalNext (var : CStr → Option CStr) (value : CStr) : EvalNext :=
  let head := refHead value
  let scan := refScan value
  let text := (var (refName scan)).getD []
  if 36 ∉ value then .done (.text value)
  else if maxLine - 1 < head.length then .done .null
  else if refName scan = [] then .done .null
  else if maxLine - 1 - head.length < text.length then .done .null
  else .next (head ++ text ++
    (skipClosing (refRest scan)).take (maxLine - 1 - head.length - text.length))

theorem confEvaluate_succ (var : CStr → Option CStr) (fuel : Nat) (value : CStr) :
    confEvaluate var (fuel + 1) value = (evalNext var value).result (confEvaluate var fuel) := by
  rw [confEvaluate]
  unfold evalNext
  dsimp only
  cases found : var (refName (refScan value)) with
  | some text =>
      have found' := found
      unfold refName refBody refScan at found'
      rw [found']
      change (if 36 ∉ value then some (.text value)
        else if maxLine - 1 < (refHead value).length then some .null
        else if refName (refScan value) = [] then some .null
        else if maxLine - 1 - (refHead value).length < text.length then some .null
        else (confEvaluate var fuel (refHead value ++ text ++
          (skipClosing (refRest (refScan value))).take
            (maxLine - 1 - (refHead value).length - text.length))).map EvalRet.outer) = _
      rw [Option.getD_some]
      split_ifs <;> rfl
  | none =>
      have found' := found
      unfold refName refBody refScan at found'
      rw [found']
      change (if 36 ∉ value then some (.text value)
        else if maxLine - 1 < (refHead value).length then some .null
        else if refName (refScan value) = [] then some .null
        else (confEvaluate var fuel (refHead value ++
          (skipClosing (refRest (refScan value))).take
            (maxLine - 1 - (refHead value).length))).map EvalRet.outer) = _
      simp only [Option.getD_none, List.length_nil, Nat.not_lt_zero, if_false, Nat.sub_zero,
        List.append_nil]
      split_ifs <;> rfl

theorem evalNext_of_plain (plain : 36 ∉ value) : evalNext var value = .done (.text value) :=
  if_pos plain

/-- Only a value without a reference is returned at once. -/
theorem plain_of_done (done : evalNext var value = .done (.text text)) :
    text = value ∧ 36 ∉ value := by
  unfold evalNext at done
  dsimp only at done
  split_ifs at done with plain <;> cases done
  exact ⟨rfl, plain⟩

/-- A call by itself frees nothing twice. -/
theorem evalNext_ne_fault : evalNext var value ≠ .done .fault := by
  unfold evalNext
  dsimp only
  split_ifs <;> nofun

/-- What a call calls itself with fits the buffer. -/
theorem length_of_next (next : evalNext var value = .next value') :
    value'.length ≤ maxLine - 1 := by
  unfold evalNext at next
  dsimp only at next
  split_ifs at next with plain long unnamed tight
  · cases next
    simp only [List.length_append, List.length_take]
    omega

/-- The first reference is replaced: the string of the next call, if there is one. -/
def replaceRef (var : CStr → Option CStr) (value : CStr) : Option CStr :=
  match evalNext var value with
  | .done _ => none
  | .next value => some value

theorem replaceRef_eq_some :
    replaceRef var value = some value' ↔ evalNext var value = .next value' := by
  unfold replaceRef
  cases evalNext var value with
  | done ret => exact ⟨nofun, nofun⟩
  | next value => exact ⟨fun same => congrArg _ (Option.some.inj same),
      fun same => congrArg _ (EvalNext.next.inj same)⟩

/-- The calls come to an end as soon as one of them does not call itself. -/
theorem confEvaluate_of_after {n : Nat} (stops : after (replaceRef var) value n = none) :
    ∃ ret, confEvaluate var n value = some ret := by
  induction n generalizing value with
  | zero => cases stops
  | succ n ih =>
      rw [after_succ] at stops
      rw [confEvaluate_succ]
      cases next : evalNext var value with
      | done ret => exact ⟨ret, rfl⟩
      | next value' =>
          rw [replaceRef_eq_some.mpr next, Option.bind_some] at stops
          obtain ⟨ret, returns⟩ := ih stops
          exact ⟨ret.outer, congrArg (Option.map EvalRet.outer) returns⟩

theorem after_of_confEvaluate {n : Nat} {ret : EvalRet}
    (returns : confEvaluate var n value = some ret) : after (replaceRef var) value n = none := by
  induction n generalizing value ret with
  | zero => cases returns
  | succ n ih =>
      rw [confEvaluate_succ] at returns
      rw [after_succ]
      cases next : evalNext var value with
      | done ret =>
          unfold replaceRef
          rw [next]
          rfl
      | next value' =>
          rw [next] at returns
          obtain ⟨ret', returns', _⟩ := Option.map_eq_some_iff.mp returns
          rw [replaceRef_eq_some.mpr next, Option.bind_some]
          exact ih returns'

/-- More fuel gives the same result. -/
theorem confEvaluate_mono {m n : Nat} {ret : EvalRet}
    (returns : confEvaluate var m value = some ret) (more : m ≤ n) :
    confEvaluate var n value = some ret := by
  induction m generalizing n value ret with
  | zero => cases returns
  | succ m ih =>
      cases n with
      | zero => cases more
      | succ n =>
          rw [confEvaluate_succ] at returns ⊢
          cases next : evalNext var value with
          | done ret' =>
              rw [next] at returns
              exact returns
          | next value' =>
              rw [next] at returns
              obtain ⟨ret', returns', rfl⟩ := Option.map_eq_some_iff.mp returns
              have same := ih returns' (Nat.le_of_succ_le_succ more)
              exact congrArg (Option.map EvalRet.outer) same

theorem confEvaluate_unique {m n : Nat} {ret ret' : EvalRet}
    (first : confEvaluate var m value = some ret)
    (second : confEvaluate var n value = some ret') : ret = ret' := by
  have first' := confEvaluate_mono first (Nat.le_max_left m n)
  have second' := confEvaluate_mono second (Nat.le_max_right m n)
  exact Option.some.inj (first'.symm.trans second')

/-- No call makes a string of anything else. -/
theorem EvalRet.eq_text_of_outer {ret : EvalRet} (outer : ret.outer = .text text) :
    ret = .text text := by
  cases ret with
  | null => cases outer
  | fault => cases outer
  | text value => exact outer

/-- What is returned has no `$`. -/
theorem plain_of_confEvaluate {n : Nat} (returns : confEvaluate var n value = some (.text text)) :
    36 ∉ text := by
  induction n generalizing value with
  | zero => cases returns
  | succ n ih =>
      rw [confEvaluate_succ] at returns
      cases next : evalNext var value with
      | done ret =>
          rw [next] at returns
          obtain ⟨rfl, plain⟩ := plain_of_done (next.trans (congrArg _ (Option.some.inj returns)))
          exact plain
      | next value' =>
          rw [next] at returns
          obtain ⟨ret, returns', outer⟩ := Option.map_eq_some_iff.mp returns
          exact ih (returns'.trans (congrArg _ (EvalRet.eq_text_of_outer outer)))

instance finiteUInt8 : Finite UInt8 := Finite.of_injective UInt8.toFin fun _ _ => UInt8.toFin_inj.mp

/-- The strings that the calls come to. -/
theorem finite_strings (var : CStr → Option CStr) (value : CStr) :
    {text | ∃ n, after (replaceRef var) value n = some text}.Finite := by
  refine ((List.finite_length_le UInt8 (maxLine - 1)).insert value).subset ?_
  rintro text ⟨n, at'⟩
  cases n with
  | zero =>
      cases at'
      exact Set.mem_insert _ _
  | succ n =>
      obtain ⟨before, _, step⟩ := Option.bind_eq_some_iff.mp at'
      exact Set.mem_insert_of_mem _ (length_of_next (replaceRef_eq_some.mp step))

/-- The recursion comes to an end, if only to that of the process. -/
def EvalEnds (var : CStr → Option CStr) (value : CStr) : Prop :=
  ∃ fuel ret, confEvaluate var fuel value = some ret

theorem evalEnds_iff_stops :
    EvalEnds var value ↔ ∃ n, after (replaceRef var) value n = none := by
  constructor
  · rintro ⟨fuel, ret, returns⟩
    exact ⟨fuel, after_of_confEvaluate returns⟩
  · rintro ⟨n, stops⟩
    exact ⟨n, confEvaluate_of_after stops⟩

/-- The recursion ends and returns null or a string that has no `$`. -/
def Evaluates (var : CStr → Option CStr) (value : CStr) : Prop :=
  ∃ fuel ret, confEvaluate var fuel value = some ret ∧ ret ≠ .fault ∧
    ∀ text, ret = .text text → 36 ∉ text

theorem Evaluates.ends (evaluates : Evaluates var value) : EvalEnds var value := by
  obtain ⟨fuel, ret, returns, _⟩ := evaluates
  exact ⟨fuel, ret, returns⟩

end Evaluate

/-! ## References, as they are written -/

/-- The first reference of a value: what stands in front of it, its name, and what stands behind
it. A bracket before the name and one behind it are part of the reference, whichever they are. -/
structure FirstRef (value head name rest : CStr) : Prop where
  spelled : ∃ opening closing : CStr, opening ∈ [[], [123], [40]] ∧ closing ∈ [[], [125], [41]] ∧
    value = head ++ 36 :: (opening ++ (name ++ (closing ++ rest))) ∧
    (opening = [] → ∀ b ∈ (name ++ (closing ++ rest)).head?, b ≠ 123 ∧ b ≠ 40) ∧
    (closing = [] → ∀ b ∈ rest.head?, b = 32)
  head_plain : 36 ∉ head
  name_plain : ∀ b ∈ name, b ≠ 125 ∧ b ≠ 41 ∧ b ≠ 32

/-- The first reference is replaced by the value of its name, or by nothing. It must have a name,
and the text up to the end of that value must fit the buffer; what does not fit behind it is cut
off. -/
inductive Replaces (var : CStr → Option CStr) : CStr → CStr → Prop
  | intro {value head name rest : CStr} (ref : FirstRef value head name rest) (named : name ≠ [])
      (fits : (head ++ (var name).getD []).length ≤ maxLine - 1) :
      Replaces var value ((head ++ (var name).getD [] ++ rest).take (maxLine - 1))

section Reference

variable {var : CStr → Option CStr} {value value' s head name rest : CStr}

theorem refHead_append (plain : 36 ∉ head) (value : CStr) :
    refHead (head ++ value) = head ++ refHead value := by
  unfold refHead
  refine List.takeWhile_append_of_pos fun b mem => ?_
  have ne : b ≠ 36 := by
    rintro rfl
    exact plain mem
  exact decide_eq_true ne

theorem refScan_append (plain : 36 ∉ head) (value : CStr) :
    refScan (head ++ value) = refScan value := by
  unfold refScan
  rw [List.dropWhile_append_of_pos fun b mem => ?_]
  have ne : b ≠ 36 := by
    rintro rfl
    exact plain mem
  exact decide_eq_true ne

theorem plain_refHead (value : CStr) : 36 ∉ refHead value := by
  intro mem
  have := List.mem_takeWhile_imp mem
  exact absurd rfl (of_decide_eq_true this)

/-- A value falls apart at its first reference. -/
theorem refHead_refScan (mem : 36 ∈ value) : refHead value ++ 36 :: refScan value = value := by
  unfold refHead refScan
  have split : value.takeWhile (· ≠ 36) ++ value.dropWhile (· ≠ 36) = value :=
    List.takeWhile_append_dropWhile
  have stop := List.head?_dropWhile_not (fun b : UInt8 => decide (b ≠ 36)) value
  cases rest : value.dropWhile (· ≠ 36) with
  | nil =>
      rw [rest, List.append_nil] at split
      rw [← split] at mem
      exact absurd mem (plain_refHead value)
  | cons b rest' =>
      rw [rest] at split stop
      have same : b = 36 := of_not_not (of_decide_eq_false stop)
      rw [same] at split
      exact split

/-- A name ends at a closing bracket, a blank, or the end. -/
def isNameByte (b : UInt8) : Bool := b ≠ 125 && b ≠ 41 && b ≠ 32

theorem isNameByte_iff {b : UInt8} : isNameByte b = true ↔ b ≠ 125 ∧ b ≠ 41 ∧ b ≠ 32 := by
  simp [isNameByte, and_assoc]

theorem refRest_eq (scan : CStr) : refRest scan = (refBody scan).dropWhile isNameByte := by
  have split : refName scan ++ (refBody scan).dropWhile isNameByte = refBody scan :=
    List.takeWhile_append_dropWhile
  unfold refRest
  conv_lhs => rw [← split]
  exact List.drop_left

theorem refName_append_refRest (scan : CStr) : refName scan ++ refRest scan = refBody scan := by
  rw [refRest_eq]
  exact List.takeWhile_append_dropWhile

theorem refRest_ends (scan : CStr) : ∀ b ∈ (refRest scan).head?, b = 125 ∨ b = 41 ∨ b = 32 := by
  intro b mem
  rw [refRest_eq] at mem
  have stop := List.head?_dropWhile_not isNameByte (refBody scan)
  rw [Option.mem_def.mp mem] at stop
  by_contra other
  rw [not_or, not_or] at other
  exact Bool.false_ne_true (stop.symm.trans (isNameByte_iff.mpr other))

/-- A name that is followed by such a byte, or by nothing. -/
theorem refName_of_spelled {scan : CStr} (body : refBody scan = name ++ rest)
    (plain : ∀ b ∈ name, b ≠ 125 ∧ b ≠ 41 ∧ b ≠ 32)
    (ends : ∀ b ∈ rest.head?, b = 125 ∨ b = 41 ∨ b = 32) :
    refName scan = name ∧ refRest scan = rest := by
  have own : ∀ b ∈ name, isNameByte b = true := fun b mem => isNameByte_iff.mpr (plain b mem)
  have taken : rest.takeWhile isNameByte = [] := by
    cases rest with
    | nil => rfl
    | cons b rest =>
        refine List.takeWhile_cons_of_neg fun more => ?_
        have other := isNameByte_iff.mp more
        rcases ends b rfl with eq | eq | eq
        · exact other.1 eq
        · exact other.2.1 eq
        · exact other.2.2 eq
  have named : refName scan = name := by
    change (refBody scan).takeWhile isNameByte = name
    rw [body, List.takeWhile_append_of_pos own, taken, List.append_nil]
  refine ⟨named, ?_⟩
  unfold refRest
  rw [named, body]
  exact List.drop_left

/-- A reference begins with a bracket or without one. -/
theorem refBody_spelled (scan : CStr) :
    ∃ opening : CStr, opening ∈ [[], [123], [40]] ∧ scan = opening ++ refBody scan ∧
      (opening = [] → ∀ b ∈ (refBody scan).head?, b ≠ 123 ∧ b ≠ 40) := by
  unfold refBody
  split
  · next bracket =>
      cases scan with
      | nil => exact absurd bracket (by decide)
      | cons b scan =>
          refine ⟨[b], ?_, rfl, nofun⟩
          rcases bracket with rfl | rfl <;> simp
  · next bare =>
      refine ⟨[], by simp, rfl, fun _ b mem => ?_⟩
      cases scan with
      | nil => cases mem
      | cons b' scan =>
          cases Option.mem_some_iff.mp mem
          exact not_or.mp bare

theorem refBody_of_spelled {opening body : CStr} (mem : opening ∈ [[], [123], [40]])
    (bare : opening = [] → ∀ b ∈ body.head?, b ≠ 123 ∧ b ≠ 40) :
    refBody (opening ++ body) = body := by
  simp only [List.mem_cons, List.not_mem_nil, or_false] at mem
  rcases mem with rfl | rfl | rfl
  · unfold refBody
    cases body with
    | nil => rfl
    | cons b body => exact if_neg (not_or.mpr (bare rfl b rfl))
  · rfl
  · rfl

/-- What stands behind a name begins with a closing bracket, or it is empty or begins with a
blank. -/
theorem skipClosing_spelled {rest : CStr}
    (ends : ∀ b ∈ rest.head?, b = 125 ∨ b = 41 ∨ b = 32) :
    ∃ closing : CStr, closing ∈ [[], [125], [41]] ∧ rest = closing ++ skipClosing rest ∧
      (closing = [] → ∀ b ∈ (skipClosing rest).head?, b = 32) := by
  unfold skipClosing
  split
  · next bracket =>
      cases rest with
      | nil => exact absurd bracket (by decide)
      | cons b rest =>
          refine ⟨[b], ?_, rfl, nofun⟩
          rcases bracket with rfl | rfl <;> simp
  · next bare =>
      refine ⟨[], by simp, rfl, fun _ b mem => ?_⟩
      cases rest with
      | nil => cases mem
      | cons first rest =>
          cases Option.mem_some_iff.mp mem
          rcases ends b rfl with closing | closing | blank
          · exact absurd (Or.inl closing) bare
          · exact absurd (Or.inr closing) bare
          · exact blank

theorem skipClosing_of_spelled {closing rest : CStr} (mem : closing ∈ [[], [125], [41]])
    (ends : closing = [] → ∀ b ∈ rest.head?, b = 32) :
    skipClosing (closing ++ rest) = rest := by
  simp only [List.mem_cons, List.not_mem_nil, or_false] at mem
  rcases mem with rfl | rfl | rfl
  · unfold skipClosing
    cases rest with
    | nil => rfl
    | cons b rest =>
        rw [ends rfl b rfl]
        rfl
  · rfl
  · rfl

/-- The first reference is where the code finds it. -/
theorem firstRef_iff :
    FirstRef value head name rest ↔ 36 ∈ value ∧ head = refHead value ∧
      name = refName (refScan value) ∧ rest = skipClosing (refRest (refScan value)) := by
  constructor
  · rintro ⟨⟨opening, closing, opens, closes, rfl, bare, ends⟩, headPlain, namePlain⟩
    have scan : refScan (head ++ 36 :: (opening ++ (name ++ (closing ++ rest)))) =
        opening ++ (name ++ (closing ++ rest)) := refScan_append headPlain _
    have body := refBody_of_spelled opens bare
    have closed : ∀ b ∈ (closing ++ rest).head?, b = 125 ∨ b = 41 ∨ b = 32 := by
      simp only [List.mem_cons, List.not_mem_nil, or_false] at closes
      rcases closes with rfl | rfl | rfl
      · exact fun b mem => .inr (.inr (ends rfl b mem))
      · exact fun b mem => .inl (Option.mem_some_iff.mp mem).symm
      · exact fun b mem => .inr (.inl (Option.mem_some_iff.mp mem).symm)
    obtain ⟨named, tail⟩ := refName_of_spelled body namePlain closed
    rw [scan, named, tail, skipClosing_of_spelled closes ends, refHead_append headPlain]
    exact ⟨List.mem_append_right _ List.mem_cons_self, (List.append_nil head).symm, rfl, rfl⟩
  · rintro ⟨mem, rfl, rfl, rfl⟩
    obtain ⟨opening, opens, scan, bare⟩ := refBody_spelled (refScan value)
    obtain ⟨closing, closes, tail, ends⟩ := skipClosing_spelled (refRest_ends (refScan value))
    refine ⟨⟨opening, closing, opens, closes, ?_, ?_, ends⟩, plain_refHead value, ?_⟩
    · rw [← tail, refName_append_refRest, ← scan, refHead_refScan mem]
    · rw [← tail, refName_append_refRest]
      exact bare
    · exact fun b own => isNameByte_iff.mp (List.mem_takeWhile_imp own)

/-- A call goes on with what the replacement of the first reference leaves. -/
theorem replaces_iff : Replaces var value value' ↔ evalNext var value = .next value' := by
  unfold evalNext
  dsimp only
  constructor
  · rintro ⟨ref, named, fits⟩
    obtain ⟨mem, rfl, rfl, rfl⟩ := firstRef_iff.mp ref
    have sum := fits
    rw [List.length_append] at sum
    rw [if_neg (not_not_intro mem), if_neg (by omega), if_neg named, if_neg (by omega),
      List.take_append, List.take_of_length_le fits, List.length_append, Nat.sub_sub]
  · intro next
    split_ifs at next with mem long unnamed tight
    cases next
    have fits : (refHead value ++ (var (refName (refScan value))).getD []).length ≤
        maxLine - 1 := by
      rw [List.length_append]
      omega
    have ref := firstRef_iff.mpr ⟨mem, rfl, rfl, rfl⟩
    have whole : Replaces var value _ := .intro ref unnamed fits
    rw [List.take_append, List.take_of_length_le fits, List.length_append, ← Nat.sub_sub] at whole
    exact whole

theorem replaces_eq_leads (var : CStr → Option CStr) :
    Replaces var = Leads (replaceRef var) := by
  funext value value'
  exact propext (replaces_iff.trans replaceRef_eq_some.symm)

/-- An evaluation that ends gives a string just when every reference that it comes to can be
replaced. -/
theorem text_iff_replaces {n : Nat} {ret : EvalRet}
    (returns : confEvaluate var n value = some ret) :
    (∃ text, ret = .text text) ↔
      ∀ s, Relation.ReflTransGen (Replaces var) value s → 36 ∈ s → ∃ s', Replaces var s s' := by
  induction n generalizing value ret with
  | zero => cases returns
  | succ n ih =>
      rw [confEvaluate_succ] at returns
      cases next : evalNext var value with
      | done ret' =>
          rw [next] at returns
          cases returns
          constructor
          · rintro ⟨text, rfl⟩ s reached mem
            rcases Relation.ReflTransGen.cases_head reached with rfl | ⟨value', replaced, _⟩
            · exact absurd mem (plain_of_done next).2
            · cases next.symm.trans (replaces_iff.mp replaced)
          · intro all
            by_cases mem : 36 ∈ value
            · obtain ⟨value', replaced⟩ := all value .refl mem
              cases next.symm.trans (replaces_iff.mp replaced)
            · exact ⟨value, EvalNext.done.inj (next.symm.trans (evalNext_of_plain mem))⟩
      | next value' =>
          rw [next] at returns
          obtain ⟨ret', returns', rfl⟩ := Option.map_eq_some_iff.mp returns
          have replaced := replaces_iff.mpr next
          have outer : (∃ text, ret'.outer = .text text) ↔ ∃ text, ret' = .text text := by
            cases ret' <;> simp [EvalRet.outer]
          rw [outer, ih returns']
          constructor
          · intro all s reached mem
            rcases Relation.ReflTransGen.cases_head reached with rfl | ⟨other, replaced', tail⟩
            · exact ⟨value', replaced⟩
            · cases next.symm.trans (replaces_iff.mp replaced')
              exact all s tail mem
          · exact fun all s reached => all s (.head replaced reached)

/-- A later call that returns null makes the one before it free a name twice. -/
theorem ne_fault_iff_replaces {n : Nat} {ret : EvalRet}
    (returns : confEvaluate var n value = some ret) :
    ret ≠ .fault ↔
      ∀ s, Relation.TransGen (Replaces var) value s → 36 ∈ s → ∃ s', Replaces var s s' := by
  cases n with
  | zero => cases returns
  | succ n =>
      rw [confEvaluate_succ] at returns
      cases next : evalNext var value with
      | done ret' =>
          rw [next] at returns
          cases returns
          refine iff_of_true (fun eq => evalNext_ne_fault (eq ▸ next)) fun s reached => ?_
          obtain ⟨value', replaced, _⟩ := Relation.TransGen.head'_iff.mp reached
          cases next.symm.trans (replaces_iff.mp replaced)
      | next value' =>
          rw [next] at returns
          obtain ⟨ret', returns', rfl⟩ := Option.map_eq_some_iff.mp returns
          have outer : ret'.outer ≠ .fault ↔ ∃ text, ret' = .text text := by
            cases ret' <;> simp [EvalRet.outer]
          rw [outer, text_iff_replaces returns']
          constructor
          · intro all s reached
            obtain ⟨other, replaced, tail⟩ := Relation.TransGen.head'_iff.mp reached
            cases next.symm.trans (replaces_iff.mp replaced)
            exact all s tail
          · exact fun all s reached =>
              all s (Relation.TransGen.head'_iff.mpr ⟨value', replaces_iff.mpr next, reached⟩)

end Reference

/-- **When `conf_evaluate` returns.** For every value, table and environment: the recursion ends and
gives null or a string that has no `$`, if and only if no string that comes of replacing first
references leads back to itself, and every reference but the first of the value, when its turn
comes, has a name and fits the buffer together with the text in front of it. -/
theorem conf_evaluate_returns_iff (env : ConfEnv) (store : ConfStore) (conf : Nat)
    (value : CStr) :
    Evaluates (confVar env store conf) value ↔
      (∀ s, Relation.ReflTransGen (Replaces (confVar env store conf)) value s →
        ¬ Relation.TransGen (Replaces (confVar env store conf)) s s) ∧
      ∀ s, Relation.TransGen (Replaces (confVar env store conf)) value s → 36 ∈ s →
        ∃ s', Replaces (confVar env store conf) s s' := by
  have stops := evalEnds_iff_stops.trans
    (stops_iff (finite_strings (confVar env store conf) value))
  rw [acyclic_iff_leads, ← replaces_eq_leads] at stops
  constructor
  · rintro ⟨fuel, ret, returns, unbroken, _⟩
    exact ⟨stops.mp ⟨fuel, ret, returns⟩, (ne_fault_iff_replaces returns).mp unbroken⟩
  · rintro ⟨acyclic, replaceable⟩
    obtain ⟨fuel, ret, returns⟩ := stops.mpr acyclic
    refine ⟨fuel, ret, returns, (ne_fault_iff_replaces returns).mpr replaceable, ?_⟩
    rintro text rfl
    exact plain_of_confEvaluate returns

/-- A string that is replaced by itself. -/
theorem not_evalEnds_of_self {var : CStr → Option CStr} {value : CStr}
    (self : replaceRef var value = some value) : ¬ EvalEnds var value := by
  rw [evalEnds_iff_stops]
  intro stops
  exact acyclic_of_stops stops 0 1 value Nat.zero_lt_one rfl self

/-- The variable `A` of the environment is `$A`; the table is that of an empty file. -/
theorem conf_evaluate_never_returns :
    ∃ env out, env.getenv [65] = some [36, 65] ∧
      confParse env (confLoop env 1) none [] [] false .init = some (0, out) ∧
      out.ret = .ok ∧ ¬ Evaluates (confVar env out.store 0) [36, 65] := by
  let env : ConfEnv := { ConfEnv.bare with
    getenv := fun name => if name = [65] then some [36, 65] else none }
  have parsed : (confParse env (confLoop env 1) none [] [] false .init).isSome = true := rfl
  obtain ⟨⟨t, out⟩, parsed⟩ := Option.isSome_iff_exists.mp parsed
  have both : t = 0 ∧ out.ret = .ok ∧ replaceRef (confVar env out.store 0) [36, 65] =
      some [36, 65] := by
    cases parsed
    exact ⟨rfl, rfl, rfl⟩
  obtain ⟨rfl, ok, self⟩ := both
  exact ⟨env, out, rfl, parsed, ok, fun evaluates => not_evalEnds_of_self self evaluates.ends⟩

end Verben
