import Verben.Conf.Model
import Verben.Lib.Scopes

/-!
# The lines of a configuration

`textLines` are the lines of a text, and `confToken` says what a line does: a line with the
single field `}` (and whatever follows it without a blank) closes a block, one with a key and
`{` opens a block, and one with a key and another value sets it. In a text as the
documentation shows it (`PlainText`), one round of `conf_parse` reads one line and does what
its token says (`confLine_token`).
-/

namespace Verben

open Scopes

/-- The lines of a text, without the newlines. -/
def textLines : List UInt8 → List CStr
  | [] => []
  | b :: text =>
      if b = 10 then
        [] :: textLines text
      else
        match textLines text with
        | [] => [[b]]
        | line :: lines => (b :: line) :: lines

/-- What a line does. `#` is 35, `}` is 125 and `{` is 123. -/
def confToken (line : CStr) : Token CStr :=
  if line.head? = some 35 then .skip
  else
    match splitFields defaultIfs 1 line with
    | [field] => if field.head? = some 125 then .close else .skip
    | [key, value] => if value = [123] then .opens key else .sets key
    | _ => .skip

def textTokens (text : List UInt8) : List (Token CStr) := (textLines text).map confToken

/-- A line that fits the buffer, has a field, and is no `include`. -/
structure PlainLine (line : CStr) : Prop where
  short : line.length < 1023
  fields : splitFields defaultIfs 1 line ≠ []
  noInclude : ∀ value,
    splitFields defaultIfs 1 line ≠ [[105, 110, 99, 108, 117, 100, 101], value]

/-- A text without zero bytes, references and lines of another kind. -/
structure PlainText (text : List UInt8) : Prop where
  noNul : 0 ∉ text
  noReference : 36 ∉ text
  lines : ∀ line ∈ textLines text, PlainLine line

/-- A text of plain lines, as a test of its bytes. -/
theorem plainText_of {text : List UInt8} (noNul : 0 ∉ text) (noReference : 36 ∉ text)
    (lines : ∀ line ∈ textLines text, line.length < 1023 ∧ ∃ key fields,
      splitFields defaultIfs 1 line = key :: fields ∧
        key ≠ [105, 110, 99, 108, 117, 100, 101]) : PlainText text := by
  refine ⟨noNul, noReference, fun line mem => ?_⟩
  obtain ⟨short, key, fields, split, noInclude⟩ := lines line mem
  refine ⟨short, ?_, fun value same => ?_⟩
  · rw [split]
    exact List.cons_ne_nil _ _
  · rw [split] at same
    exact noInclude (List.cons.inj same).1

/-! ## Reading a line -/

theorem textLines_cons (b : UInt8) (text : List UInt8) :
    textLines (b :: text) =
      if b = 10 then [] :: textLines text
      else (b :: (textLines text).headD []) :: (textLines text).tail := by
  rw [textLines]
  split
  · rfl
  · split
    · next none' => rw [none']; rfl
    · next some' => rw [some']; rfl

/-- What `fgets` takes of a text is its first line. -/
theorem takeLine_eq {n : Nat} {text : List UInt8}
    (short : ((textLines text).headD []).length < n) :
    ∃ raw rest, takeLine n text = (raw, rest) ∧ textLines rest = (textLines text).tail ∧
      (raw = (textLines text).headD [] ++ [10] ∨ raw = (textLines text).headD []) ∧
      10 ∉ (textLines text).headD [] ∧ text = raw ++ rest := by
  induction text generalizing n with
  | nil =>
      refine ⟨[], [], ?_, rfl, Or.inr rfl, List.not_mem_nil, rfl⟩
      cases n <;> rfl
  | cons b text ih =>
      rw [textLines_cons] at short ⊢
      by_cases newline : b = 10
      · rw [if_pos newline] at short ⊢
        cases n with
        | zero => exact absurd short (Nat.not_lt_zero _)
        | succ n =>
            refine ⟨[b], text, ?_, rfl, Or.inl ?_, List.not_mem_nil, rfl⟩
            · simp [takeLine, newline]
            · simp [newline]
      · rw [if_neg newline] at short ⊢
        simp only [List.headD_cons, List.length_cons, List.tail_cons] at short ⊢
        cases n with
        | zero => exact absurd short (Nat.not_lt_zero _)
        | succ n =>
            obtain ⟨raw, rest, taken, lines, ends, clean, split⟩ :=
              ih (Nat.lt_of_succ_lt_succ short)
            refine ⟨b :: raw, rest, ?_, lines, ?_, ?_, by rw [split]; rfl⟩
            · simp [takeLine, newline, taken]
            · rcases ends with rfl | rfl
              · exact Or.inl rfl
              · exact Or.inr rfl
            · rw [List.mem_cons, not_or]
              exact ⟨Ne.symm newline, clean⟩

/-- The buffer with a line in it, without its newline. -/
theorem chomp_storeString {line raw : List UInt8} (buf : List UInt8) (noNul : 0 ∉ line)
    (ends : raw = line ++ [10] ∨ raw = line) (clean : 10 ∉ line) :
    ∃ after, chomp (storeString buf raw) = line ++ 0 :: after := by
  rcases ends with rfl | rfl
  · have here : cstr (storeString buf (line ++ [10])) 0 = line ++ [10] := by
      have noNul' : 0 ∉ line ++ [10] := by simp [noNul]
      exact cstr_append [] _ noNul'
    have shape : storeString buf (line ++ [10]) =
        line ++ 10 :: 0 :: buf.drop (line.length + 2) := by simp [storeString]
    refine ⟨0 :: buf.drop (line.length + 2), ?_⟩
    simp only [chomp, here, List.getLast?_concat, if_true]
    rw [shape, List.length_append, List.length_singleton, Nat.add_sub_cancel]
    exact set_append ..
  · have here : cstr (storeString buf raw) 0 = raw := cstr_append [] _ noNul
    refine ⟨buf.drop (raw.length + 1), ?_⟩
    have kept : ¬ raw.getLast? = some 10 := fun last => clean (List.mem_of_getLast? last)
    simp only [chomp, here, kept, if_false]
    rfl

/-! ## The fields of a line -/

/-- The fields of a string have only bytes of it. -/
theorem mem_splitFields {ifs : UInt8 → Bool} {more : Nat} {s field : CStr} {b : UInt8}
    (mem : field ∈ splitFields ifs more s) (byte : b ∈ field) : b ∈ s := by
  have dropped : ∀ {p : UInt8 → Bool} {b : UInt8} {s : CStr}, b ∈ s.dropWhile p → b ∈ s :=
    fun mem => (List.dropWhile_sublist _).subset mem
  induction more generalizing s with
  | zero =>
      rw [splitFields] at mem
      split at mem
      · cases mem
      · cases List.mem_singleton.mp mem
        exact dropped ((List.rdropWhile_prefix ..).subset byte)
  | succ more ih =>
      rw [splitFields] at mem
      split at mem
      · cases mem
      · rcases List.mem_cons.mp mem with rfl | mem
        · exact dropped ((List.takeWhile_sublist _).subset byte)
        · exact dropped (dropped (ih mem))

theorem length_splitFields (ifs : UInt8 → Bool) (more : Nat) (s : CStr) :
    (splitFields ifs more s).length ≤ more + 1 := by
  induction more generalizing s with
  | zero =>
      rw [splitFields]
      split <;> simp
  | succ more ih =>
      rw [splitFields]
      split
      · simp
      · rw [List.length_cons]
        exact Nat.succ_le_succ (ih _)

theorem head?_cstr {buf : List UInt8} {p : Nat} {b : UInt8} (used : b ≠ 0) :
    (cstr buf p).head? = some b ↔ buf[p]? = some b := by
  unfold cstr
  rw [← List.head?_drop]
  cases buf.drop p with
  | nil => simp
  | cons c rest =>
      by_cases nul : c = 0
      · subst nul
        simp [eq_comm, used]
      · simp [nul]

/-- A field has a first byte. -/
theorem ne_nil_of_mem_splitFields {ifs : UInt8 → Bool} {more : Nat} {s field : CStr}
    (mem : field ∈ splitFields ifs more s) : field ≠ [] := by
  have word : ∀ {s : CStr} {b : UInt8} {rest : CStr}, s.dropWhile ifs = b :: rest →
      ifs b = false := by
    intro s b rest left
    have head := List.head_dropWhile_not ifs (by rw [left]; exact List.cons_ne_nil b rest)
    simpa only [left, List.head_cons] using head
  induction more generalizing s with
  | zero =>
      rw [splitFields] at mem
      cases left : s.dropWhile ifs with
      | nil =>
          rw [left] at mem
          cases mem
      | cons b rest =>
          rw [left] at mem
          rw [List.mem_singleton.mp mem]
          intro none'
          have all := List.rdropWhile_eq_nil_iff.mp none' b List.mem_cons_self
          rw [word left] at all
          cases all
  | succ more ih =>
      rw [splitFields] at mem
      cases left : s.dropWhile ifs with
      | nil =>
          rw [left] at mem
          cases mem
      | cons b rest =>
          rw [left] at mem
          rcases List.mem_cons.mp mem with rfl | mem
          · rw [List.takeWhile_cons_of_pos (by rw [word left]; rfl)]
            exact List.cons_ne_nil _ _
          · exact ih mem

/-- The pointer to a field can be followed. -/
theorem closes_offset {buf : List UInt8} {p : Nat} (used : cstr buf p ≠ []) (left : Nat) :
    (FieldPtr.offset p).closes buf left = some (decide ((cstr buf p).head? = some 125)) := by
  have here : ∃ b, buf[p]? = some b := by
    cases got : buf[p]? with
    | some b => exact ⟨b, rfl⟩
    | none =>
        rw [List.getElem?_eq_none_iff] at got
        unfold cstr at used
        rw [List.drop_of_length_le got] at used
        exact absurd rfl used
  obtain ⟨b, got⟩ := here
  unfold FieldPtr.closes
  simp only [got, Option.map_some, head?_cstr (show (125 : UInt8) ≠ 0 by decide),
    Option.some.injEq]

/-! ## One round of the loop -/

/-- `field[0]`, when a line was split into fewer than two fields. -/
def firstField (field0 : FieldPtr) : List Nat → FieldPtr
  | [p] => .offset p
  | _ => field0

/-- What the loop does when a line was split into fewer than two fields. -/
def confSingle (loop : ParseLoop) (f : ConfFrame) (fp : List UInt8) (store : ConfStore) :
    Option ConfOut :=
  match f.field0.closes f.buf fp.length with
  | none => some ⟨.fault, fp, store⟩
  | some true => some (if f.block then ⟨.ok, fp, store⟩ else confError f.conf fp store)
  | some false => loop f fp store

theorem confFields_eq (env : ConfEnv) (fuel : Nat) (loop : ParseLoop) (f : ConfFrame)
    (fp : List UInt8) (store : ConfStore) :
    confFields env fuel loop f fp store =
      match strExplode .null f.buf 2 with
      | none => some ⟨.fault, fp, store⟩
      | some ([p, q], buf) =>
          confPair env fuel loop { f with buf := buf, field0 := .offset p } fp store (cstr buf p)
            (cstr buf q)
      | some (field, buf) =>
          confSingle loop { f with buf := buf, field0 := firstField f.field0 field } fp store :=
  rfl

/-- What the loop does with a line of a kind. -/
def ConfFrame.follow (env : ConfEnv) (loop : ParseLoop) (f : ConfFrame) (rest : List UInt8)
    (store : ConfStore) (tok : Token CStr) (result : Option ConfOut) : Prop :=
  match tok with
  | .skip => result = loop f rest store
  | .close =>
      result = some (if f.block then ⟨.ok, rest, store⟩ else confError f.conf rest store)
  | .sets key => ∃ value, value ≠ [123] ∧ result = confItem env loop f rest store key value value
  | .opens key => result = confItem env loop f rest store key [123] [123]

/-- A line with a key and a value, neither of them special. -/
theorem confPair_eq {env : ConfEnv} {fuel : Nat} {loop : ParseLoop} {f : ConfFrame}
    {rest : List UInt8} {store : ConfStore} {key value : CStr} (noReference : 36 ∉ value)
    (noInclude : key ≠ [105, 110, 99, 108, 117, 100, 101]) :
    confPair env (fuel + 1) loop f rest store key value =
      confItem env loop f rest store key value value := by
  unfold confPair confEvaluate
  simp only [noReference, not_false_eq_true, if_true, Option.bind_eq_bind, Option.bind_some,
    noInclude, if_false]

/-- A line that is in the buffer is split into its fields. -/
theorem confFields_token (env : ConfEnv) (fuel : Nat) (loop : ParseLoop) (f : ConfFrame)
    (rest : List UInt8) (store : ConfStore) {line after : List UInt8} (noNul : 0 ∉ line)
    (noReference : 36 ∉ line) (plain : PlainLine line) (entry : line.head? ≠ some 35)
    (stored : f.buf = line ++ 0 :: after) :
    ∃ buf field0, { f with buf := buf, field0 := field0 }.follow env loop rest store
      (confToken line) (confFields env (fuel + 1) loop f rest store) := by
  obtain ⟨field, s', ran, _, texts⟩ : Explodes defaultIfs 1 [] line after := explodes rfl 1 noNul
  have ran' : strExplode .null f.buf 2 = some (field, s' ++ 0 :: after) := by
    rw [stored]
    exact ran
  unfold confFields
  rw [ran']
  rw [List.nil_append] at texts
  generalize s' ++ 0 :: after = buf at texts
  have length := length_splitFields defaultIfs 1 line
  unfold confToken
  rw [if_neg entry]
  have bytes : ∀ {text b}, text ∈ splitFields defaultIfs 1 line → b ∈ text → b ∈ line :=
    fun mem byte => mem_splitFields mem byte
  have used : ∀ {text}, text ∈ splitFields defaultIfs 1 line → text ≠ [] :=
    ne_nil_of_mem_splitFields
  have noInclude := plain.noInclude
  have fields := plain.fields
  rw [← texts] at length fields noInclude ⊢
  rw [← texts] at bytes used
  match field with
  | [] => exact absurd rfl fields
  | [p] =>
      refine ⟨buf, .offset p, ?_⟩
      have closes : (FieldPtr.offset p).closes buf rest.length = _ :=
        closes_offset (used (List.mem_singleton.mpr rfl)) rest.length
      simp only [List.map_singleton]
      by_cases close : (cstr buf p).head? = some 125
      · rw [decide_eq_true close] at closes
        rw [if_pos close]
        simp only [closes]
        rfl
      · rw [decide_eq_false close] at closes
        rw [if_neg close]
        simp only [closes]
        rfl
  | [p, q] =>
      refine ⟨buf, .offset p, ?_⟩
      simp only [List.map_cons, List.map_nil] at bytes noInclude ⊢
      have noReference' : 36 ∉ cstr buf q := by
        intro mem
        exact noReference (bytes (List.mem_cons_of_mem _ List.mem_cons_self) mem)
      have noInclude' : cstr buf p ≠ [105, 110, 99, 108, 117, 100, 101] := by
        intro eq
        exact noInclude (cstr buf q) (by rw [eq])
      rw [confPair_eq noReference' noInclude']
      by_cases opens : cstr buf q = [123]
      · rw [if_pos opens, opens]
        rfl
      · rw [if_neg opens]
        exact ⟨_, opens, rfl⟩
  | p :: q :: r :: field => simp at length

/-- A text that starts with a line, and what `fgets` makes of it. -/
structure FirstLine (text line raw rest : List UInt8) : Prop where
  got : fgets maxLine text = some (raw, rest)
  ends : raw = line ++ [10] ∨ raw = line
  clean : 10 ∉ line
  used : line ≠ []
  noNul : 0 ∉ line
  noReference : 36 ∉ line
  plain : PlainLine line
  tokens : textTokens text = confToken line :: textTokens rest
  plainRest : PlainText rest
  shorter : rest.length < text.length

theorem PlainText.firstLine {text : List UInt8} (plain : PlainText text) (some' : text ≠ []) :
    ∃ line raw rest, FirstLine text line raw rest := by
  obtain ⟨line, lines, split⟩ : ∃ line lines, textLines text = line :: lines := by
    cases text with
    | nil => exact absurd rfl some'
    | cons b text =>
        rw [textLines_cons]
        split <;> exact ⟨_, _, rfl⟩
  have first : line ∈ textLines text := split ▸ List.mem_cons_self
  have plain' := plain.lines line first
  have short : ((textLines text).headD []).length < maxLine - 1 := by
    rw [split]
    exact plain'.short
  obtain ⟨raw, rest, taken, next, ends, clean, whole⟩ := takeLine_eq short
  rw [split, List.headD_cons] at ends clean
  rw [split, List.tail_cons] at next
  have inRaw : ∀ {b}, b ∈ line → b ∈ raw := by
    intro b mem
    rcases ends with rfl | rfl
    · exact List.mem_append_left _ mem
    · exact mem
  have inText : ∀ {b}, b ∈ line → b ∈ text := fun mem => whole ▸ List.mem_append_left _ (inRaw mem)
  have used : line ≠ [] := by
    rintro rfl
    exact plain'.fields (splitFields_nil 1)
  refine ⟨line, raw, rest, ?_, ends, clean, used, ?_, ?_, plain', ?_, ⟨?_, ?_, ?_⟩, ?_⟩
  · unfold fgets
    cases text with
    | nil => exact absurd rfl some'
    | cons b text => exact congrArg some taken
  · exact fun mem => plain.noNul (inText mem)
  · exact fun mem => plain.noReference (inText mem)
  · rw [textTokens, textTokens, split, next]
    rfl
  · exact fun mem => plain.noNul (whole ▸ List.mem_append_right _ mem)
  · exact fun mem => plain.noReference (whole ▸ List.mem_append_right _ mem)
  · exact fun line' mem => plain.lines line' (split ▸ List.mem_cons_of_mem _ (next ▸ mem))
  · obtain ⟨b, mem⟩ := List.exists_mem_of_ne_nil line used
    have nonempty := List.length_pos_of_mem (inRaw mem)
    rw [whole, List.length_append]
    omega

/-- One round of the loop reads one line and does what it says. Only the buffer and the pointers
into it change in the frame. -/
theorem confLine_token {env : ConfEnv} {fuel : Nat} {loop : ParseLoop} {f : ConfFrame}
    {text : List UInt8} {store : ConfStore} (plain : PlainText text) (some' : text ≠ []) :
    ∃ rest tok buf field0, textTokens text = tok :: textTokens rest ∧ PlainText rest ∧
      rest.length < text.length ∧
      { f with buf := buf, field0 := field0 }.follow env loop rest store tok
        (confLine env (fuel + 1) loop f text store) := by
  obtain ⟨line, raw, rest, first⟩ := plain.firstLine some'
  obtain ⟨after, stored⟩ := chomp_storeString f.buf first.noNul first.ends first.clean
  unfold confLine
  simp only [first.got, stored]
  have head : (line ++ 0 :: after)[0]? = line.head? := by
    cases line with
    | nil => exact absurd rfl first.used
    | cons b line => rfl
  rw [head]
  by_cases comment : line.head? = some 35
  · refine ⟨rest, .skip, line ++ 0 :: after, f.field0, ?_, first.plainRest, first.shorter, ?_⟩
    · rw [first.tokens, confToken, if_pos comment]
    · rw [if_pos comment]
      rfl
  · obtain ⟨buf, field0, follows⟩ :=
      confFields_token env fuel loop { f with buf := line ++ 0 :: after } rest store first.noNul
        first.noReference first.plain comment rfl
    refine ⟨rest, confToken line, buf, field0, first.tokens, first.plainRest, first.shorter, ?_⟩
    rw [if_neg comment]
    exact follows

end Verben
