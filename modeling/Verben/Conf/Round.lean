import Verben.Conf.Lines

/-!
# What a round of the loop does

A round of `conf_parse` reads a line of any kind: `fgets` may cut it, there may be a terminator
in it, and it may have no field. What the round does is told by the text of the line
(`lineKind`), but for a line without fields, where the code looks at the pointer that an earlier
line left: if there is a `}`, the line is taken for the end of the block, and a pointer that was
never set may lead nowhere (`ConfFrame.Misreads`).
-/

namespace Verben

/-- What the parser sees of a line. -/
def lineText (raw : List UInt8) : CStr :=
  let s := raw.takeWhile (· ≠ 0)
  if s.getLast? = some 10 then s.dropLast else s

/-- A line is passed over, has no fields, closes a block, or has a key and a value. -/
inductive LineKind : Type
  | skip
  | blank
  | close
  | pair (key value : CStr)
  deriving DecidableEq

/-- `#` is 35 and `}` is 125. -/
def lineKind (line : CStr) : LineKind :=
  if line.head? = some 35 then .skip
  else
    match splitFields defaultIfs 1 line with
    | [] => .blank
    | [field] => if field.head? = some 125 then .close else .skip
    | key :: value :: _ => .pair key value

/-- A line without fields is taken for the end of a block, or `field[0]` cannot be followed. -/
def ConfFrame.Misreads (f : ConfFrame) (raw rest : List UInt8) : Prop :=
  lineKind (lineText raw) = .blank ∧
    f.field0.closes (chomp (storeString f.buf raw)) rest.length ≠ some false

instance decidableMisreads (f : ConfFrame) (raw rest : List UInt8) :
    Decidable (f.Misreads raw rest) :=
  inferInstanceAs (Decidable (_ ∧ _))

/-- What a line without fields is taken for. -/
def blankKind (closes : Option Bool) : Option LineKind :=
  closes.map fun closes => if closes then .close else .blank

/-- What the line that is read is taken for, if the pointer can be followed. -/
def ConfFrame.reads (f : ConfFrame) (raw rest : List UInt8) : Option LineKind :=
  if lineKind (lineText raw) = .blank then
    blankKind (f.field0.closes (chomp (storeString f.buf raw)) rest.length)
  else
    some (lineKind (lineText raw))

/-- The line in the buffer is split. -/
def ConfFrame.explode (f : ConfFrame) : ConfFrame :=
  match strExplode .null f.buf 2 with
  | none => f
  | some ([p, _], buf) => { f with buf := buf, field0 := .offset p }
  | some (field, buf) => { f with buf := buf, field0 := firstField f.field0 field }

/-- The frame behind a line. -/
def ConfFrame.after (f : ConfFrame) (raw : List UInt8) : ConfFrame :=
  let f := { f with buf := chomp (storeString f.buf raw) }
  if f.buf[0]? = some 35 then f else f.explode

/-- Only the buffer and the pointer into it may differ. -/
structure ConfFrame.Alike (f g : ConfFrame) : Prop where
  conf : f.conf = g.conf
  resolvedPath : f.resolvedPath = g.resolvedPath
  block : f.block = g.block

/-- What the loop does with a line of a kind. -/
def ConfFrame.does (env : ConfEnv) (fuel : Nat) (loop : ParseLoop) (f : ConfFrame)
    (rest : List UInt8) (store : ConfStore) : Option LineKind → Option ConfOut
  | none => some ⟨.fault, rest, store⟩
  | some .skip => loop f rest store
  | some .blank => loop f rest store
  | some .close => some (if f.block then ⟨.ok, rest, store⟩ else confError f.conf rest store)
  | some (.pair key value) => confPair env fuel loop f rest store key value

section Round

variable {env : ConfEnv} {fuel : Nat} {loop : ParseLoop} {f : ConfFrame}
  {fp raw rest : List UInt8} {store : ConfStore}

theorem ConfFrame.Alike.symm {f g : ConfFrame} (alike : f.Alike g) : g.Alike f :=
  ⟨alike.conf.symm, alike.resolvedPath.symm, alike.block.symm⟩

theorem ConfFrame.Alike.trans {f g h : ConfFrame} (first : f.Alike g) (second : g.Alike h) :
    f.Alike h :=
  ⟨first.conf.trans second.conf, first.resolvedPath.trans second.resolvedPath,
    first.block.trans second.block⟩

theorem ConfFrame.explode_eq (f : ConfFrame) :
    ∃ buf field0, f.explode = { f with buf := buf, field0 := field0 } := by
  unfold ConfFrame.explode
  split <;> exact ⟨_, _, rfl⟩

theorem ConfFrame.after_eq (f : ConfFrame) (raw : List UInt8) :
    ∃ buf field0, f.after raw = { f with buf := buf, field0 := field0 } := by
  unfold ConfFrame.after
  dsimp only
  split
  · exact ⟨_, _, rfl⟩
  · exact ConfFrame.explode_eq { f with buf := chomp (storeString f.buf raw) }

theorem ConfFrame.alike_after (f : ConfFrame) (raw : List UInt8) : f.Alike (f.after raw) := by
  obtain ⟨buf, field0, same⟩ := f.after_eq raw
  rw [same]
  exact ⟨rfl, rfl, rfl⟩

theorem noNul_takeWhile (raw : List UInt8) : 0 ∉ raw.takeWhile (· ≠ 0) := by
  intro mem
  have := List.mem_takeWhile_imp mem
  exact absurd rfl (of_decide_eq_true this)

/-- The line in the buffer, up to its terminator. -/
theorem storeString_eq (buf raw : List UInt8) :
    ∃ after, storeString buf raw = raw.takeWhile (· ≠ 0) ++ 0 :: after := by
  have split : raw.takeWhile (· ≠ 0) ++ raw.dropWhile (· ≠ 0) = raw :=
    List.takeWhile_append_dropWhile
  unfold storeString
  cases rest : raw.dropWhile (· ≠ 0) with
  | nil =>
      rw [rest, List.append_nil] at split
      rw [split]
      exact ⟨_, rfl⟩
  | cons b rest' =>
      have stop := List.head?_dropWhile_not (fun b : UInt8 => decide (b ≠ 0)) raw
      rw [rest] at split stop
      have nul : b = 0 := of_not_not (of_decide_eq_false stop)
      subst nul
      refine ⟨rest' ++ 0 :: buf.drop (raw.length + 1), ?_⟩
      conv_lhs => rw [← split]
      rw [List.append_assoc, List.cons_append, split]

theorem chomp_eq (buf raw : List UInt8) :
    ∃ after, chomp (storeString buf raw) = lineText raw ++ 0 :: after := by
  obtain ⟨after, stored⟩ := storeString_eq buf raw
  have here : cstr (storeString buf raw) 0 = raw.takeWhile (· ≠ 0) := by
    rw [stored]
    exact cstr_append [] after (noNul_takeWhile raw)
  unfold chomp lineText
  simp only [here]
  by_cases newline : (raw.takeWhile (· ≠ 0)).getLast? = some 10
  case pos =>
    obtain ⟨line, ends⟩ := List.getLast?_eq_some_iff.mp newline
    rw [if_pos newline, if_pos newline, stored, ends, List.dropLast_concat]
    refine ⟨0 :: after, ?_⟩
    have shape : line ++ [10] ++ 0 :: after = line ++ 10 :: 0 :: after := by simp
    rw [shape, List.length_append, List.length_singleton, Nat.add_sub_cancel]
    exact set_append ..
  case neg =>
    rw [if_neg newline, if_neg newline]
    exact ⟨after, stored⟩

theorem noNul_lineText (raw : List UInt8) : 0 ∉ lineText raw := by
  unfold lineText
  dsimp only
  split
  · exact fun mem => noNul_takeWhile raw ((List.dropLast_sublist _).subset mem)
  · exact noNul_takeWhile raw

/-- The terminator of a line is not seen in its text. -/
theorem lineText_concat {s : List UInt8} (clean : 10 ∉ s) :
    lineText (s ++ [10]) = lineText s := by
  have kept : (s.takeWhile (· ≠ 0)).getLast? ≠ some 10 := by
    intro last
    exact clean ((List.takeWhile_sublist _).subset (List.mem_of_getLast? last))
  unfold lineText
  simp only [kept, if_false]
  rw [List.takeWhile_append]
  by_cases whole : (s.takeWhile (· ≠ 0)).length = s.length
  · have same : s.takeWhile (· ≠ 0) = s := (List.takeWhile_sublist _).eq_of_length whole
    rw [if_pos whole, same]
    have last : (s ++ [10].takeWhile (fun b : UInt8 => decide (b ≠ 0))).getLast? = some 10 := by
      simp
    rw [if_pos last]
    simp
  · rw [if_neg whole, if_neg kept]

/-- The fields of the line that is in the buffer. -/
theorem strExplode_line (line after : List UInt8) (noNul : 0 ∉ line) :
    ∃ field buf, strExplode .null (line ++ 0 :: after) 2 = some (field, buf) ∧
      field.map (cstr buf) = splitFields defaultIfs 1 line := by
  obtain ⟨field, s', ran, _, texts⟩ : Explodes defaultIfs 1 [] line after := explodes rfl 1 noNul
  exact ⟨field, s' ++ 0 :: after, ran, texts⟩

/-- A line without fields is left as it stands. -/
theorem strExplode_blank (line after : List UInt8)
    (blank : splitFields defaultIfs 1 line = []) :
    strExplode .null (line ++ 0 :: after) 2 = some ([], line ++ 0 :: after) := by
  have trimmed : line.dropWhile defaultIfs = [] := by
    cases word : line.dropWhile defaultIfs with
    | nil => rfl
    | cons b rest =>
        rw [splitFields, word] at blank
        cases blank
  have all : line.takeWhile defaultIfs = line := by
    have split : line.takeWhile defaultIfs ++ line.dropWhile defaultIfs = line :=
      List.takeWhile_append_dropWhile
    rwa [trimmed, List.append_nil] at split
  have skip : skipBytes defaultIfs (line ++ 0 :: after) 0 = line.length := by
    have sep : defaultIfs 0 = false := rfl
    have stop := skipBytes_append sep [] line after
    rw [all] at stop
    simpa using stop
  have stop : (line ++ 0 :: after)[line.length]? = some 0 := getElem_append 0
  change strExplodeLoop defaultIfs 1 (line ++ 0 :: after) 0 = _
  simp only [strExplodeLoop, skip, stop, Option.bind_eq_bind, Option.bind_some, if_true]

theorem ConfFrame.reads_of_calm (calm : ¬ f.Misreads raw rest) :
    f.reads raw rest = some (lineKind (lineText raw)) := by
  unfold ConfFrame.reads
  by_cases blank : lineKind (lineText raw) = .blank
  · have closes : f.field0.closes (chomp (storeString f.buf raw)) rest.length = some false :=
      Decidable.not_not.mp fun other => calm ⟨blank, other⟩
    rw [if_pos blank, closes, blank]
    rfl
  · rw [if_neg blank]

/-- A line that is no comment is split into its fields. -/
theorem confFields_kind (line after : List UInt8) (noNul : 0 ∉ line)
    (entry : line.head? ≠ some 35) (stored : f.buf = line ++ 0 :: after) :
    confFields env fuel loop f rest store =
      f.explode.does env fuel loop rest store
        (if lineKind line = LineKind.blank then blankKind (f.field0.closes f.buf rest.length)
          else some (lineKind line)) := by
  unfold ConfFrame.explode
  rw [confFields_eq, stored]
  by_cases blank : splitFields defaultIfs 1 line = []
  case pos =>
    have kind : lineKind line = .blank := by
      unfold lineKind
      rw [if_neg entry, blank]
    rw [strExplode_blank line after blank, kind]
    change confSingle loop { f with buf := line ++ 0 :: after } rest store = _
    unfold confSingle
    rw [if_pos rfl]
    rcases closes : f.field0.closes (line ++ 0 :: after) rest.length with _ | _ | _
    · rfl
    · rfl
    · rfl
  case neg =>
    obtain ⟨field, buf, ran, texts⟩ := strExplode_line line after noNul
    have length := length_splitFields defaultIfs 1 line
    have used : ∀ text ∈ splitFields defaultIfs 1 line, text ≠ [] := fun _ =>
      ne_nil_of_mem_splitFields
    rw [ran]
    unfold lineKind
    rw [if_neg entry]
    rw [← texts] at blank length used ⊢
    match field with
    | [] => exact absurd rfl blank
    | [p] =>
        have closes : (FieldPtr.offset p).closes buf rest.length = _ :=
          closes_offset (used _ (List.mem_singleton.mpr rfl)) rest.length
        simp only [List.map_singleton]
        change confSingle loop { f with buf := buf, field0 := .offset p } rest store = _
        unfold confSingle
        by_cases close : (cstr buf p).head? = some 125
        · rw [decide_eq_true close] at closes
          simp only [closes, close, if_true, reduceCtorEq, if_false]
          rfl
        · rw [decide_eq_false close] at closes
          simp only [closes, close, reduceCtorEq, if_false]
          rfl
    | [p, q] =>
        simp only [List.map_cons, List.map_nil, reduceCtorEq, if_false]
        rfl
    | p :: q :: r :: field => simp at length

/-- **A round of the loop** does what the line is read as. -/
theorem confLine_reads (env : ConfEnv) (fuel : Nat) (loop : ParseLoop) (f : ConfFrame)
    (store : ConfStore) (got : fgets maxLine fp = some (raw, rest)) :
    confLine env fuel loop f fp store =
      (f.after raw).does env fuel loop rest store (f.reads raw rest) := by
  obtain ⟨after, stored⟩ := chomp_eq f.buf raw
  unfold confLine ConfFrame.reads ConfFrame.after
  simp only [got, stored]
  have head : (lineText raw ++ 0 :: after)[0]? = some 35 ↔ (lineText raw).head? = some 35 := by
    cases lineText raw with
    | nil => exact ⟨nofun, nofun⟩
    | cons b line => exact Iff.rfl
  by_cases comment : (lineText raw).head? = some 35
  case pos =>
    have kind : lineKind (lineText raw) = .skip := by
      unfold lineKind
      rw [if_pos comment]
    rw [if_pos (head.mpr comment), if_pos (head.mpr comment), kind]
    simp only [reduceCtorEq, if_false]
    rfl
  case neg =>
    rw [if_neg (mt head.mp comment), if_neg (mt head.mp comment)]
    exact confFields_kind (lineText raw) after (noNul_lineText raw) comment rfl

/-- At the end of the text the loop returns. -/
theorem confLine_nil (got : fgets maxLine fp = none) :
    confLine env fuel loop f fp store = some ⟨.ok, fp, store⟩ := by
  unfold confLine
  rw [got]

end Round

end Verben
