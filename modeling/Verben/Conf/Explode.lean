import Mathlib.Data.List.DropRight
import Verben.Hash.Model

/-!
# Splitting a line

`str_explode` of `src/conf.c` cuts the string in a buffer into fields, where it stands: it
writes a terminator behind each field and returns where the fields start. `splitFields` is
the same on strings: what the fields are, and nothing about the buffer.
-/

namespace Verben

/-- The string in a buffer from an offset on. -/
def cstr (buf : List UInt8) (p : Nat) : CStr := (buf.drop p).takeWhile (· ≠ 0)

/-- The argument `ifs`: null, or the bytes that it points to. -/
inductive Ifs : Type
  | null
  | array (bytes : List UInt8)

/-- `default_ifs`. -/
def defaultIfs (b : UInt8) : Bool := b = 9 || b = 10 || b = 13 || b = 32

/-- The table of separators: an array whose first byte is not zero is a string of them. -/
def Ifs.table : Ifs → UInt8 → Bool
  | .null, b => defaultIfs b
  | .array bytes, b =>
      if bytes.headD 0 = 0 then bytes.getD b.toNat 0 ≠ 0 else b ∈ cstr bytes 0

/-- Step over the bytes that pass a test. -/
def skipBytes (test : UInt8 → Bool) (buf : List UInt8) (p : Nat) : Nat :=
  p + ((buf.drop p).takeWhile test).length

/-- The loop of `str_explode` from the position `p` on, when `more` fields may follow the
next one: the fields, and what is left in the buffer. `none` where it runs out of the
buffer. -/
def strExplodeLoop (ifs : UInt8 → Bool) :
    Nat → List UInt8 → Nat → Option (List Nat × List UInt8)
  | 0, buf, p => do
      let p := skipBytes ifs buf p
      let b ← buf[p]?
      if b = 0 then some ([], buf)
      else do
        let last := cstr buf p
        let _ ← buf[p + last.length]?
        -- back over the separators at the end: there is another byte at `p`
        some ([p], buf.set (p + (last.rdropWhile ifs).length) 0)
  | more + 1, buf, p => do
      let p := skipBytes ifs buf p
      let b ← buf[p]?
      if b = 0 then some ([], buf)
      else do
        let q := skipBytes (fun b => b ≠ 0 && !ifs b) buf p
        let b ← buf[q]?
        if b = 0 then some ([p], buf)
        else do
          let (field, buf) ← strExplodeLoop ifs more (buf.set q 0) (q + 1)
          some (p :: field, buf)

/-- `str_explode`, into an array of `n` fields. -/
def strExplode (ifs : Ifs) (buf : List UInt8) (n : Nat) : Option (List Nat × List UInt8) :=
  strExplodeLoop ifs.table (n - 1) buf 0

/-- The fields of a string: words, and the rest of the string as the last one. -/
def splitFields (ifs : UInt8 → Bool) : Nat → CStr → List CStr
  | 0, s =>
      match s.dropWhile ifs with
      | [] => []
      | rest => [rest.rdropWhile ifs]
  | more + 1, s =>
      match s.dropWhile ifs with
      | [] => []
      | rest => rest.takeWhile (!ifs ·) :: splitFields ifs more (rest.dropWhile (!ifs ·))

section Explode

variable {ifs : UInt8 → Bool} {before s after : List UInt8}

theorem cstr_append (before after : List UInt8) (ended : 0 ∉ s) :
    cstr (before ++ (s ++ 0 :: after)) before.length = s := by
  unfold cstr
  rw [List.drop_left, List.takeWhile_append_of_pos]
  · simp
  · intro b mem
    have : b ≠ 0 := fun eq => ended (eq ▸ mem)
    simpa using this

/-- Stepping stays inside a string whose terminator does not pass the test. -/
theorem skipBytes_append {test : UInt8 → Bool} (stop : test 0 = false)
    (before s after : List UInt8) :
    skipBytes test (before ++ (s ++ 0 :: after)) before.length =
      before.length + (s.takeWhile test).length := by
  unfold skipBytes
  rw [List.drop_left, List.takeWhile_append]
  split
  · next all => simp [stop, all]
  · rfl

theorem getElem_append (b : UInt8) : (before ++ b :: after)[before.length]? = some b := by
  simp

theorem set_append (b c : UInt8) :
    (before ++ b :: after).set before.length c = before ++ c :: after := by
  simp

/-- In a string, the test for a terminator is idle. -/
theorem takeWhile_word (ended : 0 ∉ s) :
    s.takeWhile (fun b => b ≠ 0 && !ifs b) = s.takeWhile (!ifs ·) := by
  induction s with
  | nil => rfl
  | cons b s ih =>
      rw [List.mem_cons, not_or] at ended
      have used : b ≠ 0 := Ne.symm ended.1
      rw [List.takeWhile_cons, List.takeWhile_cons, ih ended.2]
      simp [used]

theorem splitFields_nil (more : Nat) : splitFields ifs more [] = [] := by
  cases more <;> rfl

theorem splitFields_cons {b : UInt8} (sep : ifs b = true) (more : Nat) (s : CStr) :
    splitFields ifs more (b :: s) = splitFields ifs more s := by
  cases more <;> simp only [splitFields, List.dropWhile_cons, sep, if_true]

theorem splitFields_word {b : UInt8} (word : ifs b = false) (more : Nat) (s : CStr) :
    splitFields ifs (more + 1) (b :: s) = (b :: s).takeWhile (!ifs ·) ::
      splitFields ifs more ((b :: s).dropWhile (!ifs ·)) := by
  have trimmed : (b :: s).dropWhile ifs = b :: s := by simp [word]
  rw [splitFields, trimmed]

/-- The last field ends at the last byte that is no separator. -/
theorem last_field (ifs : UInt8 → Bool) (before after : List UInt8) (ended : 0 ∉ s) :
    ∃ s', (before ++ (s ++ 0 :: after)).set (before.length + (s.rdropWhile ifs).length) 0 =
        before ++ (s' ++ 0 :: after) ∧ s'.length = s.length ∧
      cstr (before ++ (s' ++ 0 :: after)) before.length = s.rdropWhile ifs := by
  have split : s = s.rdropWhile ifs ++ s.rtakeWhile ifs := by
    rw [List.rdropWhile, List.rtakeWhile, ← List.reverse_append,
      List.takeWhile_append_dropWhile, List.reverse_reverse]
  generalize s.rdropWhile ifs = word at split
  have clean : 0 ∉ word := by
    intro mem
    exact ended (split ▸ List.mem_append_left _ mem)
  rw [← List.length_append]
  cases trail : s.rtakeWhile ifs with
  | nil =>
      rw [trail, List.append_nil] at split
      subst split
      refine ⟨s, ?_, rfl, cstr_append _ _ ended⟩
      rw [← List.append_assoc, set_append]
  | cons b trail' =>
      rw [trail] at split
      refine ⟨word ++ 0 :: trail', ?_, by simp [split], ?_⟩
      · have shape : before ++ (s ++ 0 :: after) =
            (before ++ word) ++ b :: (trail' ++ 0 :: after) := by simp [split]
        rw [shape, set_append]
        simp
      · have shape : before ++ (word ++ 0 :: trail' ++ 0 :: after) =
            before ++ (word ++ 0 :: (trail' ++ 0 :: after)) := by simp
        rw [shape, cstr_append _ _ clean]

/-- The loop, on a string that stands somewhere in a buffer, splits it in its place. -/
def Explodes (ifs : UInt8 → Bool) (more : Nat) (before s after : List UInt8) : Prop :=
  ∃ field s', strExplodeLoop ifs more (before ++ (s ++ 0 :: after)) before.length =
      some (field, before ++ (s' ++ 0 :: after)) ∧ s'.length = s.length ∧
    field.map (cstr (before ++ (s' ++ 0 :: after))) = splitFields ifs more s

theorem explodes_nil (sep : ifs 0 = false) (more : Nat) : Explodes ifs more before [] after := by
  have stay := skipBytes_append sep before [] after
  refine ⟨[], [], ?_, rfl, (splitFields_nil more).symm⟩
  rw [List.nil_append] at stay
  cases more <;> simp [strExplodeLoop, stay]

/-- Separators at the front are stepped over. -/
theorem Explodes.trim (sep : ifs 0 = false) {more : Nat}
    (rest : Explodes ifs more (before ++ s.takeWhile ifs) (s.dropWhile ifs) after) :
    Explodes ifs more before s after := by
  have split : s = s.takeWhile ifs ++ s.dropWhile ifs := List.takeWhile_append_dropWhile.symm
  have idle : (s.dropWhile ifs).dropWhile ifs = s.dropWhile ifs := List.dropWhile_idempotent ..
  have none' : (s.dropWhile ifs).takeWhile ifs = [] := by
    have again : (s.dropWhile ifs).takeWhile ifs ++ (s.dropWhile ifs).dropWhile ifs =
        s.dropWhile ifs := List.takeWhile_append_dropWhile
    rw [idle] at again
    exact List.append_left_eq_self.mp again
  rcases rest with ⟨field, s', ran, length, texts⟩
  have shape : before ++ (s ++ 0 :: after) =
      (before ++ s.takeWhile ifs) ++ (s.dropWhile ifs ++ 0 :: after) := by
    rw [List.append_assoc, ← List.append_assoc (s.takeWhile ifs), ← split]
  have same : before ++ (s.takeWhile ifs ++ s' ++ 0 :: after) =
      (before ++ s.takeWhile ifs) ++ (s' ++ 0 :: after) := by simp
  have skip := skipBytes_append sep before s after
  have skip' := skipBytes_append sep (before ++ s.takeWhile ifs) (s.dropWhile ifs) after
  rw [shape, ← List.length_append] at skip
  rw [none', List.length_nil, Nat.add_zero] at skip'
  refine ⟨field, s.takeWhile ifs ++ s', ?_, ?_, ?_⟩
  · rw [shape, same, ← ran]
    cases more <;> simp only [strExplodeLoop, skip, skip']
  · rw [List.length_append, length, ← List.length_append, ← split]
  · rw [same, texts]
    cases more <;> simp only [splitFields, idle]

theorem first_of_word {b : UInt8} {rest : CStr} (ended : 0 ∉ s)
    (word : s.dropWhile ifs = b :: rest) : ifs b = false ∧ 0 ∉ b :: rest := by
  constructor
  · have nonempty : s.dropWhile ifs ≠ [] := by simp [word]
    have head := List.head_dropWhile_not ifs nonempty
    simpa [word] using head
  · intro mem
    exact ended ((List.dropWhile_sublist ifs).subset (word ▸ mem))

section Word

variable {b : UInt8} {rest : CStr} (sep : ifs 0 = false) (word : ifs b = false)
  (ended : 0 ∉ b :: rest)

include ended

/-- The loop finds the end of the word behind it. -/
theorem skip_word (ifs : UInt8 → Bool) (before after : List UInt8) :
    skipBytes (fun b => b ≠ 0 && !ifs b) (before ++ (b :: rest ++ 0 :: after)) before.length =
      before.length + ((b :: rest).takeWhile (!ifs ·)).length := by
  rw [skipBytes_append (by simp), takeWhile_word ended]

include word

/-- What the loop finds at the first byte of a word. -/
theorem at_word (before after : List UInt8) :
    skipBytes ifs (before ++ (b :: rest ++ 0 :: after)) before.length = before.length ∧
      (before ++ (b :: rest ++ 0 :: after))[before.length]? = some b ∧ b ≠ 0 ∧
      (b :: rest).dropWhile ifs = b :: rest := by
  refine ⟨?_, getElem_append b, ?_, by simp [word]⟩
  · unfold skipBytes
    simp [word]
  · rintro rfl
    exact ended List.mem_cons_self

theorem explodes_last : Explodes ifs 0 before (b :: rest) after := by
  obtain ⟨skip, first, used, trimmed⟩ := at_word word ended before after
  obtain ⟨s', stored, length, field⟩ := last_field ifs before after ended
  have stop : (before ++ (b :: rest ++ 0 :: after))[before.length + (b :: rest).length]? =
      some 0 := by
    rw [← List.append_assoc, ← List.length_append]
    exact getElem_append 0
  refine ⟨[before.length], s', ?_, length, ?_⟩
  · simp only [strExplodeLoop, skip, first, Option.bind_eq_bind, Option.bind_some, used, if_false,
      cstr_append _ _ ended, stop, stored]
  · simp only [List.map_singleton, field, splitFields, trimmed]

/-- A word that ends with the string. -/
theorem explodes_word_end {more : Nat} (alone : (b :: rest).dropWhile (!ifs ·) = []) :
    Explodes ifs (more + 1) before (b :: rest) after := by
  obtain ⟨skip, first, used, _⟩ := at_word word ended before after
  have whole : (b :: rest).takeWhile (!ifs ·) = b :: rest := by
    have split : (b :: rest).takeWhile (!ifs ·) ++ (b :: rest).dropWhile (!ifs ·) = b :: rest :=
      List.takeWhile_append_dropWhile
    rwa [alone, List.append_nil] at split
  have skip' := skip_word ended ifs before after
  rw [whole] at skip'
  have stop : (before ++ (b :: rest ++ 0 :: after))[before.length + (b :: rest).length]? =
      some 0 := by
    rw [← List.append_assoc, ← List.length_append]
    exact getElem_append 0
  refine ⟨[before.length], b :: rest, ?_, rfl, ?_⟩
  · simp only [strExplodeLoop, skip, first, Option.bind_eq_bind, Option.bind_some, used,
      if_false, skip', stop, if_true]
  · rw [List.map_singleton, cstr_append _ _ ended, splitFields_word word, whole, alone,
      splitFields_nil]

include sep

/-- A word with a separator behind it, where the loop cuts. -/
theorem explodes_word_cut {more : Nat} {part : CStr} {c : UInt8} {remaining : CStr}
    (taken : (b :: rest).takeWhile (!ifs ·) = part)
    (left : (b :: rest).dropWhile (!ifs ·) = c :: remaining)
    (others : Explodes ifs more (before ++ part ++ [0]) remaining after) :
    Explodes ifs (more + 1) before (b :: rest) after := by
  obtain ⟨skip, first, used, _⟩ := at_word word ended before after
  have skip' := skip_word ended ifs before after
  rw [taken] at skip'
  have split : b :: rest = part ++ c :: remaining := by
    rw [← taken, ← left]
    exact List.takeWhile_append_dropWhile.symm
  have cSep : ifs c = true := by
    have nonempty : (b :: rest).dropWhile (!ifs ·) ≠ [] := by simp [left]
    have head := List.head_dropWhile_not (!ifs ·) nonempty
    simpa [left] using head
  have cUsed : c ≠ 0 := by
    rintro rfl
    rw [sep] at cSep
    cases cSep
  have clean : 0 ∉ part := by
    intro mem
    exact ended (split ▸ List.mem_append_left _ mem)
  have shape : before ++ (b :: rest ++ 0 :: after) =
      (before ++ part) ++ c :: (remaining ++ 0 :: after) := by
    rw [split]
    simp
  have here : (before ++ (b :: rest ++ 0 :: after))[before.length + part.length]? = some c := by
    rw [shape, ← List.length_append]
    exact getElem_append c
  have cutHere : (before ++ (b :: rest ++ 0 :: after)).set (before.length + part.length) 0 =
      (before ++ part ++ [0]) ++ (remaining ++ 0 :: after) := by
    rw [shape, ← List.length_append, set_append]
    simp
  obtain ⟨field, s', ran, length, texts⟩ := others
  have same : before ++ (part ++ 0 :: s' ++ 0 :: after) =
      (before ++ part ++ [0]) ++ (s' ++ 0 :: after) := by simp
  have next : before.length + part.length + 1 = (before ++ part ++ [0]).length := by
    simp [Nat.add_assoc]
  refine ⟨before.length :: field, part ++ 0 :: s', ?_, ?_, ?_⟩
  · simp only [strExplodeLoop, skip, first, Option.bind_eq_bind, Option.bind_some, used,
      if_false, skip', here, cUsed]
    rw [cutHere, next, ran, same]
    rfl
  · rw [split, List.length_append, List.length_append, List.length_cons, List.length_cons,
      length]
  · have word' : cstr (before ++ (part ++ 0 :: s' ++ 0 :: after)) before.length = part := by
      have shape' : before ++ (part ++ 0 :: s' ++ 0 :: after) =
          before ++ (part ++ 0 :: (s' ++ 0 :: after)) := by simp
      rw [shape', cstr_append _ _ clean]
    rw [List.map_cons, word', same, texts, splitFields_word word, taken, left,
      splitFields_cons cSep]

/-- A field that may be followed by others. -/
theorem explodes_word {more : Nat}
    (others : ∀ before {s}, 0 ∉ s → Explodes ifs more before s after) :
    Explodes ifs (more + 1) before (b :: rest) after := by
  cases left : (b :: rest).dropWhile (!ifs ·) with
  | nil => exact explodes_word_end word ended left
  | cons c remaining =>
      apply explodes_word_cut sep word ended rfl left
      apply others
      intro mem
      have inside : 0 ∈ (b :: rest).dropWhile (!ifs ·) := left ▸ List.mem_cons_of_mem c mem
      exact ended ((List.dropWhile_sublist _).subset inside)

end Word

/-- **The loop splits a string in its place**: the fields are those of the string, and the bytes
around it stay as they are. -/
theorem explodes (sep : ifs 0 = false) (more : Nat) (ended : 0 ∉ s) :
    Explodes ifs more before s after := by
  induction more generalizing before s with
  | zero =>
      apply Explodes.trim sep
      cases word : s.dropWhile ifs with
      | nil => exact explodes_nil sep 0
      | cons b rest =>
          obtain ⟨head, ended'⟩ := first_of_word ended word
          exact explodes_last head ended'
  | succ more ih =>
      apply Explodes.trim sep
      cases word : s.dropWhile ifs with
      | nil => exact explodes_nil sep (more + 1)
      | cons b rest =>
          obtain ⟨head, ended'⟩ := first_of_word ended word
          exact explodes_word sep head ended' fun _ => ih

end Explode

end Verben
