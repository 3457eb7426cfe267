import Mathlib.Data.List.TakeWhile
import Verben.Http.Model

/-!
# The length of a request

`handle_input` looks for the end of the header block and for a `Content-Length:` in all that the
client has sent so far. If there is none in the header block, it may find one in the bytes
behind it, so the length that it returns depends on these. And what it finds need not be a line
of the block, nor a length at all. `http_frame_iff` says for which header blocks the length is
right.
-/

namespace Verben.Http

/-- The header block: all up to the first empty line. -/
def headerBlock (buf : List UInt8) : Option (List UInt8) :=
  (Search.find headerEnd (cString buf)).map fun i => (cString buf).take (i + 4)

/-- The start of a line with a length. -/
def contentLengthLine : List UInt8 := [13, 10] ++ contentLengthName

/-- The number in the first such line of a header block, 0 if there is none. -/
def contentLength (header : List UInt8) : Int :=
  match Search.find contentLengthLine header with
  | none => 0
  | some i =>
      Decimal.number ((header.drop (i + contentLengthLine.length)).takeWhile (· ≠ 13))

/-- The length of a request is that of its header block and of the body that the block announces,
and no byte behind the block counts. -/
structure FrameRight (buf header : List UInt8) (n : Int) : Prop where
  length : n = header.length + contentLength header
  le : (header.length : Int) ≤ n
  grows : ∀ more, handleInput (buf ++ more) = n
  own : ∀ rest, handleInput (header ++ rest) = n

/-- A header block that announces its body: there is a line with a length that is not 0, the
first `Content-Length:` of the block has the same number behind it, as an `int`, and the sum is
an `int`. -/
def Announces (header : List UInt8) : Prop :=
  0 < contentLength header ∧ header.length + contentLength header < 2 ^ 31 ∧
    ∃ p, Search.find contentLengthName header = some p ∧
      CInt.toInt32 (Decimal.strtol (header.drop (p + contentLengthName.length))) =
        contentLength header

section Block

variable {buf header rest : List UInt8} {n : Int} {p : Nat}

/-- What a check of all bytes shows. -/
theorem forall_mem_of_all {P : UInt8 → Prop} [DecidablePred P] {bs : List UInt8}
    (all : bs.all (fun b => decide (P b)) = true) : ∀ b ∈ bs, P b :=
  fun b mem => of_decide_eq_true (List.all_eq_true.mp all b mem)

theorem headerEnd_ne_nil : headerEnd ≠ [] := by decide

theorem contentLengthName_ne_nil : contentLengthName ≠ [] := by decide

/-- A header block as it is found: it ends with an empty line, holds no terminator, and no empty
line comes before. -/
structure IsBlock (header : List UInt8) : Prop where
  ends : ∃ before, header = before ++ headerEnd
  plain : ∀ b ∈ header, b ≠ 0
  found : ∃ i, Search.find headerEnd header = some i ∧ header.length = i + 4

theorem cString_append (plain : ∀ b ∈ header, b ≠ 0) (rest : List UInt8) :
    cString (header ++ rest) = header ++ cString rest := by
  unfold cString
  exact List.takeWhile_append_of_pos fun b mem => by simpa using plain b mem

theorem headerBlock_spec (block : headerBlock buf = some header) :
    IsBlock header ∧ ∃ rest, buf = header ++ rest := by
  unfold headerBlock at block
  obtain ⟨i, found, rfl⟩ := Option.map_eq_some_iff.mp block
  have first := (Search.find_eq_some headerEnd_ne_nil).mp found
  have inside : i + 4 ≤ (cString buf).length := first.length_le headerEnd_ne_nil
  have length : ((cString buf).take (i + 4)).length = i + 4 := by
    rw [List.length_take, Nat.min_eq_left inside]
  have split : (cString buf).take (i + 4) = (cString buf).take i ++ headerEnd := by
    have here : (((cString buf).drop i).take 4) = headerEnd :=
      (List.prefix_iff_eq_take.mp first.here).symm
    rw [List.take_add, here]
  refine ⟨⟨⟨_, split⟩, fun b mem => ?_, i, ?_, length⟩, ?_⟩
  · have mem' := List.mem_takeWhile_imp (List.mem_of_mem_take mem)
    simpa using mem'
  · rw [Search.find_eq_some headerEnd_ne_nil]
    refine ⟨?_, fun j less here => first.before j less ?_⟩
    · rw [split, List.drop_append_of_le_length (by rw [List.length_take]; omega),
        List.drop_eq_nil_of_le (List.length_take_le _ _), List.nil_append]
    · have longer := here.trans (List.IsPrefix.drop (List.take_prefix (i + 4) (cString buf)) j)
      exact longer
  · obtain ⟨rest, eq⟩ :=
      (List.take_prefix (i + 4) (cString buf)).trans (List.takeWhile_prefix _)
    exact ⟨rest, eq.symm⟩

/-- The last byte of a header block is a newline, and it is in no `Content-Length:`. -/
theorem IsBlock.newline (block : IsBlock header) : ∃ init, header = init ++ [10] := by
  obtain ⟨before, rfl⟩ := block.ends
  exact ⟨before ++ [13, 10, 13], by rw [List.append_assoc]; rfl⟩

theorem newline_not_mem : (10 : UInt8) ∉ contentLengthName := by decide

/-- What `handle_input` returns for a number behind a `Content-Length:`. -/
def framed (header : List UInt8) (v : Int) : Int :=
  if CInt.toInt32 v = 0 then -1 else CInt.toInt32 (header.length + CInt.toInt32 v)

/-- With a `Content-Length:` in the header block, `handle_input` reads the number behind it. -/
theorem IsBlock.handleInput_of_some (block : IsBlock header)
    (name : Search.find contentLengthName header = some p) (rest : List UInt8) :
    handleInput (header ++ rest) =
      framed header
        (Decimal.strtol (header.drop (p + contentLengthName.length) ++ cString rest)) := by
  obtain ⟨i, found, length⟩ := block.found
  have inside := ((Search.find_eq_some contentLengthName_ne_nil).mp name).length_le
    contentLengthName_ne_nil
  unfold handleInput framed
  rw [cString_append block.plain, Search.find_append headerEnd_ne_nil found,
    Search.find_append contentLengthName_ne_nil name]
  dsimp only
  rw [List.drop_append_of_le_length inside, length]

/-- Without one, a length that comes with the bytes behind the block is taken for it. -/
theorem IsBlock.handleInput_of_none (block : IsBlock header)
    (absent : Search.find contentLengthName header = none) {digits : List UInt8}
    (plain : ∀ b ∈ digits, b ≠ 0) :
    handleInput (header ++ (contentLengthName ++ digits)) =
      framed header (Decimal.strtol digits) := by
  obtain ⟨i, found, length⟩ := block.found
  obtain ⟨init, rfl⟩ := block.newline
  have plain' : ∀ b ∈ contentLengthName, b ≠ 0 := forall_mem_of_all (by decide)
  have string : cString (contentLengthName ++ digits) = contentLengthName ++ digits := by
    have digits' : cString digits = digits :=
      List.takeWhile_eq_self_iff.mpr fun b mem => by simpa using plain b mem
    rw [cString_append plain', digits']
  have first : Search.find contentLengthName (contentLengthName ++ digits) = some 0 :=
    (Search.find_eq_some contentLengthName_ne_nil).mpr
      ⟨List.prefix_append _ _, fun j less => absurd less (Nat.not_lt_zero j)⟩
  unfold handleInput framed
  rw [cString_append block.plain, string, Search.find_append headerEnd_ne_nil found,
    Search.find_append_of_none contentLengthName_ne_nil newline_not_mem absent, first,
    Option.map_some, Nat.add_zero]
  dsimp only
  rw [List.drop_append, List.drop_eq_nil_of_le (Nat.le_add_right _ _), List.nil_append,
    Nat.add_sub_cancel_left, List.drop_left, length]

/-- Two lengths that differ by one do not frame alike. -/
theorem framed_ne (header : List UInt8) : framed header 7 ≠ framed header 8 := by
  have seven : CInt.toInt32 7 = 7 := by decide
  have eight : CInt.toInt32 8 = 8 := by decide
  unfold framed
  rw [seven, eight, if_neg (by decide), if_neg (by decide)]
  unfold CInt.toInt32
  split
  · split
    · omega
    · omega
  · split
    · omega
    · omega

/-- If nothing behind the block counts, there is a `Content-Length:` in it, and something behind
it that is not white space. -/
theorem IsBlock.visible (block : IsBlock header)
    (own : ∀ rest, handleInput (header ++ rest) = n) :
    ∃ p, Search.find contentLengthName header = some p ∧
      ¬ ∀ b ∈ header.drop (p + contentLengthName.length), Decimal.IsSpace b := by
  have seven : Decimal.strtol [55] = 7 := by decide
  have eight : Decimal.strtol [56] = 8 := by decide
  cases name : Search.find contentLengthName header with
  | none =>
      have visible₇ : ∀ b ∈ [(55 : UInt8)], b ≠ 0 := forall_mem_of_all (by decide)
      have visible₈ : ∀ b ∈ [(56 : UInt8)], b ≠ 0 := forall_mem_of_all (by decide)
      have first := block.handleInput_of_none name visible₇
      have second := block.handleInput_of_none name visible₈
      rw [own, seven] at first
      rw [own, eight] at second
      exact absurd (first.symm.trans second) (framed_ne header)
  | some p =>
      refine ⟨p, rfl, fun spaces => ?_⟩
      have first := block.handleInput_of_some name [55]
      have second := block.handleInput_of_some name [56]
      have skip : ∀ more, Decimal.strtol (header.drop (p + contentLengthName.length) ++ more) =
          Decimal.strtol more := by
        intro more
        unfold Decimal.strtol
        rw [Decimal.number_append_of_spaces spaces]
      rw [own, skip, show cString [55] = [55] by decide, seven] at first
      rw [own, skip, show cString [56] = [56] by decide, eight] at second
      exact framed_ne header (first.symm.trans second)

/-- The number is in the block. -/
theorem IsBlock.strtol_eq (block : IsBlock header)
    (name : Search.find contentLengthName header = some p)
    (visible : ¬ ∀ b ∈ header.drop (p + contentLengthName.length), Decimal.IsSpace b)
    (more : List UInt8) :
    Decimal.strtol (header.drop (p + contentLengthName.length) ++ more) =
      Decimal.strtol (header.drop (p + contentLengthName.length)) := by
  obtain ⟨init, rfl⟩ := block.newline
  have ends := ((Search.find_eq_some contentLengthName_ne_nil).mp name).length_le_init
    contentLengthName_ne_nil newline_not_mem
  rw [List.drop_append_of_le_length ends] at visible ⊢
  unfold Decimal.strtol
  rw [Decimal.number_append visible]

/-- With a visible number, nothing behind the block counts. -/
theorem IsBlock.handleInput_eq (block : IsBlock header)
    (name : Search.find contentLengthName header = some p)
    (visible : ¬ ∀ b ∈ header.drop (p + contentLengthName.length), Decimal.IsSpace b)
    (rest : List UInt8) :
    handleInput (header ++ rest) =
      framed header (Decimal.strtol (header.drop (p + contentLengthName.length))) := by
  rw [block.handleInput_of_some name, block.strtol_eq name visible]

/-- A length that is right is that of a block which announces its body. -/
theorem IsBlock.announces (block : IsBlock header) (right : FrameRight buf header n)
    (known : 0 < n) : Announces header := by
  obtain ⟨p, name, visible⟩ := block.visible right.own
  have value := block.handleInput_eq name visible []
  have own := right.own []
  rw [own] at value
  unfold framed at value
  have int := CInt.toInt32_bounds (Decimal.strtol (header.drop (p + contentLengthName.length)))
  by_cases zero :
      CInt.toInt32 (Decimal.strtol (header.drop (p + contentLengthName.length))) = 0
  case pos =>
    rw [if_pos zero] at value
    omega
  case neg =>
    rw [if_neg zero] at value
    have length := right.length
    have le := right.le
    have sum := CInt.toInt32_bounds (header.length +
      CInt.toInt32 (Decimal.strtol (header.drop (p + contentLengthName.length))))
    rw [← value] at sum
    have same := CInt.eq_of_toInt32_add (value.symm.trans length) int ⟨by omega, by omega⟩
    exact ⟨by omega, by omega, p, name, same⟩

/-- And for a block that announces its body, the length is right. -/
theorem IsBlock.frameRight (block : IsBlock header) (announces : Announces header)
    (whole : buf = header ++ rest) (frame : handleInput buf = n) : FrameRight buf header n := by
  obtain ⟨positive, less, p, name, same⟩ := announces
  have visible : ¬ ∀ b ∈ header.drop (p + contentLengthName.length), Decimal.IsSpace b := by
    intro spaces
    unfold Decimal.strtol at same
    rw [Decimal.number_of_spaces spaces] at same
    have zero : CInt.toInt32 (max (-2 ^ 63) (min 0 (2 ^ 63 - 1))) = 0 := by decide
    omega
  have own : ∀ rest, handleInput (header ++ rest) = header.length + contentLength header := by
    intro rest
    rw [block.handleInput_eq name visible, framed, same, if_neg (by omega),
      CInt.toInt32_of_range (by omega) less]
  have length : n = header.length + contentLength header := by
    rw [← frame, whole, own]
  refine ⟨length, by omega, fun more => ?_, fun rest => ?_⟩
  · rw [whole, List.append_assoc, own, length]
  · rw [own, length]

end Block

/-- Without an empty line, the end of the request is still to come. -/
theorem headerBlock_isSome {buf : List UInt8} {n : Int} (frame : handleInput buf = n)
    (known : 0 < n) : ∃ header, headerBlock buf = some header := by
  cases found : Search.find headerEnd (cString buf) with
  | none =>
      unfold handleInput at frame
      rw [found] at frame
      dsimp only at frame
      omega
  | some i => exact ⟨_, by unfold headerBlock; rw [found]; rfl⟩

/-- The length of a request is right if and only if its header block announces the body. -/
theorem http_frame_iff (buf : List UInt8) (n : Int) (frame : handleInput buf = n)
    (known : 0 < n) :
    ∃ header, headerBlock buf = some header ∧ (FrameRight buf header n ↔ Announces header) := by
  obtain ⟨header, found⟩ := headerBlock_isSome frame known
  obtain ⟨block, rest, whole⟩ := headerBlock_spec found
  refine ⟨header, found, ?_⟩
  constructor
  case mp =>
    intro right
    exact block.announces right known
  case mpr =>
    intro announces
    exact block.frameRight announces whole frame

/-- A request with a body of five bytes. -/
def postRequest : List UInt8 :=
  asciiBytes "POST / HTTP/1.1\r\nContent-Length: 5\r\n\r\nhello"

/-- A request without a body. -/
def getRequest : List UInt8 := asciiBytes "GET / HTTP/1.1\r\n\r\n"

theorem http_frame_iff_five :
    ∃ header, headerBlock postRequest = some header ∧ FrameRight postRequest header 43 := by
  obtain ⟨header, found, iff⟩ := http_frame_iff postRequest 43 (by decide +kernel) (by decide)
  refine ⟨header, found, iff.mpr ?_⟩
  have whole : headerBlock postRequest = some (postRequest.take 38) := by decide +kernel
  rw [whole, Option.some_inj] at found
  subst found
  exact ⟨by decide +kernel, by decide +kernel, 17, by decide +kernel, by decide +kernel⟩

/-- In front of more bytes, a request without a body is no longer 18 bytes long. -/
theorem http_frame_reads_on : ¬ ∀ buf n, handleInput buf = n → 0 < n →
    ∃ header, headerBlock buf = some header ∧ FrameRight buf header n := by
  intro claim
  obtain ⟨header, found, right⟩ := claim getRequest 18 (by decide +kernel) (by decide)
  have grows := right.grows (asciiBytes "Content-Length: 5")
  have longer : handleInput (getRequest ++ asciiBytes "Content-Length: 5") = 23 := by
    decide +kernel
  rw [longer] at grows
  exact absurd grows (by decide)

end Verben.Http
