import Verben.Http.Frame

/-!
# The response with a file

`handle_process` announces the size of the file, and then reads the file into the rest of a
buffer of fixed size. It does not look whether all of the file was read. `http_response_iff` says
that the response carries the file as announced if and only if its header and the file leave room
for the terminator. In this version the file may have at most 4021 bytes (`fits_iff`).
-/

namespace Verben.Http

/-! ## The file in pieces -/

section Read

variable {file : OpenFile} {header off stop rounds : Nat} {fine : Bool}

/-- One round of the loop stays inside the file and inside the buffer. -/
theorem OpenFile.read_succ {n : Nat}
    (got : file.read off (responseBufSize - (header + off) - 1) = some (n + 1)) :
    off + (n + 1) ≤ file.content.length ∧ header + (off + (n + 1)) < responseBufSize := by
  obtain ⟨room, left⟩ := file.inside _ _ _ got
  constructor
  · omega
  · omega

/-- A run of the loop that ends without a failure has read all of the file, or it has filled the
buffer. -/
theorem readFile_spec (inFile : off ≤ file.content.length)
    (inBuf : header + off < responseBufSize)
    (ran : readFile file header rounds off = some (stop, fine)) :
    stop ≤ file.content.length ∧ header + stop < responseBufSize ∧
      (fine = true → stop = file.content.length ∨ header + stop + 1 = responseBufSize) := by
  induction rounds generalizing off with
  | zero => cases ran
  | succ rounds ih =>
      unfold readFile at ran
      cases got : file.read off (responseBufSize - (header + off) - 1) with
      | none =>
          rw [got] at ran
          dsimp only at ran
          cases ran
          exact ⟨inFile, inBuf, fun fine => nomatch fine⟩
      | some n =>
          rw [got] at ran
          cases n with
          | zero =>
              dsimp only at ran
              cases ran
              refine ⟨inFile, inBuf, fun _ => ?_⟩
              rcases file.progress _ _ got with full | ended
              · exact .inr (by omega)
              · exact .inl (by omega)
          | succ n =>
              have next := file.read_succ got
              exact ih next.1 next.2 ran

/-- Each round reads a byte or is the last one. -/
theorem readFile_isSome (left : file.content.length < off + rounds)
    (inFile : off ≤ file.content.length) : ∃ end', readFile file header rounds off = some end' := by
  induction rounds generalizing off with
  | zero => omega
  | succ rounds ih =>
      unfold readFile
      cases got : file.read off (responseBufSize - (header + off) - 1) with
      | none => exact ⟨_, rfl⟩
      | some n =>
          cases n with
          | zero => exact ⟨_, rfl⟩
          | succ n => exact ih (by omega) (file.read_succ got).1

end Read

/-! ## The header -/

/-- The header up to the size. -/
def headerFront : List UInt8 :=
  asciiBytes "HTTP/1.1 200 OK\r\nServer: verben " ++ version ++ asciiBytes "\r\nContent-Length: "

/-- The size as it is printed. -/
def sizeText (size : Nat) : List UInt8 := formatInt 0 (CInt.toInt32 size)

theorem responseHeader_eq (size : Nat) :
    responseHeader size = headerFront ++ (sizeText size ++ headerEnd) := by
  have ending : asciiBytes "\r\n\r\n" = headerEnd := by decide
  unfold responseHeader headerFront sizeText
  rw [ending]
  simp only [List.append_assoc]

/-- Where the parts of the front are, with a space at its end. -/
theorem headerFront_spec : headerFront.length = 66 ∧ headerFront = headerFront.take 65 ++ [32] ∧
    Search.find headerEnd (headerFront.take 65 ++ [32]) = none ∧
    headerFront.all (fun b => b ≠ 0) ∧ Search.find contentLengthLine headerFront = some 48 ∧
    headerFront.drop (48 + contentLengthLine.length) = [32] ∧
    48 + contentLengthLine.length ≤ headerFront.length := by
  decide +kernel

theorem length_headerFront : headerFront.length = 66 := headerFront_spec.1

/-- A printed size consists of digits, with a minus in front of them or not. -/
theorem sizeText_spec (size : Nat) : ∃ init last, sizeText size = init ++ [last] ∧
    Decimal.IsDigit last ∧ ∀ b ∈ sizeText size, b = 45 ∨ Decimal.IsDigit b := by
  have digit : ∀ b ∈ Decimal.digits (CInt.toInt32 size).natAbs, Decimal.IsDigit b :=
    fun b mem => Decimal.isDigit_of_mem_digits mem
  unfold sizeText
  rw [formatInt_eq]
  rcases List.eq_nil_or_concat (Decimal.digits (CInt.toInt32 size).natAbs) with
    none' | ⟨init, last, eq⟩
  · exact absurd none' (Decimal.digits_ne_nil _)
  · rw [List.concat_eq_append] at eq
    refine ⟨(if CInt.toInt32 size < 0 then [45] else []) ++ init, last, ?_, ?_, ?_⟩
    · rw [eq, List.append_assoc]
    · exact digit last (by rw [eq]; exact List.mem_append_right _ (.head _))
    · intro b mem
      rcases List.mem_append.mp mem with mem | mem
      · split at mem
        · exact .inl (List.mem_singleton.mp mem)
        · exact nomatch mem
      · exact .inr (digit b mem)

theorem sizeText_eq {size : Nat} (int : size < 2 ^ 31) : sizeText size = Decimal.digits size := by
  unfold sizeText
  rw [CInt.toInt32_of_range (by omega) (by omega), formatInt_zero]

/-- The bytes of a size are not those of the end of a line. -/
theorem not_mem_sizeText {b : UInt8} (size : Nat) (foreign : b ≠ 45 ∧ ¬ Decimal.IsDigit b) :
    b ∉ sizeText size := by
  obtain ⟨_, _, _, _, all⟩ := sizeText_spec size
  intro mem
  rcases all b mem with minus | digit
  · exact foreign.1 minus
  · exact foreign.2 digit

/-- The empty line comes behind the size. -/
theorem find_headerEnd (size : Nat) (more : List UInt8) :
    Search.find headerEnd (responseHeader size ++ more) =
      some (headerFront ++ sizeText size).length := by
  obtain ⟨init, last, split, digit, _⟩ := sizeText_spec size
  have behind : Search.find headerEnd (headerEnd ++ more) = some 0 :=
    Search.find_of_prefix headerEnd_ne_nil (List.prefix_append _ _)
  have inSize : Search.find headerEnd (sizeText size) = none :=
    Search.find_eq_none_of_not_mem (show (13 : UInt8) ∈ headerEnd by decide)
      (not_mem_sizeText size (by decide))
  have foreign : last ∉ headerEnd := by
    intro mem
    have allNot : ∀ b ∈ headerEnd, ¬ Decimal.IsDigit b := forall_mem_of_all (by decide)
    exact allNot last mem digit
  obtain ⟨-, frontSplit, inFront, -⟩ := headerFront_spec
  rw [split] at inSize
  rw [responseHeader_eq, List.append_assoc, List.append_assoc, frontSplit,
    Search.find_append_of_none headerEnd_ne_nil (by decide) inFront, split,
    Search.find_append_of_none headerEnd_ne_nil foreign inSize, behind, Option.map_some,
    Option.map_some, Nat.add_zero, ← List.length_append]

theorem responseHeader_ne_zero (size : Nat) : ∀ b ∈ responseHeader size, b ≠ 0 := by
  obtain ⟨-, -, -, noZero, -⟩ := headerFront_spec
  have front : ∀ b ∈ headerFront, b ≠ 0 := forall_mem_of_all noZero
  have ending : ∀ b ∈ headerEnd, b ≠ 0 := forall_mem_of_all (by decide)
  intro b mem zero
  subst zero
  rw [responseHeader_eq, List.mem_append, List.mem_append] at mem
  rcases mem with mem | mem | mem
  · exact front 0 mem rfl
  · exact not_mem_sizeText size (by decide) mem
  · exact ending 0 mem rfl

/-- The header of the response is its header block, whatever the file holds. -/
theorem headerBlock_response (size : Nat) (body : List UInt8) :
    headerBlock (responseHeader size ++ body) = some (responseHeader size) := by
  have length : (headerFront ++ sizeText size).length + 4 = (responseHeader size).length := by
    rw [responseHeader_eq, ← List.append_assoc, @List.length_append _ _ headerEnd]
    rfl
  unfold headerBlock
  rw [cString_append (responseHeader_ne_zero size), find_headerEnd, Option.map_some, length,
    List.take_left]

theorem contentLength_of_find {header : List UInt8} {i : Nat}
    (line : Search.find contentLengthLine header = some i) :
    contentLength header =
      Decimal.number ((header.drop (i + contentLengthLine.length)).takeWhile (· ≠ 13)) := by
  unfold contentLength
  rw [line]

/-- The number in the header is the size of the file. -/
theorem contentLength_response {size : Nat} (int : size < 2 ^ 31) :
    contentLength (responseHeader size) = size := by
  obtain ⟨-, -, -, -, line, behind, ends⟩ := headerFront_spec
  have inside : contentLengthLine ≠ [] := by decide
  have noReturn : ∀ b ∈ [32] ++ sizeText size, b ≠ 13 := by
    intro b mem
    rcases List.mem_append.mp mem with mem | mem
    · rw [List.mem_singleton.mp mem]
      decide
    · rintro rfl
      exact not_mem_sizeText size (by decide) mem
  have stops : headerEnd.takeWhile (fun b => decide (b ≠ 13)) = [] := by decide
  rw [responseHeader_eq, contentLength_of_find (Search.find_append inside line _),
    List.drop_append_of_le_length ends, behind, ← List.append_assoc,
    List.takeWhile_append_of_pos (by simpa using noReturn), stops, List.append_nil,
    Decimal.number_append_of_spaces (forall_mem_of_all (by decide)), sizeText_eq int,
    Decimal.number_digits]

theorem length_responseHeader (size : Nat) :
    (responseHeader size).length = 70 + (sizeText size).length := by
  rw [responseHeader_eq, List.length_append, List.length_append, length_headerFront,
    show headerEnd.length = 4 by rfl]
  omega

/-- An `int` has no more than ten digits. -/
theorem length_sizeText_le (size : Nat) : (sizeText size).length ≤ 11 := by
  have int := CInt.toInt32_bounds size
  have digits := (Decimal.length_digits_le_iff (n := (CInt.toInt32 size).natAbs)
    (show 0 < 10 by decide)).mpr (by omega)
  unfold sizeText
  rw [formatInt_eq, List.length_append]
  split
  · rw [List.length_singleton]
    omega
  · rw [List.length_nil]
    omega

/-- With the version in this header, a size up to 4021 leaves room for the file, and no greater one
does. -/
theorem fits_iff (size : Nat) :
    (responseHeader size).length + size < responseBufSize ↔ size ≤ 4021 := by
  rw [length_responseHeader]
  unfold responseBufSize
  constructor
  case mp =>
    intro fits
    have int : size < 2 ^ 31 := by omega
    by_contra large
    have four : ¬ (Decimal.digits size).length ≤ 3 := by
      rw [Decimal.length_digits_le_iff (by decide)]
      omega
    rw [sizeText_eq int] at fits
    omega
  case mpr =>
    intro small
    have four : (Decimal.digits size).length ≤ 4 := by
      rw [Decimal.length_digits_le_iff (by decide)]
      omega
    rw [sizeText_eq (by omega)]
    omega

/-! ## The response -/

/-- The bytes that are sent: the first `sndlen` of the buffer. -/
def response (answer : ProcessAnswer) : Option (List UInt8) :=
  match answer.sndbuf, answer.sndlen with
  | some sndbuf, some sndlen => some (sndbuf.take sndlen.toNat)
  | _, _ => none

/-- A response that carries a file: behind the header block comes the file, and its size is the
number in the header block. -/
def Carries (answer : ProcessAnswer) (content : List UInt8) : Prop :=
  ∃ out header body, response answer = some out ∧ headerBlock out = some header ∧
    out = header ++ body ∧ contentLength header = body.length ∧ body = content

section Respond

variable {file : OpenFile} {answer : ProcessAnswer}

/-- The response is the header and the part of the file that was read. -/
theorem respond_spec (answered : respond file = some answer)
    (closes : answer.ret = verbenConnClose) :
    ∃ stop, response answer =
        some (responseHeader file.content.length ++ file.content.take stop) ∧
      stop ≤ file.content.length ∧
      (responseHeader file.content.length).length + stop < responseBufSize ∧
      (stop = file.content.length ∨
        (responseHeader file.content.length).length + stop + 1 = responseBufSize) := by
  unfold respond at answered
  obtain ⟨⟨stop, fine⟩, ran, rfl⟩ := Option.map_eq_some_iff.mp answered
  have short : (responseHeader file.content.length).length < responseBufSize := by
    have := length_sizeText_le file.content.length
    rw [length_responseHeader]
    unfold responseBufSize
    omega
  obtain ⟨inFile, inBuf, ended⟩ := readFile_spec (Nat.zero_le _) short ran
  have ok : fine = true := by
    cases fine with
    | true => rfl
    | false => exact absurd closes (show verbenError ≠ verbenConnClose by decide)
  refine ⟨stop, ?_, inFile, inBuf, ended ok⟩
  have taken : (file.content.take stop).length = stop := List.length_take_of_le inFile
  unfold response
  dsimp only
  rw [Int.toNat_natCast, List.take_append_of_le_length, List.take_of_length_le]
  · rw [List.length_append, taken]
  · rw [List.length_append, taken]

/-- It carries the file if and only if the file fits behind the header. -/
theorem respond_carries_iff (answered : respond file = some answer)
    (closes : answer.ret = verbenConnClose) :
    Carries answer file.content ↔
      (responseHeader file.content.length).length + file.content.length < responseBufSize := by
  obtain ⟨stop, sent, inFile, inBuf, ended⟩ := respond_spec answered closes
  constructor
  case mp =>
    rintro ⟨out, header, body, out_eq, block, whole, -, rfl⟩
    rw [sent, Option.some_inj] at out_eq
    subst out_eq
    rw [headerBlock_response, Option.some_inj] at block
    subst block
    have body_eq := List.append_cancel_left whole
    have all := congrArg List.length body_eq
    rw [List.length_take_of_le inFile] at all
    omega
  case mpr =>
    intro fits
    have all : stop = file.content.length := by omega
    have int : file.content.length < 2 ^ 31 := by
      unfold responseBufSize at fits
      omega
    rw [all, List.take_length] at sent
    exact ⟨_, _, _, sent, headerBlock_response _ _, rfl, contentLength_response int, rfl⟩

/-- The loop always ends. -/
theorem respond_isSome (file : OpenFile) : ∃ answer, respond file = some answer := by
  obtain ⟨end', ran⟩ := @readFile_isSome file (responseHeader file.content.length).length 0
    (file.content.length + 1) (by omega) (Nat.zero_le _)
  unfold respond
  dsimp only
  rw [ran]
  exact ⟨_, rfl⟩

end Respond

/-- The ends of `handle_process`: no path is found, or it cannot be opened, or the file is sent. -/
theorem handleProcess_cases {conf : Conf} {openFile : List UInt8 → Option OpenFile}
    {rcvbuf : List UInt8} {answer : ProcessAnswer} {opened : Option (List UInt8)}
    (answered : handleProcess conf openFile rcvbuf = some (answer, opened)) :
    (opened = none ∧ answer.ret = verbenError) ∨
      ∃ path, filePath conf (rcvbuf ++ [0]) = some path ∧ opened = some path ∧
        ((openFile path = none ∧ answer.ret = verbenError) ∨
          ∃ file, openFile path = some file ∧ respond file = some answer) := by
  unfold handleProcess at answered
  dsimp only at answered
  split at answered
  · cases answered
    exact .inl ⟨rfl, rfl⟩
  · split at answered
    · cases answered
    · split at answered
      · cases answered
        exact .inl ⟨rfl, rfl⟩
      · rename_i path found
        refine .inr ⟨path, found, ?_⟩
        split at answered
        · rename_i missing
          cases answered
          exact ⟨rfl, .inl ⟨missing, rfl⟩⟩
        · rename_i file there
          obtain ⟨answer', ran, same⟩ := Option.map_eq_some_iff.mp answered
          cases same
          exact ⟨rfl, .inr ⟨file, there, ran⟩⟩

/-- A file is sent for a request when it was opened. -/
theorem handleProcess_spec {conf : Conf} {openFile : List UInt8 → Option OpenFile}
    {rcvbuf : List UInt8} {answer : ProcessAnswer} {opened : Option (List UInt8)}
    (answered : handleProcess conf openFile rcvbuf = some (answer, opened))
    (closes : answer.ret = verbenConnClose) :
    ∃ path file, opened = some path ∧ openFile path = some file ∧ respond file = some answer := by
  have noError : answer.ret ≠ verbenError := by
    rw [closes]
    decide
  rcases handleProcess_cases answered with ⟨-, error⟩ | ⟨path, -, opened_eq, ⟨-, error⟩ |
    ⟨file, there, ran⟩⟩
  · exact absurd error noError
  · exact absurd error noError
  · exact ⟨path, file, opened_eq, there, ran⟩

/-- Only behind a request that ends before its path, `handle_process` reads behind its copy. -/
theorem handleProcess_isSome (conf : Conf) (openFile : List UInt8 → Option OpenFile)
    {rcvbuf : List UInt8} (long : 4 ≤ rcvbuf.length) :
    ∃ out, handleProcess conf openFile rcvbuf = some out := by
  unfold handleProcess
  dsimp only
  split
  · exact ⟨_, rfl⟩
  · rw [if_neg (by omega)]
    split
    · exact ⟨_, rfl⟩
    · split
      · exact ⟨_, rfl⟩
      · rename_i file _
        obtain ⟨answer, ran⟩ := respond_isSome file
        exact ⟨_, by rw [ran]; rfl⟩

/-- The response carries the file that was opened if and only if the buffer has room for the header,
the file and a terminator. -/
theorem http_response_iff (conf : Conf) (openFile : List UInt8 → Option OpenFile)
    (rcvbuf : List UInt8) (answer : ProcessAnswer) (opened : Option (List UInt8))
    (answered : handleProcess conf openFile rcvbuf = some (answer, opened))
    (closes : answer.ret = verbenConnClose) :
    ∃ path file, opened = some path ∧ openFile path = some file ∧
      (Carries answer file.content ↔
        (responseHeader file.content.length).length + file.content.length < responseBufSize) := by
  obtain ⟨path, file, opened_eq, found, ran⟩ := handleProcess_spec answered closes
  exact ⟨path, file, opened_eq, found, respond_carries_iff ran closes⟩

/-- A file that is read in as large pieces as there is room for. -/
def plainFile (content : List UInt8) : OpenFile where
  content := content
  read := fun off room => some (min room (content.length - off))
  inside := by
    intro off room n got
    cases got
    exact ⟨Nat.min_le_left _ _, Nat.min_le_right _ _⟩
  progress := by
    intro off room got
    have none' : min room (content.length - off) = 0 := Option.some_inj.mp got
    omega

/-- A server with one file under its root. -/
def srv : Conf := ⟨asciiBytes "/srv", asciiBytes "index.html"⟩

def oneFile (content path : List UInt8) : Option OpenFile :=
  if path = asciiBytes "/srv//a" then some (plainFile content) else none

def getA : List UInt8 := asciiBytes "GET /a HTTP/1.1\r\n\r\n"

/-- How a request ends, and the path that it opens. -/
def outcome (conf : Conf) (openFile : List UInt8 → Option OpenFile) (rcvbuf : List UInt8) :
    Option (Int × Option (List UInt8)) :=
  (handleProcess conf openFile rcvbuf).map fun (answer, opened) => (answer.ret, opened)

theorem answered_of_outcome {conf : Conf} {openFile : List UInt8 → Option OpenFile}
    {rcvbuf : List UInt8} {ret : Int} {opened : Option (List UInt8)}
    (out : outcome conf openFile rcvbuf = some (ret, opened)) :
    ∃ answer, handleProcess conf openFile rcvbuf = some (answer, opened) ∧ answer.ret = ret := by
  obtain ⟨⟨answer, opened'⟩, answered, same⟩ := Option.map_eq_some_iff.mp out
  cases same
  exact ⟨answer, answered, rfl⟩

theorem oneFile_content {content path : List UInt8} {file : OpenFile}
    (found : oneFile content path = some file) : file.content = content := by
  unfold oneFile at found
  split at found
  · cases found
    rfl
  · cases found

theorem http_response_iff_hello : ∃ answer path file,
    handleProcess srv (oneFile (asciiBytes "hello")) getA = some (answer, some path) ∧
      oneFile (asciiBytes "hello") path = some file ∧ Carries answer file.content := by
  have out : outcome srv (oneFile (asciiBytes "hello")) getA =
      some (verbenConnClose, some (asciiBytes "/srv//a")) := by decide +kernel
  obtain ⟨answer, answered, closes⟩ := answered_of_outcome out
  obtain ⟨path, file, opened, found, iff⟩ := http_response_iff _ _ _ _ _ answered closes
  have small : (responseHeader file.content.length).length + file.content.length <
      responseBufSize := by
    rw [fits_iff, oneFile_content found]
    decide
  exact ⟨answer, path, file, by rw [answered, opened], found, iff.mpr small⟩

/-- Of a file of 5000 bytes, only the front is sent. -/
theorem http_response_cut_off : ¬ ∀ conf openFile rcvbuf answer opened,
    handleProcess conf openFile rcvbuf = some (answer, opened) →
    answer.ret = verbenConnClose →
    ∃ path file, opened = some path ∧ openFile path = some file ∧
      Carries answer file.content := by
  intro claim
  have out : outcome srv (oneFile (List.replicate 5000 65)) getA =
      some (verbenConnClose, some (asciiBytes "/srv//a")) := by decide +kernel
  obtain ⟨answer, answered, closes⟩ := answered_of_outcome out
  obtain ⟨path, file, opened, found, carries⟩ := claim _ _ _ _ _ answered closes
  obtain ⟨path', file', opened', found', ran⟩ := handleProcess_spec answered closes
  rw [opened, Option.some_inj] at opened'
  subst opened'
  rw [found, Option.some_inj] at found'
  subst found'
  have small := (respond_carries_iff ran closes).mp carries
  rw [fits_iff, oneFile_content found, List.length_replicate] at small
  omega

end Verben.Http
