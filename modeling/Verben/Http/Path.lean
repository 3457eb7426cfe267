import Verben.Http.Response
import Verben.Lib.Paths

/-!
# The path that a request opens

`handle_process` takes what is between the method and the first `HTTP/` for the path of a
request, puts the document root in front of it and cuts it off where its buffer ends. It does not
look at the moves of the path. `http_path_iff` says for which requests the file that is opened is
the one that is requested, and is below the document root.
-/

namespace Verben.Http

/-- `"HTTP/"`. -/
def versionName : List UInt8 := asciiBytes "HTTP/"

/-! ## Where a path leads -/

/-- The move that a part of a path stands for. -/
def move (part : List UInt8) : Option (Paths.Move (List UInt8)) :=
  if part = [] ∨ part = [46] then none
  else if part = [46, 46] then some .up
  else some (.into part)

/-- The moves of a path, with a slash between two parts. -/
def moves (path : List UInt8) : List (Paths.Move (List UInt8)) :=
  (path.splitOn 47).filterMap move

/-- Where a path leads. -/
def location (path : List UInt8) : Paths.Place (List UInt8) := Paths.start.walk (moves path)

/-- A path from the top. -/
def isAbsolute (path : List UInt8) : Bool := path.head? = some 47

/-- A path that leads to a place below a directory. -/
def LiesUnder (dir path : List UInt8) : Prop :=
  isAbsolute path = isAbsolute dir ∧ Paths.Below (isAbsolute dir) (location dir) (location path)

/-- A name that leads, from a directory, to a place below it: where it goes up in the end, it
comes back through the last names of the directory. -/
def Stays (dir name : List UInt8) : Prop :=
  (isAbsolute dir = true ∨ (location name).ups ≤ (location dir).names.length) ∧
    (location dir).names.take (location name).ups <:+ (location name).names

theorem moves_append (dir name : List UInt8) :
    moves (dir ++ [47] ++ name) = moves dir ++ moves name := by
  unfold moves
  rw [List.append_assoc, List.singleton_append, List.splitOn_append_cons_self,
    List.filterMap_append]

/-- A name behind a directory leads to where it leads alone, seen from the directory. -/
theorem location_append (dir name : List UInt8) :
    location (dir ++ [47] ++ name) = (location name).seenFrom (location dir) := by
  unfold location
  rw [moves_append, Paths.Place.walk_append, Paths.Place.walk_eq]

theorem liesUnder_iff (dir name : List UInt8) :
    LiesUnder dir (dir ++ [47] ++ name) ↔ dir ≠ [] ∧ Stays dir name := by
  unfold LiesUnder Stays
  rw [location_append, Paths.below_seenFrom_iff]
  cases dir with
  | nil =>
      have differ : isAbsolute ([] ++ [47] ++ name) ≠ isAbsolute [] := nofun
      constructor
      case mp => exact fun under => absurd under.1 differ
      case mpr => exact fun stays => absurd rfl stays.1
  | cons b dir =>
      have same : isAbsolute (b :: dir ++ [47] ++ name) = isAbsolute (b :: dir) := rfl
      constructor
      case mp => exact fun under => ⟨nofun, under.2⟩
      case mpr => exact fun stays => ⟨same, stays.2⟩

/-! ## The path of a request -/

/-- A request with a request line: the method, the target and a version. -/
structure RequestLine (rcvbuf target : List UInt8) : Prop where
  line : asciiBytes "GET " ++ target ++ asciiBytes " HTTP/" <+: rcvbuf
  plain : ∀ b ∈ target, b ≠ 32 ∧ b ≠ 13 ∧ b ≠ 10 ∧ b ≠ 0

/-- The file that a target stands for. -/
def wanted (conf : Conf) (target : List UInt8) : List UInt8 :=
  if target.getLast? = some 47 then conf.indexFile else target

/-- What stands for the index file. -/
def NamesIndex (conf : Conf) (target : List UInt8) : Prop :=
  target.getLast? = some 47 ∨ target = conf.indexFile

/-- What is put behind the document root, before it is cut off. -/
def asked (conf : Conf) (rcvbuf : List UInt8) : Option (List UInt8) :=
  (requestPath (rcvbuf ++ [0])).map fun ptr =>
    if lastByte (rcvbuf ++ [0]) ptr = 47 then conf.indexFile else ptr

/-- The path that is opened is the document root and the file that is requested, nothing is cut
off, and it leads to a place below the document root. -/
structure PathRight (conf : Conf) (rcvbuf path : List UInt8) : Prop where
  complete : ∀ target, RequestLine rcvbuf target →
    path = conf.docRoot ++ [47] ++ wanted conf target
  whole : ∀ name, asked conf rcvbuf = some name → path = conf.docRoot ++ [47] ++ name
  under : LiesUnder conf.docRoot path

/-- A request that is served as it should be: the path has room in the buffer, the target does
not hold `HTTP/` itself (or what is in front of that stands for the index file, as the target
does), and the file stays below the document root. -/
structure Served (conf : Conf) (rcvbuf ptr name : List UInt8) : Prop where
  root : conf.docRoot ≠ []
  fits : conf.docRoot.length + 1 + name.length < fileSize
  version : ∀ target, RequestLine rcvbuf target →
    Search.find versionName target = none ∨ (NamesIndex conf target ∧ NamesIndex conf ptr)
  stays : Stays conf.docRoot name

section Request

variable {conf : Conf} {rcvbuf target ptr name path : List UInt8}

theorem versionName_ne_nil : versionName ≠ [] := by decide

theorem wanted_of_namesIndex (names : NamesIndex conf target) :
    wanted conf target = conf.indexFile := by
  unfold wanted
  rcases names with slash | rfl
  · rw [if_pos slash]
  · split
    · rfl
    · rfl

/-- Different texts stand for one file only if they stand for the index file. -/
theorem namesIndex_of_wanted_eq (same : wanted conf target = wanted conf ptr)
    (differ : ptr ≠ target) : NamesIndex conf target ∧ NamesIndex conf ptr := by
  unfold wanted at same
  by_cases left : target.getLast? = some 47
  case pos =>
    rw [if_pos left] at same
    refine ⟨.inl left, ?_⟩
    split at same
    · rename_i right
      exact .inl right
    · exact .inr same.symm
  case neg =>
    rw [if_neg left] at same
    split at same
    · rename_i right
      exact ⟨.inr same, .inl right⟩
    · exact absurd same.symm differ

/-- What the functions on strings see behind the method. -/
theorem RequestLine.string (line : RequestLine rcvbuf target) :
    ∃ rest, cString ((rcvbuf ++ [0]).drop 4) = target ++ [32] ++ (versionName ++ rest) := by
  obtain ⟨rest, whole⟩ := line.line
  have behind : (rcvbuf ++ [0]).drop 4 =
      (target ++ [32] ++ versionName) ++ (rest ++ [0]) := by
    have space : asciiBytes " HTTP/" = [32] ++ versionName := by decide
    have method : (asciiBytes "GET ").length = 4 := by decide
    rw [← whole, space, ← method]
    simp only [List.append_assoc, List.drop_left]
  have named : ∀ b ∈ versionName, b ≠ 0 := forall_mem_of_all (by decide)
  have plain : ∀ b ∈ target ++ [32] ++ versionName, b ≠ 0 := by
    intro b mem
    rcases List.mem_append.mp mem with mem | mem
    · rcases List.mem_append.mp mem with mem | mem
      · exact (line.plain b mem).2.2.2
      · rw [List.mem_singleton.mp mem]
        decide
    · exact named b mem
  exact ⟨cString (rest ++ [0]), by rw [behind, cString_append plain, List.append_assoc]⟩

/-- There is only one target. -/
theorem RequestLine.target_eq (line : RequestLine rcvbuf target) :
    target = (rcvbuf.drop 4).takeWhile (· ≠ 32) := by
  obtain ⟨rest, rfl⟩ := line.line
  have space : asciiBytes " HTTP/" = 32 :: versionName := by decide
  have method : (asciiBytes "GET ").length = 4 := by decide
  have plain : ∀ b ∈ target, decide (b ≠ 32) = true :=
    fun b mem => decide_eq_true (line.plain b mem).1
  rw [space, ← method, List.append_assoc, List.append_assoc, List.drop_left,
    List.takeWhile_append_of_pos plain, List.cons_append,
    List.takeWhile_cons_of_neg (by decide), List.append_nil]

/-- Without `HTTP/` in the target, the path of the request is the target. -/
theorem RequestLine.requestPath_eq (line : RequestLine rcvbuf target)
    (absent : Search.find versionName target = none) :
    requestPath (rcvbuf ++ [0]) = some target := by
  obtain ⟨rest, string⟩ := line.string
  have space : (32 : UInt8) ∉ versionName := by decide
  have found : Search.find versionName (target ++ [32] ++ (versionName ++ rest)) =
      some (target.length + 1) := by
    have behind : Search.find versionName (versionName ++ rest) = some 0 :=
      Search.find_of_prefix versionName_ne_nil (List.prefix_append _ _)
    rw [Search.find_append_of_none versionName_ne_nil space
      (Search.find_concat_of_none versionName_ne_nil space absent), behind, Option.map_some,
      List.length_append]
    rfl
  unfold requestPath
  dsimp only
  rw [string, show asciiBytes "HTTP/" = versionName by rfl, found, Option.map_some,
    if_neg (Nat.succ_ne_zero _), Nat.add_sub_cancel, List.append_assoc, List.take_left]

/-- With it, the path of the request is not the target. -/
theorem RequestLine.requestPath_ne (line : RequestLine rcvbuf target)
    (cut : requestPath (rcvbuf ++ [0]) = some ptr)
    (present : Search.find versionName target ≠ none) : ptr ≠ target := by
  obtain ⟨rest, string⟩ := line.string
  obtain ⟨k, found⟩ := Option.ne_none_iff_exists'.mp present
  have inside := ((Search.find_eq_some versionName_ne_nil).mp found).length_le versionName_ne_nil
  have found' : Search.find versionName (target ++ [32] ++ (versionName ++ rest)) = some k := by
    rw [List.append_assoc]
    exact Search.find_append versionName_ne_nil found _
  unfold requestPath at cut
  dsimp only at cut
  rw [string, show asciiBytes "HTTP/" = versionName by rfl, found', Option.map_some,
    Option.some_inj] at cut
  intro same
  have length := congrArg List.length (cut.trans same)
  split at length
  · simp only [List.length_append, List.length_singleton] at length
    omega
  · rw [List.length_take] at length
    simp only [List.length_append, List.length_singleton] at length
    omega

/-- Behind a method with a space, an empty path does not end with a slash. -/
theorem RequestLine.asked_eq (line : RequestLine rcvbuf target)
    (cut : requestPath (rcvbuf ++ [0]) = some ptr) :
    asked conf rcvbuf = some (wanted conf ptr) := by
  have method : (rcvbuf ++ [0]).getD 3 0 = 32 := by
    obtain ⟨rest, whole⟩ := line.line
    rw [← whole]
    rfl
  unfold asked wanted lastByte
  rw [cut, Option.map_some, method]
  cases last : ptr.getLast? with
  | none => rfl
  | some b =>
      rw [Option.getD_some]
      simp only [Option.some_inj]

/-- A path is opened after the path of the request was found, and cut off. -/
theorem handleProcess_opened {openFile : List UInt8 → Option OpenFile} {answer : ProcessAnswer}
    (ran : handleProcess conf openFile rcvbuf = some (answer, some path)) :
    ∃ ptr name, requestPath (rcvbuf ++ [0]) = some ptr ∧ asked conf rcvbuf = some name ∧
      path = (conf.docRoot ++ [47] ++ name).take (fileSize - 1) := by
  obtain ⟨path', opened, same, -⟩ := (handleProcess_cases ran).resolve_left fun unopened =>
    nomatch unopened.1
  cases same
  unfold filePath at opened
  obtain ⟨ptr, cut, path_eq⟩ := Option.map_eq_some_iff.mp opened
  refine ⟨ptr, _, cut, ?_, path_eq.symm⟩
  unfold asked
  rw [cut, Option.map_some]

/-- What is cut off is shorter. -/
theorem take_eq_iff (whole : List UInt8) :
    whole.take (fileSize - 1) = whole ↔ whole.length < fileSize := by
  rw [List.take_eq_self_iff]
  unfold fileSize
  omega

theorem length_path (conf : Conf) (name : List UInt8) :
    (conf.docRoot ++ [47] ++ name).length = conf.docRoot.length + 1 + name.length := by
  rw [List.length_append, List.length_append, List.length_singleton]

/-- A request whose path is right is served as it should be. -/
theorem PathRight.served (right : PathRight conf rcvbuf path)
    (cut : requestPath (rcvbuf ++ [0]) = some ptr) (name_eq : asked conf rcvbuf = some name)
    (path_eq : path = (conf.docRoot ++ [47] ++ name).take (fileSize - 1)) :
    Served conf rcvbuf ptr name := by
  have whole := right.whole name name_eq
  have under := right.under
  rw [whole] at under
  obtain ⟨root, stays⟩ := (liesUnder_iff _ _).mp under
  refine ⟨root, ?_, fun target line => ?_, stays⟩
  · rw [← length_path]
    exact (take_eq_iff _).mp (path_eq.symm.trans whole)
  · by_cases absent : Search.find versionName target = none
    case pos => exact .inl absent
    case neg =>
      have same := List.append_cancel_left (whole.symm.trans (right.complete target line))
      rw [line.asked_eq cut, Option.some_inj] at name_eq
      rw [← name_eq] at same
      exact .inr (namesIndex_of_wanted_eq same.symm (line.requestPath_ne cut absent))

/-- And the other way round. -/
theorem Served.pathRight (served : Served conf rcvbuf ptr name)
    (cut : requestPath (rcvbuf ++ [0]) = some ptr) (name_eq : asked conf rcvbuf = some name)
    (path_eq : path = (conf.docRoot ++ [47] ++ name).take (fileSize - 1)) :
    PathRight conf rcvbuf path := by
  have fits := served.fits
  rw [← length_path, ← take_eq_iff] at fits
  have whole : path = conf.docRoot ++ [47] ++ name := path_eq.trans fits
  refine ⟨fun target line => ?_, fun name' name_eq' => ?_, ?_⟩
  · rw [whole]
    rw [line.asked_eq cut, Option.some_inj] at name_eq
    subst name_eq
    rcases served.version target line with absent | ⟨left, right⟩
    · have same := cut.symm.trans (line.requestPath_eq absent)
      rw [Option.some_inj.mp same]
    · rw [wanted_of_namesIndex left, wanted_of_namesIndex right]
  · rw [whole, Option.some_inj.mp (name_eq.symm.trans name_eq')]
  · rw [whole]
    exact (liesUnder_iff _ _).mpr ⟨served.root, served.stays⟩

end Request

/-- The path that is opened is right if and only if the request can be served. -/
theorem http_path_iff (conf : Conf) (openFile : List UInt8 → Option OpenFile)
    (rcvbuf : List UInt8) (answer : ProcessAnswer) (path : List UInt8)
    (ran : handleProcess conf openFile rcvbuf = some (answer, some path)) :
    ∃ ptr name, requestPath (rcvbuf ++ [0]) = some ptr ∧ asked conf rcvbuf = some name ∧
      (PathRight conf rcvbuf path ↔ Served conf rcvbuf ptr name) := by
  obtain ⟨ptr, name, cut, name_eq, path_eq⟩ := handleProcess_opened ran
  refine ⟨ptr, name, cut, name_eq, ?_⟩
  constructor
  case mp =>
    intro right
    exact right.served cut name_eq path_eq
  case mpr =>
    intro served
    exact served.pathRight cut name_eq path_eq

theorem http_path_iff_a : ∃ answer, handleProcess srv (oneFile []) getA =
    some (answer, some (asciiBytes "/srv//a")) ∧
      PathRight srv getA (asciiBytes "/srv//a") := by
  have out : outcome srv (oneFile []) getA =
      some (verbenConnClose, some (asciiBytes "/srv//a")) := by decide +kernel
  obtain ⟨answer, ran, _⟩ := answered_of_outcome out
  obtain ⟨ptr, name, cut, name_eq, iff⟩ := http_path_iff _ _ _ _ _ ran
  have cut' : requestPath (getA ++ [0]) = some (asciiBytes "/a") := by decide +kernel
  have name_eq' : asked srv getA = some (asciiBytes "/a") := by decide +kernel
  rw [cut', Option.some_inj] at cut
  rw [name_eq', Option.some_inj] at name_eq
  subst cut name_eq
  refine ⟨answer, ran, iff.mpr ⟨by decide, by decide, fun target line => .inl ?_, ?_⟩⟩
  · rw [line.target_eq]
    decide +kernel
  · unfold Stays
    decide +kernel

/-- A server with one file, which is not under its root. -/
def passwd (path : List UInt8) : Option OpenFile :=
  if path = asciiBytes "/srv//../../etc/passwd" then some (plainFile (asciiBytes "root:x:0:0"))
  else none

def getPasswd : List UInt8 := asciiBytes "GET /../../etc/passwd HTTP/1.1\r\n\r\n"

/-- A path that goes up leads out of the document root. -/
theorem http_path_escapes : ¬ ∀ conf openFile rcvbuf answer path,
    handleProcess conf openFile rcvbuf = some (answer, some path) →
    answer.ret = verbenConnClose → PathRight conf rcvbuf path := by
  intro claim
  have out : outcome srv passwd getPasswd =
      some (verbenConnClose, some (asciiBytes "/srv//../../etc/passwd")) := by decide +kernel
  obtain ⟨answer, ran, closes⟩ := answered_of_outcome out
  obtain ⟨_, below⟩ := (claim _ _ _ _ _ ran closes).under
  have outside : ¬ (location srv.docRoot).names <:+
      (location (asciiBytes "/srv//../../etc/passwd")).names := by decide +kernel
  exact outside below.2

end Verben.Http
