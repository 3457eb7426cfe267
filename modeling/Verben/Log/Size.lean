import Verben.Log.Levels

/-!
# The size of the log file

A call that finds the log file too large moves it away, if a number is free for it. If none is,
the call makes the last number free for the next call, and adds its own line to the file. So the
file grows by two lines beyond the limit, and no further (`log_size_bounded`): with one number
only, no number is ever made free, and the file grows without end (`log_single_file_grows`).
-/

namespace Verben

/-- The bytes of a log file. -/
def logBytes (files : LogFiles) (path : List UInt8) : Nat :=
  (logContent files path).flatten.length

/-- A number is free. -/
def LogHole (files : LogFiles) (path : List UInt8) (n : Nat) : Prop :=
  ∃ i < n, files.content (rotatedPath path i) = none

/-- The log file has this many bytes at most, or one line more while a number is free. -/
def LogWithin (files : LogFiles) (path : List UInt8) (n : Nat) (bound : Int) : Prop :=
  logBytes files path ≤ bound ∨
    (LogHole files path n ∧ logBytes files path ≤ bound + logBufferSize)

/-- What keeps the log file small: it is not above the limit when it is opened again, and one
line above it at most while it is open, as long as no number is free. -/
structure LogState.Small (st : LogState) (index : LogLevel) : Prop where
  number : 1 < st.number
  size : 0 ≤ st.size
  opens : st.OpenOn index
  shut : st.log.fd index = -1 →
    LogWithin st.files (st.path index) st.number.toNat st.size
  open' : st.log.fd index ≠ -1 →
    LogWithin st.files (st.path index) st.number.toNat (st.size + logBufferSize)

section Files

variable {files files' : LogFiles} {path : List UInt8} {n : Nat} {bound : Int}

theorem LogWithin.bytes_le (within : LogWithin files path n bound) :
    (logBytes files path : Int) ≤ bound + logBufferSize := by
  rcases within with low | ⟨-, low⟩
  · exact Int.le_trans low (Int.le_add_of_nonneg_right (Int.natCast_nonneg _))
  · exact low

theorem LogWithin.congr (within : LogWithin files path n bound)
    (same : ∀ a, LogName path a → files'.content a = files.content a) :
    LogWithin files' path n bound := by
  have bytes : logBytes files' path = logBytes files path := by
    unfold logBytes logContent
    rw [same path (.inl rfl)]
  unfold LogWithin
  rw [bytes]
  rcases within with low | ⟨⟨i, below, free⟩, low⟩
  · exact .inl low
  · exact .inr ⟨⟨i, below, (same _ (.inr ⟨i, rfl⟩)).trans free⟩, low⟩

/-- A line that is written to the log file. -/
theorem LogWithin.logged {ls : List LogLine} (within : LogWithin files path n bound)
    (content : files'.content path = some (logContent files path ++ ls))
    (others : ∀ a, a ≠ path → files'.content a = files.content a)
    (length : ls.flatten.length ≤ logBufferSize) :
    LogWithin files' path n (bound + logBufferSize) := by
  have bytes : logBytes files' path = logBytes files path + ls.flatten.length := by
    unfold logBytes
    have content' : logContent files' path = logContent files path ++ ls := by
      have content' : (files'.content path).getD [] = logContent files path ++ ls := by
        rw [content, Option.getD_some]
      exact content'
    rw [content', List.flatten_append, List.length_append]
  unfold LogWithin
  rw [bytes]
  rcases within with low | ⟨⟨i, below, free⟩, low⟩
  · exact .inl (by omega)
  · exact .inr ⟨⟨i, below, (others _ (rotatedPath_ne path i)).trans free⟩, by omega⟩

end Files

section Step

variable {st st' : LogState} {c : LogCall} {index : LogLevel} {files : LogFiles}
  {line : Option LogLine} {ret : Int}

theorem LogState.Small.bytes_le (small : st.Small index) :
    (logBytes st.files (st.path index) : Int) ≤ st.size + 2 * logBufferSize := by
  by_cases shut : st.log.fd index = -1
  case pos =>
    have := (small.shut shut).bytes_le
    omega
  case neg =>
    have := (small.open' shut).bytes_le
    omega

/-- A line, or a part of it, is no longer than the buffer. -/
theorem LogCall.Fits.length_le (fits : c.Fits)
    (eq : line = (c.write.map fun n => c.line.take n)) :
    line.toList.flatten.length ≤ logBufferSize := by
  cases written : c.write with
  | none =>
      rw [eq, written, Option.map_none, Option.toList_none]
      exact Nat.zero_le _
  | some n =>
      rw [eq, written, Option.map_some, Option.toList_some, List.flatten_singleton]
      exact Nat.le_trans (List.length_take_le' n c.line) fits

/-- Rotation brings the log file back to the limit, or frees a number for it. -/
theorem LogState.Small.turn (small : st.Small (st.index c.level)) (known : c.fstat = true)
    (turns : st.Turns c (st.index c.level) ret files) :
    LogWithin files (st.path (st.index c.level)) st.number.toNat st.size := by
  cases turns with
  | closed shut => exact small.shut shut
  | unknown unknown => cases unknown.symm.trans known
  | small open' low =>
      refine .inl ?_
      have content := logContent_eq (small.opens open')
      exact Int.not_lt.mp fun large => low ⟨_, content, large⟩
  | moved i _ _ _ _ _ renamed =>
      refine .inl ?_
      have gone := (Files.rename_eq_some renamed (rotatedPath_ne _ i).symm).2.1
      unfold logBytes logContent
      rw [gone]
      exact small.size
  | shifted open' _ all shifted =>
      have many := small.number
      have apart : ∀ i ≤ st.number.toNat - 1, st.path (st.index c.level) ≠
          rotatedPath (st.path (st.index c.level)) i := fun i _ => (rotatedPath_ne _ i).symm
      refine .inr ⟨?_, ?_⟩
      · refine ⟨st.number.toNat - 1, by omega, ?_⟩
        rw [shifted.top, if_neg (by omega)]
      · have bytes : logBytes files (st.path (st.index c.level)) =
            logBytes st.files (st.path (st.index c.level)) := by
          unfold logBytes logContent
          rw [shifted.others _ apart]
        rw [bytes]
        rcases small.open' open' with low | ⟨⟨i, below, free⟩, -⟩
        · exact low
        · have there := all i below
          rw [free] at there
          cases there

/-- One call keeps the log file small. -/
theorem LogState.Small.write (small : st.Small index) (place : st.index c.level = index)
    (fits : c.Fits) (known : c.fstat = true) (renames : ∀ a b, c.rename a b)
    (whole : ¬ st.CutsNameIn c) :
    ∃ st' line, st.write c = some (st', line) ∧ st.SameConf st' ∧ st'.Small index := by
  subst place
  by_cases above : st.log.level < c.level.toInt
  case pos => exact ⟨st, none, LogState.write_idle (.inl above), .refl st, small⟩
  case neg =>
    have turns := LogState.turns small.opens (Int.lt_trans Int.zero_lt_one small.number) renames
      fun cuts => whole ⟨Int.not_lt.mp above, cuts⟩
    have within := small.turn known turns
    obtain ⟨st', line, wrote, same, outcome⟩ :=
      LogState.write_cases (turns.opens small.opens) fits
    refine ⟨st', line, wrote, same, ?_⟩
    have number : 1 < st'.number := same.number ▸ small.number
    have size : 0 ≤ st'.size := same.size ▸ small.size
    cases outcome with
    | idle _ => exact small
    | unopened _ _ unopened =>
        refine ⟨number, size, fun open' => absurd unopened.shut open', fun _ => ?_,
          fun open' => absurd unopened.shut open'⟩
        rw [same.path, same.number, same.size]
        exact within.congr fun a _ => unopened.content a
    | logged _ eq logged =>
        refine ⟨number, size, fun _ => ?_, fun shut => absurd shut logged.open', fun _ => ?_⟩
        · rw [same.path]
          exact logged.opens
        · rw [same.path, same.number, same.size]
          exact within.logged logged.content logged.others (fits.length_le eq)

/-- A call of another level leaves it small. -/
theorem LogState.Small.congr (small : st.Small index) (same : st.SameConf st')
    (opens : st'.OpenOn index) (fd : st'.log.fd index = st.log.fd index)
    (content : ∀ a, LogName (st.path index) a → st'.files.content a = st.files.content a) :
    st'.Small index := by
  refine
    { number := same.number ▸ small.number
      size := same.size ▸ small.size
      opens := opens
      shut := fun shut => ?_
      open' := fun open' => ?_ }
  · rw [same.path, same.number, same.size]
    exact (small.shut (fd ▸ shut)).congr content
  · rw [same.path, same.number, same.size]
    exact (small.open' (fd ▸ open')).congr content

/-- Calls of any level keep the log file of a level small. -/
theorem LogState.Small.writeAll {calls : List LogCall} (lv : LogLevel) (levels : st.Levels)
    (small : st.Small (st.index lv)) (fits : ∀ c ∈ calls, c.Fits)
    (known : ∀ c ∈ calls, c.fstat = true) (renames : ∀ c ∈ calls, ∀ a b, c.rename a b)
    (whole : st.Uncut calls) (unused : st.Unused calls) :
    ∃ st' lines, st.writeAll calls = some (st', lines) ∧ st.SameConf st' ∧
      st'.Small (st.index lv) := by
  induction calls generalizing st with
  | nil => exact ⟨st, [], rfl, .refl st, small⟩
  | cons c cs ih =>
      obtain ⟨st₁, line, wrote, same, levels₁, others⟩ :=
        levels.write (fits c List.mem_cons_self) (renames c List.mem_cons_self) whole.1 unused.1
      have small₁ : st₁.Small (st.index lv) := by
        by_cases place : st.index c.level = st.index lv
        case pos =>
          obtain ⟨_, _, wrote', -, small₁⟩ :=
            small.write place (fits c List.mem_cons_self) (known c List.mem_cons_self)
              (renames c List.mem_cons_self) whole.1
          cases wrote.symm.trans wrote'
          exact small₁
        case neg =>
          obtain ⟨fd, content⟩ := others lv fun same => place same.symm
          exact small.congr same (same.index_eq lv ▸ levels₁.opens lv) fd content
      rw [← same.index_eq lv] at small₁
      obtain ⟨st₂, lines, rest, same', small₂⟩ := ih levels₁ small₁
        (fun d mem => fits d (List.mem_cons_of_mem c mem))
        (fun d mem => known d (List.mem_cons_of_mem c mem))
        (fun d mem => renames d (List.mem_cons_of_mem c mem)) (whole.2 st₁ line wrote)
        (unused.2 st₁ line wrote)
      rw [same.index_eq lv] at small₂
      exact ⟨st₂, line.toList ++ lines, LogState.writeAll_cons wrote rest, same.trans same',
        small₂⟩

end Step

/-- With two numbers or more, and a log file that is small when the log is set up, the log file
is never more than two lines above the limit, whatever is written to the files of other levels, as
long as no name of a file is cut off. -/
theorem log_size_bounded (st₀ st : LogState) (dir filename : List UInt8) (level size n : Int)
    (multi access mmap : Bool) (lv : LogLevel) (calls : List LogCall)
    (accepted : logInit st₀ dir filename level size n multi access mmap = some (0, st))
    (many : 1 < n) (start : LogWithin st.files (st.path (st.index lv)) n.toNat size)
    (fits : ∀ c ∈ calls, c.Fits) (known : ∀ c ∈ calls, c.fstat = true)
    (renames : ∀ c ∈ calls, ∀ a b, c.rename a b) (whole : st.Uncut calls)
    (unused : st.Unused calls) :
    ∃ st' lines, st.writeAll calls = some (st', lines) ∧
      (logBytes st'.files (st.path (st.index lv)) : Int) ≤ size + 2 * logBufferSize := by
  obtain ⟨low, size', number, -, -, shut, -⟩ := logInit_accepted accepted
  have small : st.Small (st.index lv) :=
    { number := number.symm ▸ many
      size := size'.symm ▸ low
      opens := fun open' => absurd (shut lv) open'
      shut := fun _ => by rwa [number, size']
      open' := fun open' => absurd (shut lv) open' }
  obtain ⟨st', lines, ran, same, small'⟩ :=
    small.writeAll lv (levels_of_logInit accepted) fits known renames whole unused
  refine ⟨st', lines, ran, ?_⟩
  have bound := small'.bytes_le
  rwa [same.path, same.size, size'] at bound

/-- A log in `/tmp` with a file for every level, of 20 bytes and two numbers each. -/
def tmpLevels : LogState where
  log :=
    { buffer := some .zero
      level := 4
      multi := true
      fd := fun _ => -1 }
  hasInit := true
  size := 20
  number := 2
  path := logFilePath (asciiBytes "/tmp") (asciiBytes "log") true
  files := .empty

/-- A short line of a level, whose file has a descriptor of its own. -/
def levelCall (level : LogLevel) : LogCall :=
  { shortCall with
    level := level
    openFile := some (3 + level.toInt.toNat) }

/-- Errors and notices, in turn. -/
def levelCalls : List LogCall :=
  (List.replicate 9 [levelCall .error, levelCall .notice]).flatten

theorem levelCall_of_mem {c : LogCall} (mem : c ∈ levelCalls) : ∃ level, c = levelCall level := by
  obtain ⟨pair, mem, inside⟩ := List.mem_flatten.mp mem
  rw [List.eq_of_mem_replicate mem, List.mem_pair] at inside
  rcases inside with rfl | rfl
  · exact ⟨.error, rfl⟩
  · exact ⟨.notice, rfl⟩

theorem log_size_bounded_two :
    ∃ st' lines, tmpLevels.writeAll levelCalls = some (st', lines) ∧
      (logBytes st'.files (tmpLevels.path .error) : Int) ≤ 20 + 2 * logBufferSize := by
  have own : Function.Injective fun level : LogLevel => 3 + level.toInt.toNat := by
    intro level level' same
    cases level with
    | fatal | error | warning | notice | debug =>
        cases level' with
        | fatal | error | warning | notice | debug =>
            first
            | rfl
            | exact absurd same (by decide)
  have uncut : tmpLevels.Uncut levelCalls := by
    refine LogState.uncut_of_short _ fun level => ?_
    cases level with
    | fatal | error | warning | notice | debug => decide
  have unused : tmpLevels.Unused levelCalls := by
    refine LogState.unused_of_own own (fun c mem fd found => ?_) rfl fun _ => .inl rfl
    obtain ⟨level, rfl⟩ := levelCall_of_mem mem
    exact (Option.some.inj found).symm
  refine log_size_bounded (.initial .empty) tmpLevels (asciiBytes "/tmp") (asciiBytes "log") 4 20 2
    true true true .error levelCalls rfl (by decide) (.inl (Int.natCast_nonneg 20))
    (fun c mem => ?_) (fun c mem => ?_) (fun c mem => ?_) uncut unused
  · obtain ⟨level, rfl⟩ := levelCall_of_mem mem
    cases level with
    | fatal | error | warning | notice | debug =>
        unfold LogCall.Fits
        decide
  · obtain ⟨level, rfl⟩ := levelCall_of_mem mem
    rfl
  · obtain ⟨level, rfl⟩ := levelCall_of_mem mem
    exact fun _ _ => rfl

/-! ## One number -/

/-- A log in `/tmp`, set up from scratch. -/
def tmpLog (size n : Int) : LogState where
  log :=
    { buffer := some .zero
      level := 4
      multi := false
      fd := Function.update (fun _ => 0) .fatal (-1) }
  hasInit := true
  size := size
  number := n
  path := Function.update (fun _ => []) .fatal (logFilePath (asciiBytes "/tmp")
    (asciiBytes "log") false .fatal)
  files := .empty

theorem tmpLog_accepted {size n : Int} (low : 0 ≤ size) (high : size ≤ logMaxSize)
    (some' : 0 < n) (few : n ≤ logMaxNumber) :
    logInit (.initial .empty) (asciiBytes "/tmp") (asciiBytes "log") 4 size n false true true =
      some (0, tmpLog size n) := by
  unfold logInit
  rw [if_neg (not_not.mpr ⟨by decide, by decide, low, high, some', few⟩), if_neg (by decide),
    if_neg (by decide)]
  rfl

/-- The only number is taken, and the log file is open. -/
structure LogState.Stuck (st : LogState) (index : LogLevel) : Prop where
  number : st.number = 1
  open' : st.log.fd index ≠ -1
  opens : st.files.Opens (st.log.fd index) (st.path index)
  taken : (st.files.content (rotatedPath (st.path index) 0)).isSome
  short : (rotatedPath (st.path index) 0).length < logPathMax

section Stuck

variable {st : LogState} {c : LogCall} {index : LogLevel}

theorem LogState.Stuck.turn (stuck : st.Stuck (st.index c.level)) (obeyed : c.Obeyed) :
    (st.rotate c).1 = -1 ∧ (∀ a, (st.rotate c).2.content a = st.files.content a) ∧
      (st.rotate c).2.Opens (st.log.fd (st.index c.level)) (st.path (st.index c.level)) := by
  have number : st.number.toNat = 1 := by rw [stuck.number]; rfl
  have turns := @LogState.turns st c (fun _ => stuck.opens) (by rw [stuck.number]; decide)
    obeyed.renames fun cuts => cuts.2.2 fun i low _ => by
      have zero : i = 0 := by omega
      rw [zero]
      exact stuck.short
  rcases rotated : st.rotate c with ⟨ret, files⟩
  rw [rotated] at turns
  dsimp only at turns ⊢
  cases turns with
  | closed shut => exact absurd shut stuck.open'
  | unknown unknown => cases unknown.symm.trans obeyed.fstat
  | small => exact ⟨rfl, fun _ => rfl, stuck.opens⟩
  | moved i _ _ low _ free =>
      have zero : i = 0 := by omega
      rw [zero] at free
      have taken := stuck.taken
      rw [free] at taken
      cases taken
  | shifted _ _ _ shifted =>
      rw [number] at shifted
      refine ⟨rfl, fun a => ?_, shifted.opens _ _ (fun i _ => (rotatedPath_ne _ i).symm)
        stuck.opens⟩
      by_cases named : a = rotatedPath (st.path (st.index c.level)) 0
      case pos => rw [named, shifted.top, if_pos rfl]
      case neg =>
        refine shifted.others a fun i low => ?_
        have zero : i = 0 := by omega
        rw [zero]
        exact named

/-- When the only number is taken, each call adds its line to the log file. -/
theorem LogState.Stuck.write (stuck : st.Stuck index) (place : st.index c.level = index)
    (obeyed : c.Obeyed) (logged : c.level.toInt ≤ st.log.level) :
    ∃ st', st.write c = some (st', some c.line) ∧ st.SameConf st' ∧ st'.Stuck index ∧
      logBytes st'.files (st.path index) = logBytes st.files (st.path index) + c.line.length := by
  subst place
  obtain ⟨ret, same, opens⟩ := stuck.turn obeyed
  obtain ⟨st', wrote, conf, after⟩ := obeyed.write logged fun _ _ => opens
  refine ⟨st', wrote, conf, ?_, ?_⟩
  · refine ⟨conf.number.trans stuck.number, after.open', ?_, ?_, ?_⟩
    · rw [conf.path]
      exact after.opens
    · rw [conf.path, after.others _ (rotatedPath_ne _ 0), same]
      exact stuck.taken
    · rw [conf.path]
      exact stuck.short
  · have content := after.content
    unfold logBytes logContent at content ⊢
    rw [content, same, Option.getD_some, List.flatten_append, List.length_append,
      Option.toList_some, List.flatten_singleton]

end Stuck

/-- A notice that fills the buffer. -/
def fullCall : LogCall := { shortCall with text := List.replicate 4058 97 }

theorem length_fullCall : fullCall.line.length = logBufferSize := by
  have before : (logPrefix (fullCall.env 0) fullCall.level).length = 37 := by decide
  have text : fullCall.text.length = 4058 := List.length_replicate
  unfold LogCall.line
  rw [List.length_append, List.length_append, before, text]
  rfl

theorem fullCall_obeyed : fullCall.Obeyed where
  fits := Nat.le_of_eq length_fullCall
  mmap := rfl
  fstat := rfl
  renames := fun _ _ => rfl
  opened := rfl
  written := congrArg some (List.take_of_length_le (Nat.le_of_eq length_fullCall))

/-- The second call takes the only number. -/
theorem stuck_of_fullCall {st : LogState} (same : (tmpLog 0 1).SameConf st)
    (logged : (tmpLog 0 1).Logged st .fatal .empty (some fullCall.line)) :
    ∃ st', st.write fullCall = some (st', some fullCall.line) ∧ st.SameConf st' ∧
      st'.Stuck .fatal ∧ logBytes st'.files (st'.path .fatal) = logBufferSize := by
  have index := LogState.index_of_single same.multi fullCall.level
  have path : st.path .fatal = (tmpLog 0 1).path .fatal := congrFun same.path .fatal
  have number : st.number = 1 := same.number
  have opens : st.files.Opens (st.log.fd .fatal) (st.path .fatal) := path ▸ logged.opens
  have content : st.files.content (st.path .fatal) = some [fullCall.line] :=
    path ▸ logged.content
  have short : (rotatedPath (st.path .fatal) 0).length < logPathMax := by
    rw [path]
    decide
  have large : st.Over .fatal := by
    refine ⟨_, content, ?_⟩
    rw [List.flatten_singleton, length_fullCall, same.size]
    decide
  have whole : ¬ st.CutsName .fatal := by
    refine fun cuts => cuts.2.2 fun i low _ => ?_
    rw [number] at low
    have zero : i = 0 := Nat.lt_one_iff.mp low
    rw [zero]
    exact short
  have free : st.files.content (rotatedPath (st.path .fatal) 0) = none := by
    rw [logged.others _ (by rw [path]; exact rotatedPath_ne _ 0)]
    rfl
  obtain ⟨st', wrote, same', renamed⟩ := fullCall_obeyed.write_renamed
    (by rw [same.level]; decide) index logged.open' opens large whole
    (by rw [number]; decide) (fun j low => absurd low (Nat.not_lt_zero j)) free
  have path' : st'.path .fatal = st.path .fatal := congrFun same'.path .fatal
  refine ⟨st', wrote, same', ⟨same'.number.trans number, renamed.open', ?_, ?_, ?_⟩, ?_⟩
  · rw [path']
    exact renamed.opens
  · rw [path', renamed.named, content]
    rfl
  · rw [path']
    exact short
  · unfold logBytes logContent
    rw [path', renamed.content, Option.getD_some, List.flatten_singleton]
    exact length_fullCall

/-- One numbered file and a limit of 0 bytes, with four lines that fill the buffer: the log file
is 12288 bytes long. -/
theorem log_single_file_grows :
    ¬ ∀ (st₀ st : LogState) (dir filename : List UInt8) (level size n : Int)
      (multi access mmap : Bool) (lv : LogLevel) (calls : List LogCall),
      logInit st₀ dir filename level size n multi access mmap = some (0, st) →
      (∀ c ∈ calls, st.index c.level = st.index lv) → (∀ c ∈ calls, c.Fits) →
      (∀ c ∈ calls, ∀ a b, c.rename a b) →
      ∃ st' lines, st.writeAll calls = some (st', lines) ∧
        (logBytes st'.files (st.path (st.index lv)) : Int) ≤ size + 2 * logBufferSize := by
  intro bounded
  obtain ⟨st₁, wrote₁, same₁, logged₁⟩ := @LogCall.Obeyed.write (tmpLog 0 1) fullCall
    fullCall_obeyed (by decide) fun _ open' => absurd rfl open'
  obtain ⟨st₂, wrote₂, same₂, stuck₂, bytes₂⟩ := stuck_of_fullCall same₁ logged₁
  have place : ∀ {st : LogState}, st.log.multi = false → st.index fullCall.level = .fatal :=
    fun multi => LogState.index_of_single multi _
  have same := same₁.trans same₂
  have level : fullCall.level.toInt ≤ st₂.log.level := by
    rw [same.level]
    decide
  obtain ⟨st₃, wrote₃, same₃, stuck₃, bytes₃⟩ :=
    stuck₂.write (place same.multi) fullCall_obeyed level
  obtain ⟨st₄, wrote₄, same₄, -, bytes₄⟩ :=
    stuck₃.write (place (same.trans same₃).multi) fullCall_obeyed (by rw [same₃.level]; exact level)
  obtain ⟨st', lines, ran, bound⟩ := bounded (.initial .empty) (tmpLog 0 1) (asciiBytes "/tmp")
    (asciiBytes "log") 4 0 1 false true true .fatal (List.replicate 4 fullCall)
    (tmpLog_accepted (by decide) (by decide) (by decide) (by decide)) (fun _ _ => rfl)
    (fun c mem => by rw [List.eq_of_mem_replicate mem]; exact fullCall_obeyed.fits)
    (fun c mem => by rw [List.eq_of_mem_replicate mem]; exact fullCall_obeyed.renames)
  have done : st₄.writeAll [] = some (st₄, []) := rfl
  have run := LogState.writeAll_cons wrote₁ (LogState.writeAll_cons wrote₂
    (LogState.writeAll_cons wrote₃ (LogState.writeAll_cons wrote₄ done)))
  cases ran.symm.trans run
  rw [same₃.path, bytes₃, length_fullCall] at bytes₄
  rw [bytes₂] at bytes₄
  have path : st₂.path .fatal = (tmpLog 0 1).path .fatal := congrFun same.path .fatal
  rw [path] at bytes₄
  have big : (logBufferSize + logBufferSize + logBufferSize : Nat) ≤ 0 + 2 * logBufferSize := by
    have bound' : (logBytes st₄.files ((tmpLog 0 1).path .fatal) : Int) ≤
      0 + 2 * logBufferSize := bound
    omega
  exact absurd big (by decide)

end Verben
