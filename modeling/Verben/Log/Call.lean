import Verben.Log.Turn

/-!
# What a call of `log_write` leaves behind

A call that logs its line comes back with the line at the end of the log file, which is the
file that `log_rotate` left there, or a new one; or it could not open the file, and left it as
it was (`LogState.write_cases`).
-/

namespace Verben

section Write

variable {env : LogEnv} {log : Log} {level : LogLevel} {text : List UInt8}

/-- The descriptor behind `log_write`. -/
def logOpened (env : LogEnv) (log : Log) (index : LogLevel) : Int :=
  if logFd env log index = -1 then env.openFile else logFd env log index

theorem logOutput_eq {index : LogLevel} {buf : LogBuffer} {len : Int} {bytes : List UInt8}
    (loaded : buf.1.load 0 len = some bytes) :
    logOutput env log index buf len = some
      ⟨{ log with
          buffer := some buf
          fd := Function.update log.fd index (logOpened env log index) },
        if logFd env log index = -1 ∧ env.openFile < 0 then none else some bytes⟩ := by
  unfold logOutput logOpened
  rw [loaded]
  dsimp only
  by_cases unopened : logFd env log index = -1 ∧ env.openFile < 0
  case pos => rw [if_pos unopened, if_pos unopened]
  case neg =>
    rw [if_neg unopened, if_neg unopened]
    rfl

/-- A line that fits is written out, if its file can be opened. -/
theorem logWrite_of_fits (index : LogLevel) {buf : LogBuffer}
    (logged : ¬ log.level < level.toInt) (mapped : log.mapped env = some buf)
    (fits : (logPrefix env level).length + text.length < logBufferSize)
    (place : (if log.multi then level else .fatal) = index) :
    ∃ buf', logWrite env log level text = some
      ⟨{ log with
          buffer := some buf'
          fd := Function.update log.fd index (logOpened env log index) },
        if logFd env log index = -1 ∧ env.openFile < 0 then none
        else some (logPrefix env level ++ text ++ [10])⟩ := by
  obtain ⟨buf', line, starts⟩ := logLine_of_fits buf fits
  refine ⟨buf', ?_⟩
  unfold Log.mapped at mapped
  unfold logWrite
  rw [if_neg logged, mapped]
  simp only [line, Option.bind_eq_bind, Option.bind_some, place]
  exact logOutput_eq starts.load_all

end Write

/-! ## The files -/

section Store

variable {path : List UInt8} {old now opened fd : Int} {files : LogFiles}

/-- What the log file holds. -/
def logContent (files : LogFiles) (path : List UInt8) : List LogLine :=
  (files.content path).getD []

theorem logContent_eq (opens : files.Opens fd path) :
    files.content path = some (logContent files path) := by
  obtain ⟨f, -, named⟩ := opens
  unfold logContent Files.content
  rw [named]
  rfl

/-- A file that is closed keeps its name, and what is in it. -/
theorem content_closed (a : List UInt8) :
    (if now ≠ old then files.close old else files).content a = files.content a := by
  split
  · rfl
  · rfl

theorem replaced_closed :
    (if now ≠ old then files.close old else files).replaced = files.replaced := by
  split
  · rfl
  · rfl

/-- If the log file could not be opened, nothing changes. -/
theorem logReady_shut (shut : ¬ (now = -1 ∧ 0 ≤ opened)) :
    (∀ a, (logReady path old now opened files).content a = files.content a) ∧
      (logReady path old now opened files).replaced = files.replaced := by
  unfold logReady
  dsimp only
  rw [if_neg shut]
  exact ⟨content_closed, replaced_closed⟩

/-- Otherwise it is open, with what was in it, and the other files stay as they are. -/
structure LogReady (path : List UInt8) (fd : Int) (files ready : LogFiles) : Prop where
  opens : ready.Opens fd path
  content : logContent ready path = logContent files path
  others : ∀ a, a ≠ path → ready.content a = files.content a
  replaced : ready.replaced = files.replaced

theorem logReady_open (stays : now ≠ -1 → now = old ∧ opened = old ∧ files.Opens old path)
    (opens : now = -1 → 0 ≤ opened) :
    LogReady path opened files (logReady path old now opened files) := by
  unfold logReady
  dsimp only
  by_cases shut : now = -1
  case pos =>
    rw [if_pos ⟨shut, opens shut⟩]
    refine
      { opens := Files.opens_openAt
        content := ?_
        others := fun a other => ?_
        replaced := ?_ }
    · unfold logContent
      rw [Files.content_openAt_self, Option.getD_some, content_closed]
    · rw [Files.content_openAt_of_ne other, content_closed]
    · rw [Files.replaced_openAt, replaced_closed]
  case neg =>
    obtain ⟨same, opened', on⟩ := stays shut
    rw [if_neg fun both => shut both.1, if_neg (not_not.mpr same)]
    exact ⟨opened' ▸ on, rfl, fun _ _ => rfl, rfl⟩

/-- The line goes to the end of the open file. -/
theorem logAppend_spec {ready : LogFiles} (open' : LogReady path fd files ready)
    (line : Option LogLine) :
    (logAppend fd line ready).Opens fd path ∧
      (logAppend fd line ready).content path = some (logContent files path ++ line.toList) ∧
      (∀ a, a ≠ path → (logAppend fd line ready).content a = files.content a) ∧
      (logAppend fd line ready).replaced = files.replaced := by
  have content := logContent_eq open'.opens
  rw [open'.content] at content
  cases line with
  | none =>
      unfold logAppend
      dsimp only
      rw [Option.toList_none, List.append_nil]
      exact ⟨open'.opens, content, open'.others, open'.replaced⟩
  | some l =>
      unfold logAppend
      dsimp only
      refine ⟨open'.opens.append, ?_, fun a other => ?_, ?_⟩
      · rw [Files.content_append_self open'.opens, content]
        rfl
      · rw [Files.content_append_of_ne open'.opens other, open'.others a other]
      · rw [Files.replaced_append, open'.replaced]

end Store

/-! ## A call -/

/-- The line of a call. -/
def LogCall.line (c : LogCall) : LogLine := logPrefix (c.env 0) c.level ++ c.text ++ [10]

/-- The line fits into the buffer. -/
def LogCall.Fits (c : LogCall) : Prop := c.line.length ≤ logBufferSize

/-- What no call changes. -/
structure LogState.SameConf (st st' : LogState) : Prop where
  size : st'.size = st.size
  number : st'.number = st.number
  path : st'.path = st.path
  level : st'.log.level = st.log.level
  multi : st'.log.multi = st.log.multi

/-- The state behind a call that put its line into the log file, where `log_rotate` left these
files. -/
structure LogState.Logged (st st' : LogState) (index : LogLevel) (files : LogFiles)
    (line : Option LogLine) : Prop where
  open' : st'.log.fd index ≠ -1
  opens : st'.files.Opens (st'.log.fd index) (st.path index)
  content : st'.files.content (st.path index) =
    some (logContent files (st.path index) ++ line.toList)
  others : ∀ a, a ≠ st.path index → st'.files.content a = files.content a
  replaced : st'.files.replaced = files.replaced

/-- The state behind a call that could not open the log file. -/
structure LogState.Unopened (st st' : LogState) (index : LogLevel) (files : LogFiles) :
    Prop where
  shut : st'.log.fd index = -1
  content : ∀ a, st'.files.content a = files.content a
  replaced : st'.files.replaced = files.replaced

section Call

variable {st : LogState} {c : LogCall}

theorem LogCall.openFile_of_neg {ret : Int} (failed : (c.env ret).openFile < 0) :
    (c.env ret).openFile = -1 := by
  unfold LogCall.env at failed ⊢
  dsimp only at failed ⊢
  cases opened : c.openFile with
  | none => rfl
  | some fd =>
      rw [opened] at failed
      exact absurd failed (Int.not_lt.mpr (Int.natCast_nonneg fd))

theorem LogCall.Fits.room (fits : c.Fits) (ret : Int) :
    (logPrefix (c.env ret) c.level).length + c.text.length < logBufferSize := by
  have length : c.line.length = (logPrefix (c.env ret) c.level ++ c.text ++ [10]).length := rfl
  unfold LogCall.Fits at fits
  rw [length, List.length_append, List.length_append, List.length_singleton] at fits
  exact fits

/-- The descriptor of the log file behind `log_rotate`. -/
def LogState.now (st : LogState) (c : LogCall) : Int :=
  logFd (c.env (st.rotate c).1) st.log (st.index c.level)

/-- The descriptor of the log file in front of `write`. -/
def LogState.opened (st : LogState) (c : LogCall) : Int :=
  logOpened (c.env (st.rotate c).1) st.log (st.index c.level)

/-- `open` was called, and failed. -/
def LogState.Fails (st : LogState) (c : LogCall) : Prop :=
  st.now c = -1 ∧ (c.env (st.rotate c).1).openFile < 0

/-- The outcomes of a call: the line is not logged at all, or the file could not be opened, or
the line, or the part of it that could be written, is in the file. -/
inductive LogState.Wrote (st : LogState) (c : LogCall) (index : LogLevel) :
    LogState → Option LogLine → Prop
  | idle : (st.log.level < c.level.toInt ∨ st.log.mapped (c.env (st.rotate c).1) = none) →
      st.Wrote c index st none
  | unopened {st' : LogState} : st.Fails c →
      ((st.rotate c).1 = 0 ∨ st.log.fd index = -1) →
      st.Unopened st' index (st.rotate c).2 → st.Wrote c index st' none
  | logged {st' : LogState} {line : Option LogLine} : ¬ st.Fails c →
      line = (c.write.map fun n => c.line.take n) →
      st.Logged st' index (st.rotate c).2 line → st.Wrote c index st' line

/-- A descriptor that is closed was so before, or its file was rotated. -/
theorem LogState.now_eq_neg_one (shut : st.now c = -1) :
    (st.rotate c).1 = 0 ∨ st.log.fd (st.index c.level) = -1 := by
  unfold LogState.now logFd at shut
  split at shut
  · next rotated => exact .inl rotated.2
  · exact .inr shut

theorem LogState.now_ne_neg_one (open' : st.now c ≠ -1) :
    st.now c = st.log.fd (st.index c.level) ∧ (st.rotate c).1 ≠ 0 ∧
      st.log.fd (st.index c.level) ≠ -1 := by
  unfold LogState.now logFd at open' ⊢
  split at open'
  · exact absurd rfl open'
  · next kept =>
      rw [if_neg kept]
      exact ⟨rfl, fun zero => kept ⟨open', zero⟩, open'⟩

theorem LogState.opened_eq (st : LogState) (c : LogCall) :
    st.opened c =
      if st.now c = -1 then (c.env (st.rotate c).1).openFile else st.now c := rfl

theorem LogState.Fails.opened (fails : st.Fails c) : st.opened c = -1 := by
  rw [LogState.opened_eq, if_pos fails.1]
  exact LogCall.openFile_of_neg fails.2

/-- A call that could not open the log file. -/
theorem LogState.Fails.unopened (fails : st.Fails c) {st' : LogState}
    (fd : st'.log.fd (st.index c.level) = st.opened c)
    (files : st'.files = logReady (st.path (st.index c.level)) (st.log.fd (st.index c.level))
      (st.now c) (st.opened c) (st.rotate c).2) :
    st.Unopened st' (st.index c.level) (st.rotate c).2 := by
  have shut : ¬ (st.now c = -1 ∧ 0 ≤ st.opened c) := by
    rw [fails.opened]
    rintro ⟨-, low⟩
    exact absurd low (by decide)
  obtain ⟨content, replaced⟩ := logReady_shut shut
  exact ⟨fd.trans fails.opened, fun a => by rw [files, content a], by rw [files, replaced]⟩

/-- A call that wrote to the log file. A file that `log_rotate` leaves open has to be open under
its name. -/
theorem LogState.logged_of_opened (fails : ¬ st.Fails c)
    (stays : (st.rotate c).1 ≠ 0 → st.log.fd (st.index c.level) ≠ -1 →
      (st.rotate c).2.Opens (st.log.fd (st.index c.level)) (st.path (st.index c.level)))
    {st' : LogState} {line : Option LogLine}
    (fd : st'.log.fd (st.index c.level) = st.opened c)
    (files : st'.files = logAppend (st.opened c) line (logReady (st.path (st.index c.level))
      (st.log.fd (st.index c.level)) (st.now c) (st.opened c) (st.rotate c).2)) :
    st.Logged st' (st.index c.level) (st.rotate c).2 line := by
  have kept : st.now c ≠ -1 → st.now c = st.log.fd (st.index c.level) ∧
      st.opened c = st.log.fd (st.index c.level) ∧
      (st.rotate c).2.Opens (st.log.fd (st.index c.level)) (st.path (st.index c.level)) := by
    intro open'
    obtain ⟨same, ret, there⟩ := LogState.now_ne_neg_one open'
    refine ⟨same, ?_, stays ret there⟩
    rw [LogState.opened_eq, if_neg open']
    exact same
  have opens : st.now c = -1 → 0 ≤ st.opened c := by
    intro shut
    rw [LogState.opened_eq, if_pos shut]
    exact Int.not_lt.mp fun low => fails ⟨shut, low⟩
  obtain ⟨opens', content, others, replaced⟩ := logAppend_spec (logReady_open kept opens) line
  refine ⟨?_, ?_, ?_, fun a other => ?_, ?_⟩
  · rw [fd]
    by_cases shut : st.now c = -1
    case pos =>
      have := opens shut
      omega
    case neg =>
      rw [(kept shut).2.1]
      exact (LogState.now_ne_neg_one shut).2.2
  · rw [fd, files]
    exact opens'
  · rw [files, content]
  · rw [files, others a other]
  · rw [files, replaced]

/-- A call that logs nothing. -/
theorem LogState.write_idle
    (idle : st.log.level < c.level.toInt ∨ st.log.mapped (c.env (st.rotate c).1) = none) :
    st.write c = some (st, none) := by
  have wrote : logWrite (c.env (st.rotate c).1) st.log c.level c.text = some ⟨st.log, none⟩ := by
    rcases idle with above | unmapped
    · exact logWrite_of_above above
    · exact logWrite_of_unmapped unmapped
  have idle' : st.log.level < c.level.toInt ∨
      (st.log.mapped (c.env (st.rotate c).1)).isNone := by
    rcases idle with above | unmapped
    · exact .inl above
    · exact .inr (by rw [unmapped]; rfl)
  unfold LogState.write
  simp only [wrote, Option.bind_eq_bind, Option.bind_some, idle', if_true]

theorem LogState.SameConf.refl (st : LogState) : st.SameConf st := ⟨rfl, rfl, rfl, rfl, rfl⟩

/-- A call whose line fits comes back, with one of the outcomes. A log file that `log_rotate`
leaves open has to be open under its name. -/
theorem LogState.write_cases
    (stays : (st.rotate c).1 ≠ 0 → st.log.fd (st.index c.level) ≠ -1 →
      (st.rotate c).2.Opens (st.log.fd (st.index c.level)) (st.path (st.index c.level)))
    (fits : c.Fits) :
    ∃ st' line, st.write c = some (st', line) ∧ st.SameConf st' ∧
      st.Wrote c (st.index c.level) st' line := by
  by_cases above : st.log.level < c.level.toInt
  case pos => exact ⟨st, none, LogState.write_idle (.inl above), .refl st, .idle (.inl above)⟩
  case neg =>
    cases mapped : st.log.mapped (c.env (st.rotate c).1) with
    | none => exact ⟨st, none, LogState.write_idle (.inr mapped), .refl st, .idle (.inr mapped)⟩
    | some buf =>
        have idle : ¬ (st.log.level < c.level.toInt ∨
            (st.log.mapped (c.env (st.rotate c).1)).isNone) := by
          rintro (above' | unmapped)
          · exact above above'
          · rw [mapped] at unmapped
            cases unmapped
        obtain ⟨buf', wrote⟩ :=
          logWrite_of_fits (st.index c.level) above mapped (fits.room _) rfl
        unfold LogState.write
        simp only [wrote, Option.bind_eq_bind, Option.bind_some, idle, if_false]
        refine ⟨_, _, rfl, ⟨rfl, rfl, rfl, rfl, rfl⟩, ?_⟩
        by_cases fails : logFd (c.env (st.rotate c).1) st.log (st.index c.level) = -1 ∧
            (c.env (st.rotate c).1).openFile < 0
        case pos =>
          rw [if_pos fails, Option.bind_none]
          refine .unopened fails (LogState.now_eq_neg_one fails.1)
            (LogState.Fails.unopened fails (Function.update_self ..) ?_)
          dsimp only
          rw [Function.update_self]
          rfl
        case neg =>
          rw [if_neg fails, Option.bind_some]
          refine .logged fails rfl
            (LogState.logged_of_opened fails stays (Function.update_self ..) ?_)
          dsimp only
          rw [Function.update_self]
          rfl

/-- The line fits, and the system does all that the call asks for. -/
structure LogCall.Obeyed (c : LogCall) : Prop where
  fits : c.Fits
  mmap : c.mmap = true
  fstat : c.fstat = true
  renames : ∀ a b, c.rename a b
  opened : c.openFile.isSome
  written : (c.write.map fun n => c.line.take n) = some c.line

/-- Then the line goes into the log file, if its level is logged. -/
theorem LogCall.Obeyed.write (obeyed : c.Obeyed) (logged : c.level.toInt ≤ st.log.level)
    (stays : (st.rotate c).1 ≠ 0 → st.log.fd (st.index c.level) ≠ -1 →
      (st.rotate c).2.Opens (st.log.fd (st.index c.level)) (st.path (st.index c.level))) :
    ∃ st', st.write c = some (st', some c.line) ∧ st.SameConf st' ∧
      st.Logged st' (st.index c.level) (st.rotate c).2 (some c.line) := by
  obtain ⟨st', line, wrote, same, outcome⟩ := LogState.write_cases stays obeyed.fits
  cases outcome with
  | idle idle =>
      rcases idle with above | unmapped
      · exact absurd logged (Int.not_le.mpr above)
      · have mmap := (Log.mapped_eq_none_iff.mp unmapped).2
        cases mmap.symm.trans obeyed.mmap
  | unopened fails =>
      obtain ⟨fd, opened⟩ := Option.isSome_iff_exists.mp obeyed.opened
      have low := fails.2
      unfold LogCall.env at low
      rw [opened] at low
      exact absurd low (Int.not_lt.mpr (Int.natCast_nonneg fd))
  | logged _ eq logged =>
      rw [obeyed.written] at eq
      subst eq
      exact ⟨st', wrote, same, logged⟩

/-- The state behind a call that gave the log file a number, and began a new one. -/
structure LogState.Renamed (st st' : LogState) (index : LogLevel) (k : Nat) (line : LogLine) :
    Prop where
  open' : st'.log.fd index ≠ -1
  opens : st'.files.Opens (st'.log.fd index) (st.path index)
  content : st'.files.content (st.path index) = some [line]
  named : st'.files.content (rotatedPath (st.path index) k) = st.files.content (st.path index)
  others : ∀ a, a ≠ st.path index → a ≠ rotatedPath (st.path index) k →
    st'.files.content a = st.files.content a

/-- A log file over the limit gets the first number that is free. -/
theorem LogCall.Obeyed.write_renamed {index : LogLevel} {k : Nat} (obeyed : c.Obeyed)
    (logged : c.level.toInt ≤ st.log.level) (place : st.index c.level = index)
    (open' : st.log.fd index ≠ -1) (opens : st.files.Opens (st.log.fd index) (st.path index))
    (over' : st.Over index) (whole : ¬ st.CutsName index) (low : k < st.number.toNat)
    (before : ∀ j < k, (st.files.content (rotatedPath (st.path index) j)).isSome)
    (free : st.files.content (rotatedPath (st.path index) k) = none) :
    ∃ st', st.write c = some (st', some c.line) ∧ st.SameConf st' ∧
      st.Renamed st' index k c.line := by
  subst place
  have turns := LogState.turns (fun _ => opens) (by omega) obeyed.renames whole
  rcases rotated : st.rotate c with ⟨ret, files⟩
  rw [rotated] at turns
  dsimp only at turns
  cases turns with
  | closed shut => exact absurd shut open'
  | unknown unknown => cases unknown.symm.trans obeyed.fstat
  | small _ small => exact absurd over' small
  | shifted _ _ all =>
      have there := all k low
      rw [free] at there
      cases there
  | moved i _ _ _ before' free' renamed =>
      have first : i = k := by
        rcases Nat.lt_trichotomy i k with less | same | greater
        · have there := before i less
          rw [free'] at there
          cases there
        · exact same
        · have there := before' k greater
          rw [free] at there
          cases there
      subst first
      obtain ⟨named, gone, others, -, -⟩ :=
        Files.rename_eq_some renamed (rotatedPath_ne _ i).symm
      obtain ⟨st', wrote, same, logged'⟩ :=
        obeyed.write logged fun ret => absurd (congrArg Prod.fst rotated) ret
      rw [rotated] at logged'
      refine ⟨st', wrote, same, logged'.open', logged'.opens, ?_, ?_, fun a other other' => ?_⟩
      · have content := logged'.content
        unfold logContent at content
        dsimp only at content
        rw [content, gone]
        rfl
      · rw [logged'.others _ (rotatedPath_ne _ i)]
        exact named
      · rw [logged'.others a other]
        exact others a other other'

end Call

end Verben
