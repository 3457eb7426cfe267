import Verben.Lib.Files
import Verben.Log.Write

/-!
# The files of the log

`log_write` opens the file of a level when it is needed, and `log_rotate` gives it another name
when it has become too large: the path with the first number behind it that no file has yet.
If all numbers are taken, the files with a number move down by one, over the first of them, and
the log file is left alone until the next call.

The names are put together in a buffer of `LOG_PATH_MAX` bytes, the size of the buffer of the
path itself, so a name may be cut off. A file is the list of what was written to it.
-/

namespace Verben

/-- `LOG_MAX_SIZE`. -/
def logMaxSize : Int := 1024 * 1024 * 1024

/-- `LOG_MAX_NUMBER`. -/
def logMaxNumber : Int := 100

/-- `LOG_PATH_MAX`. -/
def logPathMax : Nat := 1024

/-- What a call of `write` put into a file. -/
abbrev LogLine := List UInt8

abbrev LogFiles := Files (List UInt8) LogLine

/-- The static variables of `log.c`, and the files around them. `path` is that of `log_files`. -/
structure LogState : Type where
  log : Log
  hasInit : Bool
  size : Int
  number : Int
  path : LogLevel → List UInt8
  files : LogFiles

/-- The static variables in the beginning. -/
def LogState.initial (files : LogFiles) : LogState where
  log := { buffer := none, level := 0, multi := false, fd := fun _ => 0 }
  hasInit := false
  size := 0
  number := 0
  path := fun _ => []
  files := files

/-- The path that `log_init` puts together. The byte behind the copy of `dir` is its terminator,
so there is a slash behind `dir` whatever its last byte is. -/
def logFilePath (dir filename : List UInt8) (multi : Bool) (level : LogLevel) : List UInt8 :=
  dir ++ [47] ++ filename ++ if multi then [95] ++ logLevelText level else []

/-- `log_init`, with what `access` and `mmap` say. There is no result where an assertion fails,
or where a path does not fit into its buffer. -/
def logInit (st : LogState) (dir filename : List UInt8) (level size n : Int) (multi : Bool)
    (access mmap : Bool) : Option (Int × LogState) :=
  if ¬ (0 ≤ level ∧ level ≤ 4 ∧ 0 ≤ size ∧ size ≤ logMaxSize ∧ 0 < n ∧ n ≤ logMaxNumber) then none
  else if st.hasInit ∨ ¬ access then some (-1, st)
  else if logPathMax ≤ (logFilePath dir filename multi .fatal).length then none
  else
    let path := logFilePath dir filename multi
    let opened : LogState := { st with
      size := size
      number := n
      path := if multi then path else Function.update st.path .fatal (path .fatal)
      log := { st.log with
        level := level
        multi := multi
        fd := if multi then fun _ => -1 else Function.update st.log.fd .fatal (-1) } }
    match st.log.buffer.or (if mmap then some .zero else none) with
    | none => some (-1, opened)
    | some buf =>
        some (0, { opened with hasInit := true, log := { opened.log with buffer := some buf } })

/-- A call of `log_write`, with a message that is formatted already, and the system around it:
`mmap`, the time and the process, whether `fstat` succeeds, which renames succeed, the
descriptor that `open` returns, and how many bytes `write` writes. -/
structure LogCall : Type where
  mmap : Bool
  tm : LogTime
  pid : Int
  fstat : Bool
  rename : List UInt8 → List UInt8 → Bool
  openFile : Option Nat
  write : Option Nat
  level : LogLevel
  text : List UInt8

/-- What the rest of `log_write` sees of the system, given what `log_rotate` returns. -/
def LogCall.env (c : LogCall) (ret : Int) : LogEnv where
  mmap := c.mmap
  tm := c.tm
  pid := c.pid
  rotate := fun _ => ret
  openFile := (c.openFile.map Int.ofNat).getD (-1)

/-- The name of a file with a number: `"%s.%d"`. -/
def rotatedPath (path : List UInt8) (i : Nat) : List UInt8 := path ++ [46] ++ formatInt 0 i

/-- `temppath`: `snprintf` stores as much of the name as there is room for. -/
def tempPath (path : List UInt8) (i : Nat) : List UInt8 :=
  (rotatedPath path i).take (logPathMax - 1)

/-- `rename`; nothing changes when it fails. -/
def LogCall.renameFile (c : LogCall) (files : LogFiles) (old new : List UInt8) : LogFiles :=
  if c.rename old new then (files.rename old new).getD files else files

/-- The second loop of `log_rotate`. -/
def logShift (c : LogCall) (number : Int) (path : List UInt8) (files : LogFiles) : LogFiles :=
  (List.range' 1 (number.toNat - 1)).foldl
    (fun files i => c.renameFile files (tempPath path i) (tempPath path (i - 1))) files

/-- `log_rotate`. Its first loop looks for a number whose file does not exist. -/
def logRotate (c : LogCall) (size number : Int) (fd : Int) (path : List UInt8)
    (files : LogFiles) : Int × LogFiles :=
  match if c.fstat then files.stat fd else none with
  | none => (0, files)
  | some lines =>
      if size < lines.flatten.length then
        match (List.range number.toNat).find? fun i => !files.access (tempPath path i) with
        | some i => (0, c.renameFile files path (tempPath path i))
        | none => (-1, logShift c number path files)
      else (-1, files)

/-- The place of a level in `log_files`. -/
def LogState.index (st : LogState) (level : LogLevel) : LogLevel :=
  if st.log.multi then level else .fatal

/-- The log file in front of `write`: it is closed if it was rotated, and opened if need be. -/
def logReady (path : List UInt8) (old now opened : Int) (files : LogFiles) : LogFiles :=
  let files := if now ≠ old then files.close old else files
  if now = -1 ∧ 0 ≤ opened then files.openAt path opened else files

/-- `write`, which may put a part of the line into the file, or nothing. -/
def logAppend (fd : Int) (line : Option LogLine) (files : LogFiles) : LogFiles :=
  match line with
  | some l => files.append fd l
  | none => files

/-- What `log_rotate` returns, and the files behind it; it is called for an open file. -/
def LogState.rotate (st : LogState) (c : LogCall) : Int × LogFiles :=
  let index := st.index c.level
  if st.log.fd index ≠ -1 then
    logRotate c st.size st.number (st.log.fd index) (st.path index) st.files
  else (-1, st.files)

/-- `log_write` with the files: the state behind it, and what it wrote. -/
def LogState.write (st : LogState) (c : LogCall) : Option (LogState × Option LogLine) := do
  let index := st.index c.level
  let env := c.env (st.rotate c).1
  let out ← logWrite env st.log c.level c.text
  if st.log.level < c.level.toInt ∨ (st.log.mapped env).isNone then
    some ({ st with log := out.log }, none)
  else
    let line := out.wrote.bind fun bytes => c.write.map fun n => bytes.take n
    let ready := logReady (st.path index) (st.log.fd index) (logFd env st.log index)
      (out.log.fd index) (st.rotate c).2
    some ({ st with log := out.log, files := logAppend (out.log.fd index) line ready }, line)

/-- The states of a log, and everything that was written, over a list of calls. -/
def LogState.writeAll : LogState → List LogCall → Option (LogState × List LogLine)
  | st, [] => some (st, [])
  | st, c :: cs => do
      let (st, line) ← st.write c
      let (st, lines) ← writeAll st cs
      some (st, line.toList ++ lines)

end Verben
