import Verben.Lib.CInt
import Verben.Lib.Decimal
import Verben.Lib.Region

/-!
# The log

`log_write` of `src/log.c` puts a line together in `log_buffer`: a prefix with the time, the
process and the level, then the message, then a newline in place of the terminator. It writes
the line to the file of its level, or to the only file. A call returns `none` where a byte that
it stores or writes out is not in the buffer.
-/

namespace Verben

/-- `LOG_BUFFER_SIZE`. -/
def logBufferSize : Nat := 4096

/-- `LOG_LEVEL_FATAL` to `LOG_LEVEL_DEBUG`. -/
inductive LogLevel : Type
  | fatal
  | error
  | warning
  | notice
  | debug
  deriving DecidableEq

def LogLevel.toInt : LogLevel → Int
  | .fatal => 0
  | .error => 1
  | .warning => 2
  | .notice => 3
  | .debug => 4

def asciiBytes (s : String) : List UInt8 := s.toList.map fun c => UInt8.ofNat c.toNat

/-- `log_level_text`. -/
def logLevelText : LogLevel → List UInt8
  | .fatal => asciiBytes "FATAL  "
  | .error => asciiBytes "ERROR  "
  | .warning => asciiBytes "WARNING"
  | .notice => asciiBytes "NOTICE "
  | .debug => asciiBytes "DEBUG  "

/-- The memory that `mmap` returned for `log_buffer`. -/
def LogBuffer : Type := { r : Region // r.length = logBufferSize }

/-- Store bytes in the buffer, from an index on. -/
def LogBuffer.store (buf : LogBuffer) (off : Int) (bs : List UInt8) : Option LogBuffer :=
  match stored : buf.1.store off bs with
  | none => none
  | some r => some ⟨r, (Region.length_store stored).trans buf.2⟩

/-- A new mapping is zero. -/
def LogBuffer.zero : LogBuffer :=
  ⟨List.replicate logBufferSize (some 0), List.length_replicate⟩

/-- The static variables of `log.c`. `buffer` is `none` for `MAP_FAILED`; `fd` is the file of a
level, and that of all levels is the one of `fatal`. -/
structure Log : Type where
  buffer : Option LogBuffer
  level : Int
  multi : Bool
  fd : LogLevel → Int

/-- `struct tm`, as far as `log_write` reads it. -/
structure LogTime : Type where
  year : Int
  mon : Int
  mday : Int
  hour : Int
  min : Int
  sec : Int

/-- The system around a call: whether `mmap` succeeds, the time, the process, what `log_rotate`
returns for a file, and what `open` returns. -/
structure LogEnv : Type where
  mmap : Bool
  tm : LogTime
  pid : Int
  rotate : Int → Int
  openFile : Int

/-- `%0<width>d`. -/
def formatInt (width : Nat) (n : Int) : List UInt8 :=
  let digits := (Nat.toDigits 10 n.natAbs).map fun c => UInt8.ofNat c.toNat
  let sign : List UInt8 := if n < 0 then [45] else []
  sign ++ List.replicate (width - sign.length - digits.length) 48 ++ digits

/-- With no width, there are no zeros in front: this is `%d`. -/
theorem formatInt_eq (n : Int) :
    formatInt 0 n = (if n < 0 then [45] else []) ++ Decimal.digits n.natAbs := by
  unfold formatInt Decimal.digits
  simp only [Nat.zero_sub, List.replicate_zero, List.append_nil]

theorem formatInt_zero (i : Nat) : formatInt 0 i = Decimal.digits i := by
  rw [formatInt_eq, if_neg (by omega), List.nil_append, Int.natAbs_natCast]

/-- `[%04d/%02d/%02d-%02d:%02d:%02d][%05d][%s]`. -/
def logPrefix (env : LogEnv) (level : LogLevel) : List UInt8 :=
  [91] ++ formatInt 4 (env.tm.year + 1900) ++ [47] ++ formatInt 2 (env.tm.mon + 1) ++ [47] ++
    formatInt 2 env.tm.mday ++ [45] ++ formatInt 2 env.tm.hour ++ [58] ++
    formatInt 2 env.tm.min ++ [58] ++ formatInt 2 env.tm.sec ++ [93, 91] ++
    formatInt 5 env.pid ++ [93, 91] ++ logLevelText level ++ [93]

/-- `vsnprintf`: what it stores for a formatted text of any length, and what it returns, which
is the length of the whole text, or -1 if that is no `int`. -/
def vsnprintf (size : Nat) (text : List UInt8) : List UInt8 × Int :=
  (if size = 0 then [] else text.take (size - 1) ++ [0],
    if text.length < 2 ^ 31 then text.length else -1)

/-- What a call of `log_write` leaves behind, and the bytes that it gave to `write`. -/
structure LogOut : Type where
  log : Log
  wrote : Option (List UInt8)

/-- The line is put together in the buffer: the buffer, and the length of the line. -/
def logLine (env : LogEnv) (buf : LogBuffer) (level : LogLevel) (text : List UInt8) :
    Option (LogBuffer × Int) := do
  let pos := (logPrefix env level).length
  let buf ← buf.store 0 (logPrefix env level ++ [0])
  -- behind the prefix there is room, or the line above would not have returned
  let (stored, end') := vsnprintf (logBufferSize - pos) text
  let buf ← buf.store pos stored
  let buf ← buf.store (end' + pos) [10]
  some (buf, end' + pos + 1)

/-- The file at an index, -1 if it is not open or has just been rotated. -/
def logFd (env : LogEnv) (log : Log) (index : LogLevel) : Int :=
  if log.fd index ≠ -1 ∧ env.rotate (log.fd index) = 0 then -1 else log.fd index

/-- The end of `log_write`: the line goes to the file at an index, which is opened if need be. -/
def logOutput (env : LogEnv) (log : Log) (index : LogLevel) (buf : LogBuffer) (len : Int) :
    Option LogOut :=
  let opened := if logFd env log index = -1 then env.openFile else logFd env log index
  let log' := { log with buffer := some buf, fd := Function.update log.fd index opened }
  if logFd env log index = -1 ∧ env.openFile < 0 then some ⟨log', none⟩
  else (buf.1.load 0 len).map fun bytes => ⟨log', some bytes⟩

/-- `log_write`, for a message that is formatted already. -/
def logWrite (env : LogEnv) (log : Log) (level : LogLevel) (text : List UInt8) :
    Option LogOut :=
  if log.level < level.toInt then some ⟨log, none⟩
  else
    match log.buffer.or (if env.mmap then some .zero else none) with
    | none => some ⟨log, none⟩
    | some buf => do
        let (buf, len) ← logLine env buf level text
        logOutput env log (if log.multi then level else .fatal) buf len

end Verben
