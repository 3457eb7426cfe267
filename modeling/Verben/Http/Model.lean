import Verben.Lib.CInt
import Verben.Lib.Decimal
import Verben.Lib.Search
import Verben.Log.Model
import Verben.Worker.Model

/-!
# The http plugin

`src/plugins/http/http.c`: `handle_input` finds the end of a request, and `handle_process` sends
the file that a request names. Both search the bytes of the request with functions on strings,
which see nothing behind the first terminator.

`handle_process` reads the file in as many pieces as `read` gives it. What `read` returns is
part of the file here; `handle_process` has no result where it reads behind its copy of the
request.
-/

namespace Verben.Http

/-- What the functions on strings see of a buffer. -/
def cString (buf : List UInt8) : List UInt8 := buf.takeWhile (· ≠ 0)

/-- `"\r\n\r\n"`. -/
def headerEnd : List UInt8 := [13, 10, 13, 10]

/-- `"Content-Length:"`. -/
def contentLengthName : List UInt8 := asciiBytes "Content-Length:"

/-- `handle_input`. -/
def handleInput (buf : List UInt8) : Int :=
  match Search.find headerEnd (cString buf) with
  | none => 0
  | some i =>
      match Search.find contentLengthName (cString buf) with
      | some p =>
          let contentLen :=
            CInt.toInt32 (Decimal.strtol ((cString buf).drop (p + contentLengthName.length)))
          if contentLen = 0 then -1 else CInt.toInt32 (((i + 4 : Nat) : Int) + contentLen)
      | none => CInt.toInt32 ((i + 4 : Nat) : Int)

/-! ## `handle_process` -/

/-- `RESPONSE_BUF_SIZE`. -/
def responseBufSize : Nat := 4096

/-- The size of `file`, the buffer of the path. -/
def fileSize : Nat := 256

/-- `VERBEN_VERSION`. -/
def version : List UInt8 := asciiBytes "0.0.103M 9bab4ef"

/-- `doc_root` and `index_file`. -/
structure Conf : Type where
  docRoot : List UInt8
  indexFile : List UInt8

/-- A file that is open, and what `read` returns at an offset for so much room: -1, or a number
of bytes. There are no more than there is room for and than are left, and if there is room for
one and one is left, it is read. -/
structure OpenFile : Type where
  content : List UInt8
  read : Nat → Nat → Option Nat
  inside : ∀ off room n, read off room = some n → n ≤ room ∧ n ≤ content.length - off
  progress : ∀ off room, read off room = some 0 → room = 0 ∨ content.length ≤ off

/-- What is between the method and the version, as `ptr` points to it when the space in front of
the version is overwritten. If the version comes first, the byte in front of it is not part of
what `ptr` points to. -/
def requestPath (message : List UInt8) : Option (List UInt8) :=
  let ptr := cString (message.drop 4)
  (Search.find (asciiBytes "HTTP/") ptr).map fun k => if k = 0 then ptr else ptr.take (k - 1)

/-- `ptr[strlen(ptr) - 1]`, which is the byte in front of `ptr` for an empty string. -/
def lastByte (message ptr : List UInt8) : UInt8 := ptr.getLast?.getD (message.getD 3 0)

/-- The path that is opened: `snprintf` stores as much of it as there is room for. -/
def filePath (conf : Conf) (message : List UInt8) : Option (List UInt8) :=
  (requestPath message).map fun ptr =>
    (conf.docRoot ++ [47] ++ if lastByte message ptr = 47 then conf.indexFile else ptr).take
      (fileSize - 1)

/-- The header of the response. The size of the file is an `int`. -/
def responseHeader (size : Nat) : List UInt8 :=
  asciiBytes "HTTP/1.1 200 OK\r\nServer: verben " ++ version ++
    asciiBytes "\r\nContent-Length: " ++ formatInt 0 (CInt.toInt32 size) ++
    asciiBytes "\r\n\r\n"

/-- The loop that reads the file behind the header, one round for each call of `read`: how much
it has read, and whether the last call succeeded. The `DEBUG_LOG` of a debug build is left out. -/
def readFile (file : OpenFile) (header : Nat) : Nat → Nat → Option (Nat × Bool)
  | 0, _ => none
  | rounds + 1, off =>
      match file.read off (responseBufSize - (header + off) - 1) with
      | none => some (off, false)
      | some 0 => some (off, true)
      | some (n + 1) => readFile file header rounds (off + (n + 1))

/-- The response with a file. -/
def respond (file : OpenFile) : Option ProcessAnswer :=
  let header := responseHeader file.content.length
  (readFile file header.length (file.content.length + 1) 0).map fun (off, fine) =>
    { ret := if fine then verbenConnClose else verbenError
      sndbuf := some (header ++ file.content.take off ++ [0])
      sndlen := some (header.length + off : Nat) }

/-- `handle_process`, with the files that can be opened: the answer, and the path that was given
to `open`, if there is one. -/
def handleProcess (conf : Conf) (openFile : List UInt8 → Option OpenFile)
    (rcvbuf : List UInt8) : Option (ProcessAnswer × Option (List UInt8)) :=
  let message := rcvbuf ++ [0]
  let error : ProcessAnswer := ⟨verbenError, none, none⟩
  if ¬ asciiBytes "GET" <+: message then some (error, none)
  else if rcvbuf.length < 4 then none
  else
    match filePath conf message with
    | none => some (error, none)
    | some path =>
        match openFile path with
        | none => some (error, some path)
        | some file => (respond file).map fun answer => (answer, some path)

end Verben.Http
