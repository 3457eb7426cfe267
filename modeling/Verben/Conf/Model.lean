import Verben.Conf.Explode

/-!
# The configuration parser

`src/conf.c`: `conf_parse` reads one line after the other into a hash table, calls itself
for every block, and goes on in the same stream behind it. `conf_parse_include` calls
`conf_init` for every file that a pattern matches, with the table at hand.

Tables and values are known by a number, as the code knows them by their address: a table
that was freed is gone, and a value can be filled in after it was put into a table. A call
returns, or ends the process in `free_val`, or uses memory that it must not (`ConfRet`).
Allocations succeed. The recursion is bounded by `fuel`; the parser reads on as long as
there is some.
-/

namespace Verben

/-- `MAX_LINE`. -/
def maxLine : Nat := 1024

/-- `PATH_MAX`. -/
def pathMax : Nat := 4096

/-! ## Lines -/

/-- At most `n` bytes, up to the end of the line. -/
def takeLine : Nat → List UInt8 → List UInt8 × List UInt8
  | 0, fp => ([], fp)
  | _ + 1, [] => ([], [])
  | n + 1, b :: fp =>
      if b = 10 then
        ([b], fp)
      else
        let (line, fp) := takeLine n fp
        (b :: line, fp)

/-- `fgets`: what it reads, and the rest of the stream. -/
def fgets (n : Nat) (fp : List UInt8) : Option (List UInt8 × List UInt8) :=
  match fp with
  | [] => none
  | _ => some (takeLine (n - 1) fp)

/-- A string is stored in a buffer. -/
def storeString (buf s : List UInt8) : List UInt8 := s ++ 0 :: buf.drop (s.length + 1)

/-- The newline at the end of the string is overwritten. -/
def chomp (buf : List UInt8) : List UInt8 :=
  let s := cstr buf 0
  if s.getLast? = some 10 then buf.set (s.length - 1) 0 else buf

/-! ## Tables and values -/

/-- `conf_value_t`: the type is 0 until it is set. A block is known by its table. -/
inductive ConfValue : Type
  | unset (blocks : List Nat)
  | entry (values : List CStr)
  | block (blocks : List Nat)
  deriving DecidableEq

/-- One more block in front of the others. -/
def ConfValue.push (cv : ConfValue) (block : Nat) : ConfValue :=
  match cv with
  | .unset blocks => .unset (block :: blocks)
  | .entry values => .entry values
  | .block blocks => .block (block :: blocks)

/-- What was allocated: the tables with the values they point to, and the calls of
`conf_parse` so far. -/
structure ConfStore : Type where
  tables : Nat → Option (Hash Nat)
  tableNum : Nat
  values : Nat → ConfValue
  valueNum : Nat
  calls : Nat

def ConfStore.init : ConfStore where
  tables := fun _ => none
  tableNum := 0
  values := fun _ => .unset []
  valueNum := 0
  calls := 0

def ConfStore.setTable (store : ConfStore) (t : Nat) (ht : Option (Hash Nat)) : ConfStore :=
  { store with tables := Function.update store.tables t ht }

def ConfStore.setValue (store : ConfStore) (cv : Nat) (value : ConfValue) : ConfStore :=
  { store with values := Function.update store.values cv value }

/-- A new table. -/
def ConfStore.newTable (store : ConfStore) (ht : Hash Nat) : ConfStore :=
  { store.setTable store.tableNum (some ht) with tableNum := store.tableNum + 1 }

/-- A new value, as `calloc` leaves it. -/
def ConfStore.newValue (store : ConfStore) : ConfStore :=
  { store.setValue store.valueNum (.unset []) with valueNum := store.valueNum + 1 }

/-- How a call ends: it returns 0 or -1, calls `exit(1)`, or uses a null pointer, memory that was
freed, or memory that is not there. -/
inductive ConfRet : Type
  | ok
  | error
  | exit
  | fault
  deriving DecidableEq

/-! ## `conf_free` -/

/-- The blocks of a value. -/
def freeBlocks (free : ConfStore → Nat → ConfRet × ConfStore) :
    List Nat → ConfStore → ConfRet × ConfStore
  | [], store => (.ok, store)
  | cb :: next, store =>
      match free store cb with
      | (.ok, store) => freeBlocks free next store
      | (ret, store) => (ret, store)

/-- `free_val`. -/
def freeVal (free : ConfStore → Nat → ConfRet × ConfStore) (cv : ConfValue)
    (store : ConfStore) : ConfRet × ConfStore :=
  match cv with
  | .entry _ => (.ok, store)
  | .block blocks => freeBlocks free blocks store
  | .unset _ => (.exit, store)

/-- `_hash_delete_foreach` in a table of values. A `free_val` that does not return ends the
walk. -/
def confFreeForeach (free : ConfStore → Nat → ConfRet × ConfStore) (he : HashEntry Nat)
    (s : ConfRet × ConfStore × Hash Nat) : Option (Int × ConfRet × ConfStore × Hash Nat) := do
  let (_, store, ht) := s
  let (ret, ht) ← hashDelete ht he.1
  match freeVal free (store.values he.2) store with
  | (.ok, store) => some (if ret ≠ 0 then -1 else 0, .ok, store, ht)
  | (end', store) => some (-1, end', store, ht)

/-- `conf_free`, for tables that are nested at most `depth` deep. -/
def confFree : Nat → ConfStore → Nat → ConfRet × ConfStore
  | 0, store, _ => (.fault, store)
  | depth + 1, store, t =>
      match store.tables t with
      | none => (.fault, store)
      | some ht =>
          match hashForeach (·.2.2) (confFreeForeach (confFree depth)) (.ok, store, ht) with
          | none => (.fault, store)
          | some (_, .ok, store, _) => (.ok, store.setTable t none)
          | some (_, ret, store, _) => (ret, store)

/-! ## Variables -/

/-- `conf_get_str_value`. -/
def confGetStrValue (store : ConfStore) (conf : Nat) (key : CStr) (default : Option CStr) :
    Option CStr :=
  match (store.tables conf).bind (hashGetVal · key) with
  | some (some cv) =>
      match store.values cv with
      | .entry (value :: _) => some value
      | _ => default
  | _ => default

/-- What `conf_evaluate` comes to: null, or memory that is freed twice, or a string. -/
inductive EvalRet : Type
  | null
  | fault
  | text (value : CStr)
  deriving DecidableEq

/-- What a call makes of what the next one comes to. At null it goes to `error:`, where `sub`, which
was freed before the next call, is freed again. -/
def EvalRet.outer : EvalRet → EvalRet
  | .null => .fault
  | .fault => .fault
  | .text value => .text value

/-- `conf_evaluate`: the value without its references, or null. `var` is the configuration's
or the environment's value of a name. -/
def confEvaluate (var : CStr → Option CStr) : Nat → CStr → Option EvalRet
  | 0, _ => none
  | fuel + 1, value =>
      if 36 ∉ value then some (.text value)
      else
        let head := value.takeWhile (· ≠ 36)
        let scan := (value.dropWhile (· ≠ 36)).tail
        if maxLine - 1 < head.length then some .null
        else
          let avail := maxLine - 1 - head.length
          -- `{` is 123 and `(` is 40
          let scan := if scan.headD 0 = 123 ∨ scan.headD 0 = 40 then scan.tail else scan
          -- `}` is 125 and `)` is 41
          let sub := scan.takeWhile fun b => b ≠ 125 && b ≠ 41 && b ≠ 32
          let scan := scan.drop sub.length
          let scan := if scan.headD 0 = 125 ∨ scan.headD 0 = 41 then scan.tail else scan
          if sub = [] then some .null
          else
            match var sub with
            | some text =>
                if avail < text.length then some .null
                else
                  (confEvaluate var fuel (head ++ text ++ scan.take (avail - text.length))).map
                    EvalRet.outer
            | none => (confEvaluate var fuel (head ++ scan.take avail)).map EvalRet.outer

/-! ## The parser -/

/-- An entry of a directory. -/
structure DirEntry : Type where
  name : CStr
  isDir : Bool

/-- What `fnmatch` returns. -/
inductive FnMatch : Type
  | found
  | noMatch
  | error

/-- The pointer `field[0]`: it is null, or points into `buf`, to memory that is not there, or to
other memory, with the byte that stands there while so much of the stream is left. -/
inductive FieldPtr : Type
  | null
  | offset (p : Nat)
  | wild
  | other (byte : Nat → UInt8)

/-- `field[0] && field[0][0] == '}'`, if the pointer can be followed. -/
def FieldPtr.closes (field0 : FieldPtr) (buf : List UInt8) (left : Nat) : Option Bool :=
  match field0 with
  | .null => some false
  | .offset p => buf[p]?.map fun b => b = 125
  | .wild => none
  | .other byte => some (byte left = 125)

/-- The system around the parser, and what the variables `buf` and `field[0]` of the n-th call
of `conf_parse` hold at first. Where an earlier call had its variables, `field[0]` may point into
`buf`. -/
structure ConfEnv : Type where
  realpath : CStr → Option CStr
  fopen : CStr → Option (List UInt8)
  dirname : CStr → CStr
  basename : CStr → CStr
  opendir : CStr → Option (List DirEntry)
  fnmatch : CStr → CStr → FnMatch
  getenv : CStr → Option CStr
  buf : Nat → Nat → UInt8
  field : Nat → FieldPtr

/-- The arguments and variables of a call of `conf_parse`. -/
structure ConfFrame : Type where
  conf : Nat
  resolvedPath : CStr
  block : Bool
  buf : List UInt8
  field0 : FieldPtr

/-- What a call of `conf_parse` leaves behind. -/
structure ConfOut : Type where
  ret : ConfRet
  fp : List UInt8
  store : ConfStore

/-- The loop of `conf_parse`: `none` when the fuel did not do. -/
abbrev ParseLoop := ConfFrame → List UInt8 → ConfStore → Option ConfOut

/-- `error:` in `conf_parse`. -/
def confError (conf : Nat) (fp : List UInt8) (store : ConfStore) : ConfOut :=
  match confFree store.tableNum store conf with
  | (.ok, store) => ⟨.error, fp, store⟩
  | (ret, store) => ⟨ret, fp, store⟩

/-- `conf_parse`, up to its loop. A configuration without a table gets the next one. -/
def confParse (env : ConfEnv) (loop : ParseLoop) (ht : Option Nat) (resolvedPath : CStr)
    (fp : List UInt8) (block : Bool) (store : ConfStore) : Option (Nat × ConfOut) :=
  let frame (t : Nat) : ConfFrame :=
    ⟨t, resolvedPath, block, (List.range maxLine).map (env.buf store.calls),
      env.field store.calls⟩
  let store := { store with calls := store.calls + 1 }
  match ht with
  | some t => (loop (frame t) fp store).map (t, ·)
  | none =>
      let t := store.tableNum
      match hashCreate hashInitSlots true with
      | none => some (t, ⟨.error, fp, store⟩)
      | some new => (loop (frame t) fp (store.newTable new)).map (t, ·)

/-- `conf_init`. -/
def confInit (env : ConfEnv) (loop : ParseLoop) (ht : Option Nat) (filename : CStr)
    (store : ConfStore) : Option (ConfRet × ConfStore) :=
  match env.realpath filename with
  | none => some (.error, store)
  | some resolvedPath =>
      match env.fopen filename with
      | none => some (.error, store)
      | some fp =>
          (confParse env loop ht resolvedPath fp false store).map fun (_, out) =>
            (out.ret, out.store)

/-- The loop of `conf_parse_include` over the directory. -/
def includeEntries (env : ConfEnv) (loop : ParseLoop) (conf : Nat) (curFile dname bname : CStr) :
    List DirEntry → ConfStore → Option (ConfRet × ConfStore)
  | [], store => some (.ok, store)
  | entry :: entries, store =>
      if entry.isDir then
        includeEntries env loop conf curFile dname bname entries store
      else
        let fullpath := (dname ++ 47 :: entry.name).take (pathMax - 2)
        match env.realpath fullpath with
        | none => some (.error, store)
        | some resolvedPath =>
            if curFile = resolvedPath then
              includeEntries env loop conf curFile dname bname entries store
            else
              match env.fnmatch bname entry.name with
              | .found => do
                  let (ret, store) ← confInit env loop (some conf) fullpath store
                  if ret = .ok then
                    includeEntries env loop conf curFile dname bname entries store
                  else
                    some (ret, store)
              | .noMatch => includeEntries env loop conf curFile dname bname entries store
              | .error => some (.error, store)

/-- `conf_parse_include`. The names `.`, `..` and `/` are refused. -/
def confParseInclude (env : ConfEnv) (loop : ParseLoop) (conf : Nat) (curFile incFile : CStr)
    (store : ConfStore) : Option (ConfRet × ConfStore) :=
  let dname := env.dirname incFile
  let bname := env.basename incFile
  if bname = [46] ∨ bname = [46, 46] ∨ bname = [47] then some (.error, store)
  else
    match env.opendir dname with
    | none => some (.error, store)
    | some entries => includeEntries env loop conf curFile dname bname entries store

/-- A block: it is parsed from the same stream, and then put into its value. -/
def confBlock (env : ConfEnv) (loop : ParseLoop) (f : ConfFrame) (fp : List UInt8)
    (store : ConfStore) (cv : Nat) (link : ConfValue → Nat → ConfValue) : Option ConfOut := do
  let (t, out) ← confParse env loop none f.resolvedPath fp true store
  match out.ret with
  | .ok => loop f out.fp (out.store.setValue cv (link (out.store.values cv) t))
  | .error => some (confError f.conf out.fp out.store)
  | _ => some out

/-- A key with its value, or with the block that follows. -/
def confItem (env : ConfEnv) (loop : ParseLoop) (f : ConfFrame) (fp : List UInt8)
    (store : ConfStore) (key value var : CStr) : Option ConfOut :=
  let isBlock := value = [123]
  match store.tables f.conf with
  | none => some ⟨.fault, fp, store⟩
  | some ht =>
      match hashGetVal ht key with
      | none => some ⟨.fault, fp, store⟩
      | some none =>
          let cv := store.valueNum
          let store := store.newValue
          match hashInsert ht key cv .succeed with
          | none => some ⟨.fault, fp, store⟩
          | some (ret, ht) =>
              let store := store.setTable f.conf (some ht)
              if ret ≠ 0 then
                some (confError f.conf fp store)
              else if isBlock then
                confBlock env loop f fp store cv fun _ t => .block [t]
              else
                loop f fp (store.setValue cv (.entry [var]))
      | some (some cv) =>
          match store.values cv with
          | .entry values =>
              if isBlock then
                some (confError f.conf fp store)
              else
                loop f fp (store.setValue cv (.entry (var :: values)))
          | _ =>
              if isBlock then
                confBlock env loop f fp store cv ConfValue.push
              else
                some (confError f.conf fp store)

/-- The value of a name for `conf_evaluate`. -/
def confVar (env : ConfEnv) (store : ConfStore) (conf : Nat) (name : CStr) : Option CStr :=
  (confGetStrValue store conf name none).or (env.getenv name)

/-- A line with two fields. `include` is a directive. -/
def confPair (env : ConfEnv) (fuel : Nat) (loop : ParseLoop) (f : ConfFrame) (fp : List UInt8)
    (store : ConfStore) (key value : CStr) : Option ConfOut := do
  match ← confEvaluate (confVar env store f.conf) fuel value with
  | .null => some (confError f.conf fp store)
  | .fault => some ⟨.fault, fp, store⟩
  | .text var =>
      if key = [105, 110, 99, 108, 117, 100, 101] then do
        let (ret, store) ← confParseInclude env loop f.conf f.resolvedPath var store
        match ret with
        | .ok => loop f fp store
        | .error => some (confError f.conf fp store)
        | _ => some ⟨ret, fp, store⟩
      else
        confItem env loop f fp store key value var

/-- A line in the buffer that is no comment: it is split, and a line without a value may close
the block. -/
def confFields (env : ConfEnv) (fuel : Nat) (loop : ParseLoop) (f : ConfFrame) (fp : List UInt8)
    (store : ConfStore) : Option ConfOut :=
  match strExplode .null f.buf 2 with
  | none => some ⟨.fault, fp, store⟩
  | some ([p, q], buf) =>
      confPair env fuel loop { f with buf := buf, field0 := .offset p } fp store (cstr buf p)
        (cstr buf q)
  | some (field, buf) =>
      let field0 := if let [p] := field then .offset p else f.field0
      let f := { f with buf := buf, field0 := field0 }
      match field0.closes buf fp.length with
      | none => some ⟨.fault, fp, store⟩
      | some true => some (if f.block then ⟨.ok, fp, store⟩ else confError f.conf fp store)
      | some false => loop f fp store

/-- One round of the loop. -/
def confLine (env : ConfEnv) (fuel : Nat) (loop : ParseLoop) (f : ConfFrame) (fp : List UInt8)
    (store : ConfStore) : Option ConfOut :=
  match fgets maxLine fp with
  | none => some ⟨.ok, fp, store⟩
  | some (line, fp) =>
      let f := { f with buf := chomp (storeString f.buf line) }
      if f.buf[0]? = some 35 then loop f fp store
      else confFields env fuel loop f fp store

/-- The loop of `conf_parse`. -/
def confLoop (env : ConfEnv) : Nat → ParseLoop
  | 0, _, _, _ => none
  | fuel + 1, f, fp, store => confLine env (fuel + 1) (confLoop env fuel) f fp store

end Verben
