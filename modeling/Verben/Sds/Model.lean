import Mathlib.Data.List.ReduceOption
import Verben.Lib.CInt
import Verben.Lib.Region

/-!
# Dynamic strings

`src/sds.c`. A string is a header with two `int`s, and the allocation behind it.
Lengths are computed in `size_t` and stored in the `int`s. Each function has no
result where it accesses a byte outside the allocation or calls `sds_oom_abort`;
`realloc` refuses more than half the address space, and other requests are granted.
-/

namespace Verben

open CInt

/-- `sizeof(struct sdshdr)`: the two `int`s. -/
def sizeofSdshdr : Int := 8

/-- `struct sdshdr` with the allocated bytes from `buf` on. -/
structure Sds : Type where
  len : Int
  free : Int
  buf : Region
  deriving DecidableEq

/-- `sdslen`: the `int` converted to `size_t`. -/
def sdslen (s : Sds) : Int := toUInt64 s.len

/-- `sdsavail`. -/
def sdsavail (s : Sds) : Int := toUInt64 s.free

/-- The bytes a reader of `len` and `buf` sees. -/
def Sds.content (s : Sds) : List UInt8 := (s.buf.take s.len.toNat).reduceOption

/-- `sdsempty`: `sdsnewlen("", 0)`. -/
def sdsempty : Sds where
  len := 0
  free := 0
  buf := [some 0]

/-- The bytes that `sdsnewlen` stores first: those at `init`, or zeros if it is null. -/
def sdsFill (buf : Region) (init : Option (List UInt8)) (initlen : Nat) : Option Region :=
  if initlen = 0 then
    some buf
  else
    match init with
    | some init => if initlen ≤ init.length then buf.store 0 (init.take initlen) else none
    | none => buf.store 0 (List.replicate initlen 0)

/-- `sdsnewlen`. -/
def sdsnewlen (init : Option (List UInt8)) (initlen : Nat) : Option Sds :=
  let size := toUInt64 (sizeofSdshdr + initlen + 1)
  if sizeofSdshdr ≤ size ∧ size < 2 ^ 63 then
    (sdsFill (List.replicate (size - sizeofSdshdr).toNat none) init initlen).bind fun buf =>
      (buf.store initlen [0]).map fun buf => { len := toInt32 initlen, free := 0, buf := buf }
  else
    none

/-- `sds_make_room_for`. -/
def sdsMakeRoomFor (s : Sds) (addlen : Int) : Option Sds :=
  if addlen ≤ sdsavail s then
    some s
  else
    let len := sdslen s
    let newlen := toUInt64 ((len + addlen) * 2)
    let size := toUInt64 (sizeofSdshdr + newlen + 1)
    if sizeofSdshdr ≤ size ∧ size < 2 ^ 63 then
      some { s with
        free := toInt32 (newlen - len), buf := s.buf.resize (size - sizeofSdshdr).toNat }
    else
      none

/-- `sdscatlen` with the bytes `t`. -/
def sdscatlen (s : Sds) (t : List UInt8) : Option Sds :=
  let len : Int := t.length
  let curlen := sdslen s
  (sdsMakeRoomFor s len).bind fun s =>
    (s.buf.store curlen t).bind fun buf =>
      (buf.store (curlen + len) [0]).map fun buf =>
        { len := toInt32 (curlen + len), free := toInt32 (s.free - len), buf := buf }

/-- `sdsgrowzero`. -/
def sdsgrowzero (s : Sds) (len : Nat) : Option Sds :=
  let curlen := toUInt64 s.len
  if len ≤ curlen then
    some s
  else
    (sdsMakeRoomFor s (len - curlen)).bind fun s =>
      (s.buf.store curlen (List.replicate (len - curlen + 1).toNat 0)).map fun buf =>
        let totlen := toUInt64 (toInt32 (s.len + s.free))
        { len := toInt32 len, free := toInt32 (totlen - toInt32 len), buf := buf }

/-- `sdscpylen` with the bytes `t`. -/
def sdscpylen (s : Sds) (t : List UInt8) : Option Sds :=
  let len : Int := t.length
  let grown :=
    if toUInt64 (toInt32 (s.free + s.len)) < len then sdsMakeRoomFor s (toUInt64 (len - s.len))
    else some s
  grown.bind fun s =>
    let totlen := toUInt64 (toInt32 (s.free + s.len))
    (s.buf.store 0 t).bind fun buf =>
      (buf.store len [0]).map fun buf =>
        { len := toInt32 len, free := toInt32 (totlen - len), buf := buf }

/-- `sdsclear`. -/
def sdsclear (s : Sds) : Option Sds :=
  (s.buf.store 0 [0]).map fun buf =>
    { len := 0, free := toInt32 (s.free + s.len), buf := buf }

/-- `strchr` finds a byte among those of the string `cset`, or its terminator. -/
def strchr (cset : List UInt8) (b : UInt8) : Bool := b ∈ cset || b = 0

/-- The first loop of `sdstrim`, which has no result if it has not ended after so many
rounds. -/
def trimStart (buf : Region) (cset : List UInt8) (stop : Int) : Nat → Int → Option Int
  | 0, _ => none
  | rounds + 1, sp =>
      if sp ≤ stop then
        (buf.byte sp).bind fun b =>
          if strchr cset b then trimStart buf cset stop rounds (sp + 1) else some sp
      else
        some sp

/-- The second one, from the end back to the start of the string. -/
def trimEnd (buf : Region) (cset : List UInt8) : Nat → Int → Option Int
  | 0, _ => none
  | rounds + 1, ep =>
      if 0 < ep then
        (buf.byte ep).bind fun b =>
          if strchr cset b then trimEnd buf cset rounds (ep - 1) else some ep
      else
        some ep

/-- `sdstrim`. -/
def sdstrim (s : Sds) (cset : List UInt8) : Option Sds :=
  let stop := sdslen s - 1
  let rounds := (sdslen s).toNat + 1
  (trimStart s.buf cset stop rounds 0).bind fun sp =>
    (trimEnd s.buf cset rounds stop).bind fun ep =>
      let len := if ep < sp then 0 else ep - sp + 1
      (if sp ≠ 0 then s.buf.move 0 sp len else some s.buf).bind fun buf =>
        (buf.store len [0]).map fun buf =>
          { len := toInt32 len, free := toInt32 (s.free + (s.len - len)), buf := buf }

/-- An index of `sdsrange` counted from the start: a negative one counts from the
end, and is clamped to 0. -/
def rangeIndex (len i : Int) : Int :=
  if i < 0 then max (toInt32 (len + i)) 0 else i

/-- `(start > end) ? 0 : (end - start) + 1`. -/
def rangeSpan (start stop : Int) : Int := if stop < start then 0 else stop - start + 1

/-- The `start` and the `newlen` that `sdsrange` ends up with. -/
def rangeBounds (len start stop : Int) : Int × Int :=
  if rangeSpan start stop ≠ 0 then
    if toInt32 len ≤ start then
      (start, 0)
    else if toInt32 len ≤ stop then
      (start, rangeSpan start (toInt32 (len - 1)))
    else
      (start, rangeSpan start stop)
  else
    (0, 0)

/-- `sdsrange`. -/
def sdsrange (s : Sds) (start stop : Int) : Option Sds :=
  let len := sdslen s
  if len = 0 then
    some s
  else
    let bounds := rangeBounds len (rangeIndex len start) (rangeIndex len stop)
    let moved :=
      if bounds.1 ≠ 0 ∧ bounds.2 ≠ 0 then s.buf.move 0 bounds.1 bounds.2 else some s.buf
    moved.bind fun buf =>
      (buf.store bounds.2 [0]).map fun buf =>
        { len := toInt32 bounds.2, free := toInt32 (s.free + (s.len - bounds.2)), buf := buf }

end Verben
