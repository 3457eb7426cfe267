import Mathlib.Data.List.DropRight
import Verben.Sds.Content

/-!
# The representation of a string

`Sds.Valid s c` says that `len` and `free` describe the allocation exactly, and that it holds
the bytes `c` with a NUL behind them. As long as twice the length is below 2 ^ 31, each
function of `src/sds.c` keeps this and does to the bytes what its name says. `sdsrange` and
`sdstrim` are `slice` and `trimmed` on byte lists.
-/

namespace Verben

open CInt

/-- The string represents the bytes `c`. `cap` says that `free` is an `int`. -/
structure Sds.Valid (s : Sds) (c : List UInt8) : Prop where
  len : s.len = c.length
  free : 0 ≤ s.free
  alloc : s.len + s.free + 1 = s.buf.length
  cap : s.buf.length ≤ 2 ^ 31
  data : s.buf.Starts (c ++ [0])

variable {s : Sds} {c t : List UInt8}

theorem Sds.Valid.holds (valid : s.Valid c) : s.Holds c := by
  have len := valid.len
  have free := valid.free
  have alloc := valid.alloc
  have cap := valid.cap
  refine ⟨len, by omega, ?_, by omega, valid.data⟩
  rw [toInt32_of_range (by omega) (by omega)]
  omega

/-- Once the bytes `d` are at the front, the NUL is stored behind them, and the two fields are
set. -/
theorem Sds.Valid.finish (valid : s.Valid c) {buf : Region} {d : List UInt8}
    (same : buf.length = s.buf.length) (starts : buf.Starts d)
    (room : (d.length : Int) ≤ s.len + s.free) :
    ∃ buf', buf.store d.length [0] = some buf' ∧
      (Sds.mk d.length (s.len + s.free - d.length) buf').Valid d := by
  have alloc := valid.alloc
  have cap := valid.cap
  have nulRoom : d.length + [(0 : UInt8)].length ≤ buf.length := by
    rw [List.length_singleton]
    omega
  obtain ⟨buf', stored, length, ended⟩ := starts.store nulRoom
  refine ⟨buf', stored, ⟨rfl, ?_, ?_, ?_, ended⟩⟩
  · simp only
    omega
  · simp only
    omega
  · simp only
    omega

/-! ## sdsnewlen -/

/-- The bytes of a new string. -/
def newBytes (init : Option (List UInt8)) (initlen : Nat) : List UInt8 :=
  match init with
  | some init => init.take initlen
  | none => List.replicate initlen 0

theorem length_newBytes {init : Option (List UInt8)} {initlen : Nat}
    (given : ∀ bytes, init = some bytes → initlen ≤ bytes.length) :
    (newBytes init initlen).length = initlen := by
  cases init with
  | none => exact List.length_replicate
  | some init => exact List.length_take_of_le (given init rfl)

theorem sdsFill_eq (buf : Region) {init : Option (List UInt8)} {initlen : Nat}
    (given : ∀ bytes, init = some bytes → initlen ≤ bytes.length) :
    sdsFill buf init initlen = buf.store 0 (newBytes init initlen) := by
  unfold sdsFill
  by_cases zero : initlen = 0
  case pos =>
    -- a store of no bytes changes nothing
    have none : newBytes init initlen = [] :=
      List.eq_nil_of_length_eq_zero ((length_newBytes given).trans zero)
    rw [if_pos zero, none]
    simp [Region.store]
  case neg =>
    rw [if_neg zero]
    cases init with
    | none => rfl
    | some init => exact if_pos (given init rfl)

/-- The smallest allocation, filled and ended. -/
theorem sdsnewlen_of_short {init : Option (List UInt8)} {initlen : Nat}
    (given : ∀ bytes, init = some bytes → initlen ≤ bytes.length) (short : initlen < 2 ^ 30) :
    ∃ s, sdsnewlen init initlen = some s ∧ s.Valid (newBytes init initlen) := by
  have length := length_newBytes given
  have size : toUInt64 (sizeofSdshdr + initlen + 1) = initlen + 9 := by
    unfold sizeofSdshdr
    rw [toUInt64_of_range (by omega) (by omega)]
    omega
  have granted : sizeofSdshdr ≤ (initlen : Int) + 9 ∧ (initlen : Int) + 9 < 2 ^ 63 := by
    unfold sizeofSdshdr
    omega
  have bytes : ((initlen : Int) + 9 - sizeofSdshdr).toNat = initlen + 1 := by
    unfold sizeofSdshdr
    omega
  unfold sdsnewlen
  simp only [size, if_pos granted, bytes, sdsFill_eq _ given]
  obtain ⟨buf, fresh⟩ : ∃ buf : Region, List.replicate (initlen + 1) none = buf := ⟨_, rfl⟩
  have whole : buf.length = initlen + 1 := by rw [← fresh, List.length_replicate]
  rw [fresh]
  have front : buf.Starts [] := List.nil_prefix
  have room : ([] : List UInt8).length + (newBytes init initlen).length ≤ buf.length := by
    rw [List.length_nil, length]
    omega
  obtain ⟨filled, store, filledLength, starts⟩ := front.store room
  rw [List.nil_append] at starts
  have nulRoom : (newBytes init initlen).length + [(0 : UInt8)].length ≤ filled.length := by
    rw [List.length_singleton]
    omega
  obtain ⟨ended, stop, endedLength, endedStarts⟩ := starts.store nulRoom
  have store : buf.store 0 (newBytes init initlen) = some filled := store
  rw [length] at stop
  rw [store, Option.bind_some, stop, Option.map_some, toInt32_of_range (by omega) (by omega)]
  refine ⟨_, rfl, ⟨?_, Int.le_refl 0, ?_, ?_, endedStarts⟩⟩
  · rw [length]
  · simp only
    omega
  · simp only
    omega

/-! ## Room -/

theorem length_of_sdsMakeRoomFor (holds : s.Holds c) {s' : Sds} {n : Nat}
    (made : sdsMakeRoomFor s n = some s') :
    s'.buf.length ≤ max s.buf.length (2 * (c.length + n) + 1) := by
  have short := holds.short
  unfold sdsMakeRoomFor at made
  split at made
  · cases made
    omega
  · simp only [holds.sdslen_eq] at made
    split at made
    · cases made
      simp only [Region.length_resize]
      unfold sizeofSdshdr toUInt64
      omega
    · cases made

/-- Room is made for `n` bytes, and the string is the same. -/
theorem sdsMakeRoomFor_of_valid (valid : s.Valid c) {n : Nat}
    (twice : 2 * (c.length + n) < 2 ^ 31) :
    ∃ s', sdsMakeRoomFor s n = some s' ∧ s'.Valid c ∧ (n : Int) ≤ s'.free := by
  have holds := valid.holds
  have cap := valid.cap
  have bytes : (List.replicate n (0 : UInt8)).length = n := List.length_replicate
  obtain ⟨s', made, len, starts, room, free, -⟩ :=
    sdsMakeRoomFor_of_holds (t := List.replicate n 0) holds (by omega)
  rw [bytes] at made room
  have size := length_of_sdsMakeRoomFor holds made
  rw [toInt32_of_range (by omega) (by omega)] at free
  have length := len.trans valid.len
  exact ⟨s', made, ⟨length, by omega, by omega, by omega, starts⟩, by omega⟩

/-! ## sdscatlen, sdscpylen and sdsgrowzero -/

theorem sdscatlen_of_valid (valid : s.Valid c) (twice : 2 * (c.length + t.length) < 2 ^ 31) :
    ∃ s', sdscatlen s t = some s' ∧ s'.Valid (c ++ t) := by
  obtain ⟨grown, made, valid', room⟩ := sdsMakeRoomFor_of_valid valid twice
  have len := valid'.len
  have alloc := valid'.alloc
  have cap := valid'.cap
  have copyRoom : c.length + t.length ≤ grown.buf.length := by omega
  obtain ⟨copied, copy, same, starts⟩ := valid'.data.of_append.store copyRoom
  have both : ((c ++ t).length : Int) = c.length + t.length := by
    rw [List.length_append]
    omega
  obtain ⟨ended, stop, done⟩ := valid'.finish same starts (by omega)
  refine ⟨_, ?_, done⟩
  unfold sdscatlen
  rw [both] at stop ⊢
  simp only [made, valid.holds.sdslen_eq, Option.bind_some, copy, stop, Option.map_some,
    Option.some.injEq, Sds.mk.injEq, and_true]
  rw [toInt32_of_range (by omega) (by omega), toInt32_of_range (by omega) (by omega)]
  omega

theorem sdscpylen_of_valid (valid : s.Valid c) (twice : 2 * t.length < 2 ^ 31) :
    ∃ s', sdscpylen s t = some s' ∧ s'.Valid t := by
  have total : ∀ {s : Sds}, s.Valid c →
      toUInt64 (toInt32 (s.free + s.len)) = s.len + s.free := by
    intro s valid
    have len := valid.len
    have free := valid.free
    have alloc := valid.alloc
    have cap := valid.cap
    rw [toInt32_of_range (by omega) (by omega), toUInt64_of_range (by omega) (by omega)]
    omega
  obtain ⟨grown, made, valid', room⟩ : ∃ grown,
      (if toUInt64 (toInt32 (s.free + s.len)) < (t.length : Int) then
        sdsMakeRoomFor s (toUInt64 (t.length - s.len)) else some s) = some grown ∧
      grown.Valid c ∧ (t.length : Int) ≤ grown.len + grown.free := by
    have len := valid.len
    have free := valid.free
    rw [total valid]
    by_cases fits : s.len + s.free < t.length
    case pos =>
      have more : toUInt64 ((t.length : Int) - s.len) = (t.length - c.length : Nat) := by
        rw [toUInt64_of_range (by omega) (by omega)]
        omega
      obtain ⟨grown, made, valid', room⟩ :=
        sdsMakeRoomFor_of_valid (n := t.length - c.length) valid (by omega)
      have len' := valid'.len
      refine ⟨grown, ?_, valid', by omega⟩
      rw [if_pos fits, more]
      exact made
    case neg => exact ⟨s, if_neg fits, valid, by omega⟩
  have len := valid'.len
  have alloc := valid'.alloc
  have cap := valid'.cap
  have front : grown.buf.Starts [] := List.nil_prefix
  have copyRoom : ([] : List UInt8).length + t.length ≤ grown.buf.length := by
    rw [List.length_nil]
    omega
  obtain ⟨copied, copy, same, starts⟩ := front.store copyRoom
  have copy : grown.buf.store 0 t = some copied := copy
  obtain ⟨ended, stop, done⟩ := valid'.finish same starts room
  refine ⟨_, ?_, done⟩
  unfold sdscpylen
  simp only [made, Option.bind_some, total valid', copy, List.nil_append] at stop ⊢
  simp only [stop, Option.map_some, Option.some.injEq, Sds.mk.injEq, and_true]
  rw [toInt32_of_range (by omega) (by omega), toInt32_of_range (by omega) (by omega)]
  exact ⟨rfl, rfl⟩

theorem sdsgrowzero_of_valid (valid : s.Valid c) {len : Nat} (twice : 2 * len < 2 ^ 31) :
    ∃ s', sdsgrowzero s len = some s' ∧
      s'.Valid (c ++ List.replicate (len - c.length) 0) := by
  have curlen : toUInt64 s.len = c.length := valid.holds.sdslen_eq
  unfold sdsgrowzero
  simp only [curlen]
  by_cases enough : len ≤ c.length
  case pos =>
    have none : len - c.length = 0 := by omega
    rw [if_pos (by omega), none, List.replicate_zero, List.append_nil]
    exact ⟨s, rfl, valid⟩
  case neg =>
    obtain ⟨grown, made, valid', room⟩ :=
      sdsMakeRoomFor_of_valid (n := len - c.length) valid (by omega)
    have len' := valid'.len
    have alloc := valid'.alloc
    have cap := valid'.cap
    have left : 0 ≤ grown.len + grown.free - len ∧ grown.len + grown.free - len < 2 ^ 31 := by
      omega
    have more : (len : Int) - c.length = (len - c.length : Nat) := by omega
    have zeros : ((len : Int) - c.length + 1).toNat = len - c.length + 1 := by omega
    have zeroRoom : c.length + (List.replicate (len - c.length + 1) (0 : UInt8)).length ≤
        grown.buf.length := by
      rw [List.length_replicate]
      omega
    obtain ⟨filled, store, same, starts⟩ := valid'.data.of_append.store zeroRoom
    have totlen : toUInt64 (toInt32 (grown.len + grown.free)) = grown.len + grown.free := by
      rw [toInt32_of_range (by omega) (by omega), toUInt64_of_range (by omega) (by omega)]
    have length : toInt32 len = len := toInt32_of_range (by omega) (by omega)
    rw [if_neg (by omega), zeros, more, made, Option.bind_some, store, Option.map_some, totlen,
      length, toInt32_of_range (Int.le_trans (by decide) left.1) left.2]
    refine ⟨_, rfl, ?_, left.1, ?_, ?_, ?_⟩
    · simp only [List.length_append, List.length_replicate]
      omega
    · simp only
      omega
    · simp only
      omega
    · rwa [List.append_assoc, ← List.replicate_succ']

/-! ## sdsclear and sdsrange -/

/-- A string that becomes shorter. -/
theorem Sds.Valid.truncate (valid : s.Valid c) {buf : Region} {d : List UInt8}
    (same : buf.length = s.buf.length) (starts : buf.Starts d) (shorter : d.length ≤ c.length) :
    ∃ s', (buf.store d.length [0]).map (fun buf => Sds.mk (toInt32 d.length)
      (toInt32 (s.free + (s.len - d.length))) buf) = some s' ∧ s'.Valid d := by
  have len := valid.len
  have free := valid.free
  have alloc := valid.alloc
  have cap := valid.cap
  obtain ⟨buf', stored, done⟩ := valid.finish same starts (by omega)
  refine ⟨_, ?_, done⟩
  have length : toInt32 d.length = d.length := toInt32_of_range (by omega) (by omega)
  have left : toInt32 (s.free + (s.len - d.length)) = s.len + s.free - d.length := by
    rw [toInt32_of_range (by omega) (by omega)]
    omega
  rw [stored, Option.map_some, length, left]

theorem sdsclear_of_valid (valid : s.Valid c) : ∃ s', sdsclear s = some s' ∧ s'.Valid [] := by
  have front : s.buf.Starts [] := List.nil_prefix
  obtain ⟨s', stored, valid'⟩ := valid.truncate rfl front (Nat.zero_le _)
  refine ⟨s', ?_, valid'⟩
  have same : s.free + (s.len - (([] : List UInt8).length : Int)) = s.free + s.len := by
    rw [List.length_nil]
    omega
  rw [same] at stored
  exact stored

/-- An index of a slice: a negative one counts from the end, and is clamped to 0. -/
def sliceIndex (c : List UInt8) (i : Int) : Nat :=
  if i < 0 then (c.length + i).toNat else i.toNat

/-- The bytes from one index to another, which is included. -/
def slice (c : List UInt8) (start stop : Int) : List UInt8 :=
  (c.take (sliceIndex c stop + 1)).drop (sliceIndex c start)

theorem rangeIndex_eq (short : c.length < 2 ^ 31) {i : Int} (int : -2 ^ 31 ≤ i ∧ i < 2 ^ 31) :
    rangeIndex c.length i = sliceIndex c i := by
  unfold rangeIndex sliceIndex
  split
  · rw [toInt32_of_range (by omega) (by omega)]
    omega
  · omega

theorem length_slice (c : List UInt8) (start stop : Int) :
    (slice c start stop).length = min (sliceIndex c stop + 1) c.length - sliceIndex c start := by
  unfold slice
  rw [List.length_drop, List.length_take]

/-- The bounds of `sdsrange` are those of the slice. -/
theorem rangeBounds_slice (short : c.length < 2 ^ 31) {start stop : Int}
    (int : -2 ^ 31 ≤ start ∧ start < 2 ^ 31) (int' : -2 ^ 31 ≤ stop ∧ stop < 2 ^ 31) :
    ∃ first, rangeBounds c.length (rangeIndex c.length start) (rangeIndex c.length stop) =
        (first, ((slice c start stop).length : Int)) ∧
      (slice c start stop ≠ [] → first = sliceIndex c start) := by
  have length := length_slice c start stop
  have whole : toInt32 c.length = c.length := toInt32_of_range (by omega) (by omega)
  have nonempty : slice c start stop ≠ [] → 0 < (slice c start stop).length :=
    List.length_pos_of_ne_nil
  rw [rangeIndex_eq short int, rangeIndex_eq short int']
  unfold rangeBounds
  rw [whole]
  by_cases empty : sliceIndex c stop < sliceIndex c start
  case pos =>
    have span : rangeSpan (sliceIndex c start) (sliceIndex c stop) = 0 := if_pos (by omega)
    refine ⟨0, ?_, fun some => by have := nonempty some; omega⟩
    rw [if_neg (not_not_intro span), Prod.mk.injEq]
    omega
  case neg =>
    have span : rangeSpan (sliceIndex c start) (sliceIndex c stop) =
        sliceIndex c stop - sliceIndex c start + 1 := if_neg (by omega)
    refine ⟨sliceIndex c start, ?_, fun _ => rfl⟩
    rw [span, if_pos (by omega)]
    by_cases behind : c.length ≤ sliceIndex c start
    case pos =>
      rw [if_pos (by omega), Prod.mk.injEq]
      omega
    case neg =>
      have last : toInt32 ((c.length : Int) - 1) = c.length - 1 :=
        toInt32_of_range (by omega) (by omega)
      have span' : rangeSpan (sliceIndex c start) (c.length - 1) =
          c.length - 1 - sliceIndex c start + 1 := if_neg (by omega)
      rw [if_neg (by omega), last, span']
      by_cases beyond : c.length ≤ sliceIndex c stop
      case pos =>
        rw [if_pos (by omega), Prod.mk.injEq]
        omega
      case neg =>
        rw [if_neg (by omega), Prod.mk.injEq]
        omega

/-- The slice comes to the front; it is there already if it begins at index 0. -/
theorem move_slice (starts : s.buf.Starts c) (start stop : Int) {first : Int}
    (begins : slice c start stop ≠ [] → first = sliceIndex c start) :
    ∃ buf, (if first ≠ 0 ∧ ((slice c start stop).length : Int) ≠ 0 then
        s.buf.move 0 first (slice c start stop).length else some s.buf) = some buf ∧
      buf.length = s.buf.length ∧ buf.Starts (slice c start stop) := by
  by_cases empty : slice c start stop = []
  case pos =>
    rw [empty]
    exact ⟨s.buf, if_neg (by simp), rfl, List.nil_prefix⟩
  case neg =>
    have length := length_slice c start stop
    have positive := List.length_pos_of_ne_nil empty
    have parts : (c.take (sliceIndex c stop + 1)).take (sliceIndex c start) ++
        slice c start stop = c.take (sliceIndex c stop + 1) := List.take_append_drop ..
    have inside : s.buf.Starts ((c.take (sliceIndex c stop + 1)).take (sliceIndex c start) ++
        slice c start stop) := by
      rw [parts]
      rw [← List.take_append_drop (sliceIndex c stop + 1) c] at starts
      exact starts.of_append
    have front : ((c.take (sliceIndex c stop + 1)).take (sliceIndex c start)).length =
        sliceIndex c start := by
      rw [List.length_take, List.length_take]
      omega
    rw [begins empty]
    by_cases zero : sliceIndex c start = 0
    case pos =>
      refine ⟨s.buf, if_neg (by omega), rfl, ?_⟩
      rwa [zero, List.take_zero, List.nil_append] at inside
    case neg =>
      obtain ⟨buf, moved, same, starts'⟩ := inside.move
      rw [front] at moved
      exact ⟨buf, (if_pos (by omega)).trans moved, same, starts'⟩

/-- **`sdsrange` is a slice.** -/
theorem sdsrange_of_valid (valid : s.Valid c) (twice : 2 * c.length < 2 ^ 31) {start stop : Int}
    (int : -2 ^ 31 ≤ start ∧ start < 2 ^ 31) (int' : -2 ^ 31 ≤ stop ∧ stop < 2 ^ 31) :
    ∃ s', sdsrange s start stop = some s' ∧ s'.Valid (slice c start stop) := by
  have length := length_slice c start stop
  unfold sdsrange
  simp only [valid.holds.sdslen_eq]
  by_cases empty : c = []
  case pos =>
    subst empty
    have none : slice [] start stop = [] := by
      unfold slice
      rw [List.take_nil, List.drop_nil]
    rw [none]
    exact ⟨s, rfl, valid⟩
  case neg =>
    have positive := List.length_pos_of_ne_nil empty
    obtain ⟨first, bounds, begins⟩ := rangeBounds_slice (c := c) (by omega) int int'
    obtain ⟨buf, moved, same, starts⟩ := move_slice valid.data.of_append start stop begins
    obtain ⟨s', stored, valid'⟩ := valid.truncate same starts (by omega)
    refine ⟨s', ?_, valid'⟩
    rw [if_neg (by omega)]
    simp only [bounds, moved, Option.bind_some]
    exact stored

/-! ## sdstrim -/

/-- Without the bytes of `cset` and NULs at both ends. -/
def trimmed (cset c : List UInt8) : List UInt8 :=
  (c.dropWhile (strchr cset)).rdropWhile (strchr cset)

/-- The first loop stops at the first byte that stays. -/
theorem trimStart_eq {buf : Region} {before rest : List UInt8} (cset : List UInt8)
    (starts : buf.Starts (before ++ rest)) {rounds : Nat} (enough : rest.length < rounds) :
    trimStart buf cset ((before ++ rest).length - 1) rounds before.length =
      some ((before.length + (rest.takeWhile (strchr cset)).length : Nat) : Int) := by
  induction rest generalizing before rounds with
  | nil =>
      obtain ⟨rounds, rfl⟩ := Nat.exists_eq_add_of_lt enough
      rw [List.append_nil, List.takeWhile_nil]
      exact if_neg (by omega)
  | cons b rest ih =>
      obtain ⟨rounds, rfl⟩ : ∃ n, rounds = n + 1 := ⟨rounds - 1, by omega⟩
      have inside : (before.length : Int) ≤ (before ++ b :: rest).length - 1 := by
        rw [List.length_append, List.length_cons]
        omega
      unfold trimStart
      rw [if_pos inside, starts.byte, Option.bind_some]
      by_cases drop : strchr cset b = true
      case pos =>
        have shape : before ++ b :: rest = (before ++ [b]) ++ rest := by simp
        have next : (before.length : Int) + 1 = (before ++ [b]).length := by
          rw [List.length_append, List.length_singleton]
          omega
        rw [shape] at starts
        rw [List.length_cons] at enough
        rw [if_pos drop, shape, next, ih starts (by omega), List.takeWhile_cons_of_pos drop]
        simp only [List.length_append, List.length_cons, List.length_nil]
        congr 2
        omega
      case neg =>
        rw [if_neg drop, List.takeWhile_cons_of_neg drop]
        rfl

/-- The second loop stops at the last byte that stays, or at the first byte. -/
theorem trimEnd_eq {buf : Region} (cset : List UInt8) {before : List UInt8}
    (starts : buf.Starts before) {rounds : Nat} (enough : before.length < rounds) :
    ∃ ep, trimEnd buf cset rounds (before.length - 1) = some ep ∧
      (before.rdropWhile (strchr cset) = [] → ep ≤ 0 ∧ ep < before.length) ∧
      (before.rdropWhile (strchr cset) ≠ [] →
        ep = (before.rdropWhile (strchr cset)).length - 1) := by
  obtain ⟨rounds, rfl⟩ : ∃ n, rounds = n + 1 := ⟨rounds - 1, by omega⟩
  induction before using List.reverseRecOn generalizing rounds with
  | nil => exact ⟨-1, rfl, fun _ => by decide, fun some => absurd rfl some⟩
  | append_singleton before b ih =>
      rw [List.length_append, List.length_singleton] at enough
      have last : ((before ++ [b]).length : Int) - 1 = before.length := by
        rw [List.length_append, List.length_singleton]
        omega
      rw [last]
      unfold trimEnd
      by_cases first : before = []
      case pos =>
        subst first
        refine ⟨0, if_neg (by decide), fun _ => by simp, fun some => ?_⟩
        have drop : strchr cset b ≠ true := by
          intro drop
          rw [List.rdropWhile_concat_pos _ _ _ drop] at some
          exact some rfl
        rw [List.rdropWhile_concat_neg _ _ _ drop]
        rfl
      case neg =>
        have positive := List.length_pos_of_ne_nil first
        rw [if_pos (by omega), starts.byte, Option.bind_some]
        by_cases drop : strchr cset b = true
        case pos =>
          obtain ⟨rounds, rfl⟩ : ∃ n, rounds = n + 1 := ⟨rounds - 1, by omega⟩
          obtain ⟨ep, ran, none, some⟩ := ih starts.of_append rounds (by omega)
          rw [if_pos drop, List.rdropWhile_concat_pos _ _ _ drop]
          refine ⟨ep, ran, fun empty => ?_, some⟩
          have := none empty
          rw [List.length_append]
          omega
        case neg =>
          rw [if_neg drop, List.rdropWhile_concat_neg _ _ _ drop]
          refine ⟨_, rfl, fun empty => by simp at empty, fun _ => last.symm⟩

/-- What is dropped at the start, what stays, and what is dropped at the end. -/
theorem trimmed_split (cset c : List UInt8) :
    ∃ behind, c.takeWhile (strchr cset) ++ trimmed cset c ++ behind = c := by
  obtain ⟨behind, split⟩ := List.rdropWhile_prefix (strchr cset) (c.dropWhile (strchr cset))
  refine ⟨behind, ?_⟩
  rw [List.append_assoc, trimmed, split, List.takeWhile_append_dropWhile]

/-- The end of what stays, from the whole string. -/
theorem rdropWhile_eq_trimmed (cset c : List UInt8) :
    c.rdropWhile (strchr cset) =
      if trimmed cset c = [] then [] else c.takeWhile (strchr cset) ++ trimmed cset c := by
  have split : c = c.takeWhile (strchr cset) ++ c.dropWhile (strchr cset) :=
    List.takeWhile_append_dropWhile.symm
  have gone : (c.takeWhile (strchr cset)).rdropWhile (strchr cset) = [] :=
    List.rdropWhile_eq_nil_iff.mpr fun _ mem => List.mem_takeWhile_imp mem
  conv_lhs => rw [split, List.rdropWhile, List.reverse_append, List.dropWhile_append]
  unfold trimmed
  by_cases empty : (c.dropWhile (strchr cset)).rdropWhile (strchr cset) = []
  case pos =>
    have reversed : ((c.dropWhile (strchr cset)).reverse.dropWhile (strchr cset)).isEmpty := by
      rw [List.isEmpty_iff]
      exact List.reverse_eq_nil_iff.mp empty
    rw [if_pos empty, if_pos reversed]
    exact gone
  case neg =>
    have reversed : ¬ ((c.dropWhile (strchr cset)).reverse.dropWhile (strchr cset)).isEmpty := by
      rw [List.isEmpty_iff]
      exact fun none => empty (List.reverse_eq_nil_iff.mpr none)
    rw [if_neg empty, if_neg reversed, List.reverse_append, List.reverse_reverse]
    rfl

/-- Where nothing stays, all was skipped at the front. -/
theorem length_takeWhile_of_trimmed_nil {cset c : List UInt8} (empty : trimmed cset c = []) :
    (c.takeWhile (strchr cset)).length = c.length := by
  have dropped := List.rdropWhile_eq_nil_iff.mp empty
  have clean : c.dropWhile (strchr cset) = [] := by
    by_contra first
    have head := List.head_dropWhile_not (strchr cset) first
    rw [dropped _ (List.head_mem first)] at head
    cases head
  have whole : c.takeWhile (strchr cset) ++ c.dropWhile (strchr cset) = c :=
    List.takeWhile_append_dropWhile
  rw [clean, List.append_nil] at whole
  rw [whole]

/-- Both loops together find where what stays is, and how long it is. -/
theorem trim_bounds {buf : Region} {c : List UInt8} (starts : buf.Starts c) (cset : List UInt8) :
    ∃ ep, trimStart buf cset (c.length - 1) (c.length + 1) 0 =
        some ((c.takeWhile (strchr cset)).length : Int) ∧
      trimEnd buf cset (c.length + 1) (c.length - 1) = some ep ∧
      (if ep < (c.takeWhile (strchr cset)).length then 0
        else ep - (c.takeWhile (strchr cset)).length + 1) = ((trimmed cset c).length : Int) := by
  have front : trimStart buf cset (c.length - 1) (c.length + 1) 0 =
      some ((c.takeWhile (strchr cset)).length : Int) := by
    have whole : buf.Starts ([] ++ c) := starts
    have ran := trimStart_eq cset whole (Nat.lt_succ_self c.length)
    rw [List.nil_append, List.length_nil, Nat.zero_add] at ran
    exact ran
  obtain ⟨ep, back, gone, kept⟩ := trimEnd_eq cset starts (Nat.lt_succ_self c.length)
  rw [rdropWhile_eq_trimmed] at gone kept
  refine ⟨ep, front, back, ?_⟩
  by_cases empty : trimmed cset c = []
  case pos =>
    rw [if_pos empty] at gone
    have before := gone rfl
    have all := length_takeWhile_of_trimmed_nil empty
    rw [empty, List.length_nil, if_pos (by omega)]
    rfl
  case neg =>
    have positive := List.length_pos_of_ne_nil empty
    rw [if_neg empty] at kept
    have last := kept fun nil => empty (List.append_eq_nil_iff.mp nil).2
    rw [List.length_append] at last
    rw [if_neg (by omega)]
    omega

/-- **`sdstrim` trims.** -/
theorem sdstrim_of_valid (valid : s.Valid c) (cset : List UInt8) :
    ∃ s', sdstrim s cset = some s' ∧ s'.Valid (trimmed cset c) := by
  have len := valid.holds.sdslen_eq
  have starts := valid.data.of_append
  obtain ⟨ep, front, back, count⟩ := trim_bounds starts cset
  obtain ⟨behind, split⟩ := trimmed_split cset c
  have lengths := congrArg List.length split
  rw [List.length_append, List.length_append] at lengths
  obtain ⟨buf, moved, same, starts'⟩ : ∃ buf,
      (if ((c.takeWhile (strchr cset)).length : Int) ≠ 0 then
        s.buf.move 0 (c.takeWhile (strchr cset)).length (trimmed cset c).length
        else some s.buf) = some buf ∧
      buf.length = s.buf.length ∧ buf.Starts (trimmed cset c) := by
    rw [← split] at starts
    by_cases zero : (c.takeWhile (strchr cset)).length = 0
    case pos =>
      refine ⟨s.buf, if_neg (by omega), rfl, ?_⟩
      have starts' := starts.of_append
      rwa [List.eq_nil_of_length_eq_zero zero, List.nil_append] at starts'
    case neg =>
      rw [if_pos (by omega)]
      exact starts.of_append.move
  obtain ⟨s', stored, valid'⟩ := valid.truncate same starts' (by omega)
  refine ⟨s', ?_, valid'⟩
  unfold sdstrim
  simp only [len, Int.toNat_natCast]
  rw [front, Option.bind_some, back, Option.bind_some, count, moved, Option.bind_some]
  exact stored

end Verben
