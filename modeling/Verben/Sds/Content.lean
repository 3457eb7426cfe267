import Verben.Sds.Model

/-!
# Strings as byte lists

`Sds.Holds s c` says that the string is well formed and holds the bytes `c`: the
`int` fields describe the allocation, and the bytes end with a NUL. Each operation
of `src/sds.c` is one on byte lists as long as the result has less than 2 ^ 31
bytes (`sdscatlen_of_holds`, `sdsrange_of_holds`, `sdsclear_of_holds`). An append
past that makes `len` negative (`sdscatlen_of_overflow`).

`free` may be negative in a well-formed string: an append allocates twice the
length, and that may exceed an `int` although the length does not. `sdsavail` is
then close to 2 ^ 64, and there is room indeed.
-/

namespace Verben

open CInt

/-- The string holds the bytes `c`. -/
structure Sds.Holds (s : Sds) (c : List UInt8) : Prop where
  len : s.len = c.length
  short : c.length < 2 ^ 31
  free : s.free = toInt32 ((s.buf.length : Int) - 1 - c.length)
  cap : s.buf.length ≤ 2 ^ 33
  data : s.buf.Starts (c ++ [0])

theorem holds_sdsempty : sdsempty.Holds [] :=
  ⟨rfl, by decide, by decide, by decide, List.prefix_refl _⟩

variable {s : Sds} {c t : List UInt8}

theorem Sds.Holds.room (holds : s.Holds c) : c.length < s.buf.length := by
  have := holds.data.length_le
  rw [List.length_append] at this
  exact this

theorem Sds.Holds.sdslen_eq (holds : s.Holds c) : sdslen s = c.length := by
  have short := holds.short
  unfold sdslen
  rw [holds.len, toUInt64_of_range (by omega) (by omega)]

theorem Sds.Holds.content_eq (holds : s.Holds c) : s.content = c := by
  unfold Sds.content
  rw [holds.len, Int.toNat_natCast, holds.data.of_append.take_eq]
  rw [List.reduceOption, List.filterMap_map]
  exact List.filterMap_some

/-- A negative `len` shows nothing. -/
theorem content_of_negative (negative : s.len ≤ 0) : s.content = [] := by
  unfold Sds.content
  rw [Int.toNat_of_nonpos negative]
  rfl

/-! ## Room -/

/-- There is room wherever `sdsavail` says so. -/
theorem Sds.Holds.room_of_sdsavail (holds : s.Holds c) (short : t.length < 2 ^ 31)
    (avail : (t.length : Int) ≤ sdsavail s) : c.length + t.length + 1 ≤ s.buf.length := by
  have room := holds.room
  unfold sdsavail at avail
  rw [holds.free] at avail
  by_cases negative : (2 : Int) ^ 31 ≤ s.buf.length - 1 - c.length
  · omega
  · rw [toInt32_of_range (by omega) (by omega), toUInt64_of_range (by omega) (by omega)] at avail
    omega

/-- What `sds_make_room_for` leaves: the same bytes, and room behind them. -/
theorem sdsMakeRoomFor_of_holds (holds : s.Holds c) (short : t.length < 2 ^ 31) :
    ∃ s', sdsMakeRoomFor s t.length = some s' ∧ s'.len = s.len ∧ s'.buf.Starts (c ++ [0]) ∧
      c.length + t.length + 1 ≤ s'.buf.length ∧
      s'.free = toInt32 ((s'.buf.length : Int) - 1 - c.length) ∧ s'.buf.length ≤ 2 ^ 33 := by
  have shortC := holds.short
  unfold sdsMakeRoomFor
  by_cases avail : (t.length : Int) ≤ sdsavail s
  · rw [if_pos avail]
    exact ⟨s, rfl, rfl, holds.data, holds.room_of_sdsavail short avail, holds.free, holds.cap⟩
  · have newlen : toUInt64 (((c.length : Int) + t.length) * 2) = (c.length + t.length) * 2 :=
      toUInt64_of_range (by omega) (by omega)
    have size : toUInt64 (sizeofSdshdr + (c.length + t.length) * 2 + 1) =
        (c.length + t.length) * 2 + 9 := by
      unfold sizeofSdshdr
      rw [toUInt64_of_range (by omega) (by omega)]
      omega
    have bytes : ((c.length + t.length : Int) * 2 + 9 - sizeofSdshdr).toNat =
        (c.length + t.length) * 2 + 1 := by
      unfold sizeofSdshdr
      omega
    have granted : sizeofSdshdr ≤ (c.length + t.length : Int) * 2 + 9 ∧
        (c.length + t.length : Int) * 2 + 9 < 2 ^ 63 := by
      unfold sizeofSdshdr
      omega
    have grown : c.length + 1 ≤ (c.length + t.length) * 2 + 1 := by omega
    simp only [if_neg avail, holds.sdslen_eq, newlen, size, if_pos granted, bytes]
    refine ⟨_, rfl, rfl, holds.data.resize (by rwa [List.length_append]), ?_, ?_, ?_⟩
    · simp only [Region.length_resize]
      omega
    · simp only [Region.length_resize]
      congr 1
      omega
    · simp only [Region.length_resize]
      omega

/-! ## sdscatlen -/

/-- An append stores the bytes and the NUL behind them, and adds up the lengths in
an `int`. -/
theorem sdscatlen_stores (holds : s.Holds c) (short : t.length < 2 ^ 31) :
    ∃ s', sdscatlen s t = some s' ∧ s'.len = toInt32 (c.length + t.length) ∧
      s'.free = toInt32 ((s'.buf.length : Int) - 1 - (c ++ t).length) ∧
      s'.buf.Starts (c ++ t ++ [0]) ∧ s'.buf.length ≤ 2 ^ 33 := by
  obtain ⟨grown, made, _, starts, room, free, cap⟩ := sdsMakeRoomFor_of_holds holds short
  have copyRoom : c.length + t.length ≤ grown.buf.length := by omega
  obtain ⟨copied, copy, copiedLen, copiedStarts⟩ := starts.of_append.store copyRoom
  have nulRoom : (c ++ t).length + [(0 : UInt8)].length ≤ copied.length := by
    rw [List.length_append, List.length_singleton]
    omega
  obtain ⟨ended, stop, endedLen, endedStarts⟩ := copiedStarts.store nulRoom
  have offset : (c.length : Int) + t.length = (c ++ t).length := by
    rw [List.length_append]
    omega
  unfold sdscatlen
  simp only [made, holds.sdslen_eq, Option.bind_some, copy, offset, stop, Option.map_some]
  refine ⟨_, rfl, by simp only, ?_, endedStarts, ?_⟩
  · simp only
    rw [endedLen, copiedLen, free, toInt32_sub_left, List.length_append]
    congr 1
    omega
  · simp only
    rw [endedLen, copiedLen]
    exact cap

/-- **`sdscatlen` appends.** -/
theorem sdscatlen_of_holds (holds : s.Holds c) (fits : c.length + t.length < 2 ^ 31) :
    ∃ s', sdscatlen s t = some s' ∧ s'.Holds (c ++ t) := by
  obtain ⟨s', cat, len, free, starts, cap⟩ := sdscatlen_stores (t := t) holds (by omega)
  refine ⟨s', cat, ⟨?_, ?_, free, cap, starts⟩⟩
  · rw [len, toInt32_of_range (by omega) (by omega), List.length_append]
    omega
  · rw [List.length_append]
    exact fits

/-- A string to which too much was appended: the bytes `c` are there, and `len` is
negative. -/
structure Sds.Wrapped (s : Sds) (c : List UInt8) : Prop where
  len : s.len = (c.length : Int) - 2 ^ 32
  long : 2 ^ 31 ≤ c.length ∧ c.length < 2 ^ 32
  free : s.free = toInt32 ((s.buf.length : Int) - 1 - c.length)
  cap : s.buf.length ≤ 2 ^ 33
  data : s.buf.Starts (c ++ [0])

/-- **An append past 2 ^ 31 - 1 bytes leaves a negative `len`.** -/
theorem sdscatlen_of_overflow (holds : s.Holds c) (short : t.length < 2 ^ 31)
    (exceeds : 2 ^ 31 ≤ c.length + t.length) :
    ∃ s', sdscatlen s t = some s' ∧ s'.Wrapped (c ++ t) := by
  obtain ⟨s', cat, len, free, starts, cap⟩ := sdscatlen_stores holds short
  have shortC := holds.short
  refine ⟨s', cat, ⟨?_, ?_, free, cap, starts⟩⟩
  · rw [len, toInt32_of_overflow (by omega) (by omega), List.length_append]
    omega
  · rw [List.length_append]
    omega

section Wrapped

variable (wrapped : s.Wrapped c)

include wrapped

theorem Sds.Wrapped.content_eq : s.content = [] := by
  have long := wrapped.long
  apply content_of_negative
  rw [wrapped.len]
  omega

theorem Sds.Wrapped.sdslen_eq : sdslen s = (c.length : Int) - 2 ^ 32 + 2 ^ 64 := by
  have long := wrapped.long
  unfold sdslen toUInt64
  rw [wrapped.len]
  omega

/-- Nothing can be appended to it: the offset is not in the allocation. -/
theorem sdscatlen_of_wrapped (t : List UInt8) : sdscatlen s t = none := by
  have long := wrapped.long
  have cap := wrapped.cap
  have outside : ∀ {r : Region} {bs : List UInt8}, (r.length : Int) < 2 ^ 63 →
      r.store (sdslen s) bs = none := by
    intro r bs small
    apply if_neg
    rw [wrapped.sdslen_eq]
    omega
  unfold sdscatlen sdsMakeRoomFor
  simp only
  split
  · rw [Option.bind_some, outside (by omega), Option.bind_none]
  · split
    · next granted =>
        rw [Option.bind_some, outside, Option.bind_none]
        unfold sizeofSdshdr at granted ⊢
        rw [Region.length_resize]
        omega
    · rfl

/-- `sdsrange` from `n` on empties it. -/
theorem sdsrange_of_wrapped {n : Nat} (positive : 0 < n) (small : n < 2 ^ 31) :
    ∃ s', sdsrange s n (-1) = some s' ∧ s'.Holds [] := by
  have long := wrapped.long
  have first : rangeIndex (sdslen s) n = n := if_neg (by omega)
  have none : ∃ start, rangeBounds (sdslen s) n (rangeIndex (sdslen s) (-1)) = (start, 0) := by
    unfold rangeBounds
    split
    · rw [if_pos]
      · exact ⟨_, rfl⟩
      · rw [wrapped.sdslen_eq]
        unfold toInt32
        split <;> omega
    · exact ⟨_, rfl⟩
  rcases none with ⟨start, bounds⟩
  have starts : s.buf.Starts [] := List.nil_prefix
  have room := wrapped.data.length_le
  rw [List.length_append, List.length_singleton] at room
  have nulRoom : ([] : List UInt8).length + [(0 : UInt8)].length ≤ s.buf.length := by
    rw [List.length_nil, List.length_singleton]
    omega
  obtain ⟨buf, stored, same, ended⟩ := starts.store nulRoom
  have stored : s.buf.store 0 [0] = some buf := stored
  refine ⟨⟨0, toInt32 (s.free + (s.len - 0)), buf⟩, ?_, ⟨rfl, by decide, ?_, ?_, ended⟩⟩
  · unfold sdsrange
    simp only [first, bounds]
    rw [if_neg (by rw [wrapped.sdslen_eq]; omega), if_neg (by simp), Option.bind_some, stored]
    rfl
  · simp only
    rw [wrapped.free, wrapped.len, toInt32_add_left, same, List.length_nil]
    unfold toInt32
    split <;> split <;> omega
  · simp only
    rw [same]
    exact wrapped.cap

end Wrapped

/-! ## sdsclear and sdsrange -/

/-- A shorter string in the same allocation, once its NUL is stored. -/
theorem holds_of_truncate (holds : s.Holds c) {buf : Region} {d : List UInt8}
    (same : buf.length = s.buf.length) (shorter : d.length ≤ c.length) (starts : buf.Starts d) :
    ∃ buf', buf.store d.length [0] = some buf' ∧
      (Sds.mk d.length (toInt32 (s.free + (s.len - d.length))) buf').Holds d := by
  have room := holds.room
  have nulRoom : d.length + [(0 : UInt8)].length ≤ buf.length := by
    rw [List.length_singleton]
    omega
  obtain ⟨buf', stored, len, ended⟩ := starts.store nulRoom
  have short := holds.short
  refine ⟨buf', stored, ⟨rfl, by omega, ?_, ?_, ended⟩⟩
  · simp only
    rw [holds.free, holds.len, toInt32_add_left, len, same]
    congr 1
    omega
  · simp only
    rw [len, same]
    exact holds.cap

/-- **`sdsclear` empties.** -/
theorem sdsclear_of_holds (holds : s.Holds c) : ∃ s', sdsclear s = some s' ∧ s'.Holds [] := by
  have starts : s.buf.Starts [] := List.nil_prefix
  obtain ⟨buf, stored, cleared⟩ := holds_of_truncate holds rfl (Nat.zero_le _) starts
  have stored : s.buf.store 0 [0] = some buf := stored
  refine ⟨⟨0, toInt32 (s.free + s.len), buf⟩, ?_, ?_⟩
  · unfold sdsclear
    rw [stored]
    rfl
  · have same : s.free + (s.len - (([] : List UInt8).length : Int)) = s.free + s.len := by
      simp
    rw [same] at cleared
    exact cleared

/-- The bounds of the slice from `n` to the end. -/
theorem rangeBounds_of_drop (n : Nat) (nonempty : c ≠ []) (short : c.length < 2 ^ 31)
    (inside : n ≤ c.length) :
    rangeBounds c.length (rangeIndex c.length n) (rangeIndex c.length (-1)) =
      if n = c.length then (0, 0) else ((n : Int), ((c.drop n).length : Int)) := by
  have positive : 0 < c.length := List.length_pos_of_ne_nil nonempty
  have first : rangeIndex c.length n = n := if_neg (by omega)
  have last : rangeIndex c.length (-1) = c.length - 1 := by
    unfold rangeIndex
    rw [if_pos (by decide), toInt32_of_range (by omega) (by omega)]
    omega
  have len : toInt32 c.length = c.length := toInt32_of_range (by omega) (by omega)
  unfold rangeBounds rangeSpan
  rw [first, last, len, List.length_drop]
  by_cases all : n = c.length
  · rw [if_pos all, if_neg]
    simp only [ne_eq, Decidable.not_not]
    exact if_pos (by omega)
  · have some : ¬ ((c.length : Int) - 1 < n) := by omega
    have count : (c.length : Int) - 1 - n + 1 = (c.length - n : Nat) := by omega
    rw [if_neg all, if_neg some, if_pos (by omega), if_neg (by omega), if_neg (by omega), count]

/-- **`sdsrange` from `n` on drops `n` bytes.** -/
theorem sdsrange_of_holds (holds : s.Holds c) {n : Nat} (inside : n ≤ c.length) :
    ∃ s', sdsrange s n (-1) = some s' ∧ s'.Holds (c.drop n) := by
  unfold sdsrange
  rw [holds.sdslen_eq]
  by_cases empty : c = []
  · subst empty
    exact ⟨s, rfl, by rwa [List.drop_nil]⟩
  · have positive : 0 < c.length := List.length_pos_of_ne_nil empty
    have short := holds.short
    simp only [rangeBounds_of_drop n empty short inside]
    rw [if_neg (by omega)]
    have dropped := List.length_drop (l := c) (i := n)
    -- nothing moves where the slice is empty, or where it is the whole string
    obtain ⟨buf, moved, same, starts⟩ : ∃ buf,
        (if n = c.length ∨ n = 0 then some s.buf
          else s.buf.move 0 n (c.drop n).length) = some buf ∧
        buf.length = s.buf.length ∧ buf.Starts (c.drop n) := by
      by_cases edge : n = c.length ∨ n = 0
      · refine ⟨s.buf, if_pos edge, rfl, ?_⟩
        rcases edge with all | none
        · rw [all, List.drop_length]
          exact List.nil_prefix
        · rw [none, List.drop_zero]
          exact holds.data.of_append
      · have split : c.take n ++ c.drop n = c := List.take_append_drop n c
        have whole : s.buf.Starts (c.take n ++ c.drop n) := by
          rw [split]
          exact holds.data.of_append
        have taken : (c.take n).length = n := List.length_take_of_le inside
        have := whole.move
        rw [taken] at this
        rwa [if_neg edge]
    obtain ⟨buf', stored, done⟩ :=
      holds_of_truncate holds same (by rw [dropped]; omega) starts
    have narrow : toInt32 ((c.drop n).length : Int) = (c.drop n).length :=
      toInt32_of_range (by omega) (by omega)
    refine ⟨_, ?_, done⟩
    by_cases all : n = c.length
    · have none : (c.drop n).length = 0 := by omega
      rw [if_pos (Or.inl all)] at moved
      rw [if_pos all, if_neg (by simp), moved]
      rw [none] at stored narrow ⊢
      simp only [Option.bind_some]
      rw [show ((0 : Int)) = ((0 : Nat) : Int) from rfl, stored, narrow]
      rfl
    · rw [if_neg all]
      by_cases zero : n = 0
      · rw [if_pos (Or.inr zero)] at moved
        rw [if_neg (by simp [zero]), moved]
        simp only [Option.bind_some, stored, Option.map_some, narrow]
      · rw [if_neg (by omega)] at moved
        have both : (n : Int) ≠ 0 ∧ ((c.drop n).length : Int) ≠ 0 := by omega
        rw [if_pos both, moved]
        simp only [Option.bind_some, stored, Option.map_some, narrow]

end Verben
