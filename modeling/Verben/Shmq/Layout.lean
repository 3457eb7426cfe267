import Mathlib.Data.Nat.Bitwise
import Verben.Lib.Extents
import Verben.Shmq.Model

/-!
# The layout of the ring

`Layout q live` describes every state the two calls can leave the ring in, with
`live` the blocks a walk from `head` finds before `tail`:

* `tiny`: the mapping has no room behind its header;
* `line`: `head ≤ tail`. The blocks fill `[head, tail)`, and the blocks of the
  same lap that were popped already still fill `[start, head)`. `tail` may be
  parked at `size`, but then `head` is past `start`;
* `wrap`: `tail < head`. The older blocks fill `[head, seam)`, where the seam is
  `size` or a pad, and the blocks of the current lap fill `[start, tail)`;
* `stale`: `tail` is parked at `size` and `head` was reset to `start`, with every
  block popped. Only a pop with both offsets at `size` that then finds no memory
  leaves the ring so.

The popped blocks of the lap are part of the invariant because that pop goes
back to them.
-/

namespace Verben

open CInt Extents Set

/-! ## Blocks -/

/-- A block of the ring: its offset and its data. -/
structure Blk : Type where
  off : Int
  data : List UInt8

/-- The aligned size of a block in exact arithmetic. -/
def blkSpan (data : List UInt8) : Int := (data.length + 15) / 8 * 8

/-- The aligned block size fits an `int`. -/
def FitsInt (data : List UInt8) : Prop := blkSpan data < 2 ^ 31

instance (data : List UInt8) : Decidable (FitsInt data) :=
  inferInstanceAs (Decidable (blkSpan data < 2 ^ 31))

/-- The offset one past a block. -/
def Blk.stop (k : Blk) : Int := k.off + blkSpan k.data

/-- The ring's memory holds the block. -/
structure Blk.Held (m : ByteMem) (k : Blk) : Prop where
  size : m.readWord k.off = k.data.length + 8
  data : m.read (k.off + 8) k.data.length = k.data
  fits : FitsInt k.data

theorem blkSpan_bounds (data : List UInt8) :
    data.length + 8 ≤ blkSpan data ∧ blkSpan data < data.length + 16 := by
  unfold blkSpan
  omega

theorem blkSpan_dvd (data : List UInt8) : (8 : Int) ∣ blkSpan data := Int.dvd_mul_left _ _

theorem Blk.off_lt_stop (k : Blk) : k.off < k.stop := by
  have := blkSpan_bounds k.data
  unfold Blk.stop
  omega

theorem Blk.dvd_stop_sub_off (k : Blk) : (8 : Int) ∣ k.stop - k.off := by
  have := blkSpan_dvd k.data
  unfold Blk.stop
  rwa [show k.off + blkSpan k.data - k.off = blkSpan k.data by omega]

/-- Writes outside a block's extent leave it held. -/
theorem Blk.Held.congr {m m' : ByteMem} {k : Blk} (held : k.Held m)
    (same : EqOn m' m (Ico k.off k.stop)) : k.Held m' := by
  have span := blkSpan_bounds k.data
  have fits : k.off + 8 + k.data.length ≤ k.stop := by
    unfold Blk.stop
    omega
  exact ⟨(ByteMem.readWord_congr same (Int.le_refl _) (by omega)).trans held.size,
    (ByteMem.read_congr same (by omega) fits).trans held.data, held.fits⟩

/-! ## The size word -/

theorem and_padBlock_of_lt {w : Nat} (small : w < 2 ^ 63) : w &&& padBlock = 0 := by
  have pad : padBlock = 2 ^ 63 := by decide
  rw [pad, Nat.and_two_pow, Nat.testBit_lt_two_pow small]
  rfl

theorem or_padBlock_and_padBlock (w : Nat) : (w ||| padBlock) &&& padBlock ≠ 0 := by
  have pad : padBlock = 2 ^ 63 := by decide
  have bit : (w ||| padBlock).testBit 63 = true := by
    rw [Nat.testBit_or, pad, Nat.testBit_two_pow_self, Bool.or_true]
  rw [pad, Nat.and_two_pow, ← pad, bit]
  decide

theorem and_maxBlkSize_of_lt {w : Nat} (small : w < 2 ^ 63) : w &&& maxBlkSize = w := by
  have mask : maxBlkSize = 2 ^ 63 - 1 := by decide
  rw [mask, Nat.and_two_pow_sub_one_eq_mod, Nat.mod_eq_of_lt small]

theorem or_padBlock_lt {w : Nat} (small : w < 2 ^ 63) : w ||| padBlock < 2 ^ 64 :=
  Nat.or_lt_two_pow (Nat.lt_trans small (by decide)) (by decide)

theorem Blk.Held.small {m : ByteMem} {k : Blk} (held : k.Held m) :
    m.readWord k.off < 2 ^ 63 := by
  have span := blkSpan_bounds k.data
  have fits : blkSpan k.data < 2 ^ 31 := held.fits
  rw [held.size]
  omega

/-! ## The arithmetic of the calls -/

theorem shmqAlign_of_range {n : Int} (low : 0 ≤ n) (high : n < 2 ^ 64 - 7) :
    shmqAlign n = (n + 7) / 8 * 8 := by
  unfold shmqAlign sizeofBlock
  rw [toUInt64_of_range (by omega) (by omega)]
  omega

/-- The size a push reserves, before it is stored in an `int`. -/
theorem shmqAlign_block {data : List UInt8} (small : blkSpan data < 2 ^ 63) :
    shmqAlign (toUInt64 (sizeofBlock + data.length)) = blkSpan data := by
  have span := blkSpan_bounds data
  unfold sizeofBlock
  rw [toUInt64_of_range (by omega) (by omega), shmqAlign_of_range (by omega) (by omega)]
  unfold blkSpan
  omega

theorem reqSize_of_fits {data : List UInt8} (fits : FitsInt data) :
    reqSize data.length = blkSpan data := by
  have span := blkSpan_bounds data
  unfold FitsInt at fits
  unfold reqSize
  rw [shmqAlign_block (by omega), toInt32_of_range (by omega) fits]

/-- What every queue of `shmq_init` has: an aligned ring inside an address space. -/
structure Shmq.Ring (q : Shmq) : Prop where
  start_eq : q.start = 24
  size_nonneg : 0 ≤ q.size
  size_lt : q.size < 2 ^ 63
  size_dvd : (8 : Int) ∣ q.size

theorem shmqAlign_header : shmqAlign sizeofHeader = 24 := by decide

/-! ## Layouts -/

/-- The states of the ring, with the blocks from `head` to `tail`. -/
inductive Layout (q : Shmq) : List Blk → Prop
  | tiny : q.size ≤ q.start → q.head = q.start → q.tail = q.start → Layout q []
  | line {past live : List Blk} :
    q.start < q.size →
    Fill Blk.off Blk.stop q.start past q.head →
    Fill Blk.off Blk.stop q.head live q.tail →
    q.tail ≤ q.size →
    (q.tail = q.size → q.head ≠ q.start) →
    (∀ k ∈ past ++ live, k.Held q.mem) →
    Layout q live
  | wrap {high low : List Blk} {seam : Int} :
    q.start < q.size →
    (8 : Int) ∣ q.head →
    Fill Blk.off Blk.stop q.head high seam →
    Fill Blk.off Blk.stop q.start low q.tail →
    q.tail < q.head →
    seam = q.size ∨ (seam < q.size ∧ low ≠ [] ∧ q.mem.readWord seam &&& padBlock ≠ 0) →
    (∀ k ∈ high ++ low, k.Held q.mem) →
    Layout q (high ++ low)
  | stale {past : List Blk} :
    q.start < q.size → q.head = q.start → q.tail = q.size →
    Fill Blk.off Blk.stop q.start past q.size →
    (∀ k ∈ past, k.Held q.mem) →
    Layout q []

/-- The block count is not part of the layout. -/
theorem Layout.blkCnt {q : Shmq} {live : List Blk} (layout : Layout q live) (n : Int) :
    Layout { q with blkCnt := n } live := by
  cases layout with
  | tiny small head tail => exact .tiny small head tail
  | line room behind ahead tailLe apart held =>
      exact .line room behind ahead tailLe apart held
  | wrap room aligned upper lower tailLt seam held =>
      exact .wrap room aligned upper lower tailLt seam held
  | stale room head tail behind held => exact .stale room head tail behind held

/-- Both offsets are inside the ring, or at its start when it has no room. -/
theorem Layout.bounds {q : Shmq} {live : List Blk} (layout : Layout q live) :
    q.start ≤ q.head ∧ q.start ≤ q.tail ∧
      (q.start < q.size → q.head ≤ q.size ∧ q.tail ≤ q.size) ∧
      (q.size ≤ q.start → q.head = q.start ∧ q.tail = q.start) := by
  cases layout with
  | tiny small head tail => omega
  | line room behind ahead tailLe apart held =>
      have := behind.le
      have := ahead.le
      omega
  | wrap room aligned upper lower tailLt seam held =>
      have := upper.le
      have := lower.le
      omega
  | stale room head tail behind held => omega

/-- Both offsets are block-aligned. -/
theorem Layout.aligned {q : Shmq} {live : List Blk} (ring : q.Ring) (layout : Layout q live) :
    (8 : Int) ∣ q.head ∧ (8 : Int) ∣ q.tail := by
  have start : (8 : Int) ∣ q.start := by
    rw [ring.start_eq]
    decide
  cases layout with
  | tiny small head tail => exact ⟨head ▸ start, tail ▸ start⟩
  | line room behind ahead tailLe apart held =>
      have head := behind.dvd Blk.dvd_stop_sub_off start
      exact ⟨head, ahead.dvd Blk.dvd_stop_sub_off head⟩
  | wrap room aligned upper lower tailLt seam held =>
      exact ⟨aligned, lower.dvd Blk.dvd_stop_sub_off start⟩
  | stale room head tail behind held => exact ⟨head ▸ start, tail ▸ ring.size_dvd⟩

/-- The ring bounds the number of blocks. -/
theorem Layout.mul_length_le {q : Shmq} {live : List Blk} (ring : q.Ring)
    (layout : Layout q live) : 8 * (live.length : Int) ≤ q.size := by
  have start := ring.start_eq
  have size := ring.size_nonneg
  have lengths : ∀ k : Blk, (8 : Int) ≤ k.stop - k.off := by
    intro k
    have span := blkSpan_bounds k.data
    unfold Blk.stop
    omega
  cases layout with
  | tiny => simpa using size
  | line room behind ahead tailLe apart held =>
      have := ahead.mul_length_le lengths
      have := behind.le
      omega
  | @wrap high low seam room aligned upper lower tailLt seamAt held =>
      have := upper.mul_length_le lengths
      have := lower.mul_length_le lengths
      rw [List.length_append]
      omega
  | stale => simpa using size

/-- A fresh queue is empty. -/
theorem layout_shmqInit (sz : Int) : Layout (shmqInit sz) [] := by
  by_cases room : shmqAlign sizeofHeader < shmqAlign sz
  · exact .line room (.nil rfl) rfl (Int.le_of_lt room) (fun full => absurd full (by
      simp only [shmqInit]
      omega)) (by simp)
  · exact .tiny (by simp only [shmqInit]; omega) rfl rfl

theorem ring_shmqInit {sz : Int} (high : shmqAlign sz < 2 ^ 63) : (shmqInit sz).Ring where
  start_eq := shmqAlign_header
  size_nonneg := by
    simp only [shmqInit, shmqAlign, toUInt64, sizeofBlock]
    omega
  size_lt := high
  size_dvd := Int.dvd_mul_left _ _

end Verben
