import Verben.Shmq.Pop

/-!
# What a walk over the ring finds

A reader that takes no lock can walk from `head` to `tail`: it reads an offset equal
to `size` as `start`, goes back to `start` at a pad, and decodes every other block as
`shmq_pop` does. `Shmq.view` is what it finds. `Shown` describes the states in which
the walk ends and finds given blocks. It asks for less than `Layout`: a pad may stand
at the seam with no block behind it yet, as in the middle of a push.
-/

namespace Verben

open CInt Extents Set

/-- The offset where a reader looks: `size` stands for `start`. -/
def Shmq.readOff (q : Shmq) (off : Int) : Int := if off = q.size then q.start else off

/-- The payload of the block at an offset, as `shmq_pop` copies it. -/
def Shmq.payload (q : Shmq) (off : Int) : List UInt8 :=
  q.mem.read (off + sizeofBlock)
    (toInt32 (toUInt64 (q.mem.readWord off - sizeofBlock))).toNat

/-- The payloads from an offset to `tail`, in at most so many looks. -/
def Shmq.walk (q : Shmq) : Nat → Int → Option (List (List UInt8))
  | 0, _ => none
  | looks + 1, off =>
      let here := q.readOff off
      if here = q.readOff q.tail then
        some []
      else if q.mem.readWord here &&& padBlock ≠ 0 then
        q.walk looks q.start
      else
        (q.walk looks (here + shmqAlign (q.mem.readWord here &&& maxBlkSize : Nat))).map
          (q.payload here :: ·)

/-- The queued payloads, by a walk from `head`. The ring has room for fewer blocks than
the walk has looks. -/
def Shmq.view (q : Shmq) : Option (List (List UInt8)) := q.walk (q.size.toNat + 2) q.head

section Walk

variable {q : Shmq} {live high low : List Blk} {k : Blk} {a b seam : Int} {n : Nat}

theorem walk_of_end (here : q.readOff a = q.readOff q.tail) : q.walk (n + 1) a = some [] := by
  rw [Shmq.walk]
  exact if_pos here

theorem walk_of_pad (inside : a ≠ q.size) (apart : a ≠ q.readOff q.tail)
    (pad : q.mem.readWord a &&& padBlock ≠ 0) : q.walk (n + 1) a = q.walk n q.start := by
  have here : q.readOff a = a := if_neg inside
  rw [Shmq.walk]
  simp only [here, if_neg apart, if_pos pad]

/-- A block that is held is decoded. -/
theorem walk_of_held (inside : k.off ≠ q.size) (apart : k.off ≠ q.readOff q.tail)
    (held : k.Held q.mem) :
    q.walk (n + 1) k.off = (q.walk n k.stop).map (k.data :: ·) := by
  have span := blkSpan_bounds k.data
  have small : blkSpan k.data < 2 ^ 31 := held.fits
  have here : q.readOff k.off = k.off := if_neg inside
  have noPad : q.mem.readWord k.off &&& padBlock = 0 := and_padBlock_of_lt held.small
  have next : k.off + shmqAlign (q.mem.readWord k.off &&& maxBlkSize : Nat) = k.stop := by
    rw [and_maxBlkSize_of_lt held.small, held.size, shmqAlign_of_range (by omega) (by omega)]
    unfold Blk.stop blkSpan
    congr 2
  have data : q.payload k.off = k.data := by
    have len : toInt32 (toUInt64 (((k.data.length + 8 : Nat) : Int) - sizeofBlock)) =
        k.data.length := by
      unfold sizeofBlock
      rw [toUInt64_of_range (by omega) (by omega), toInt32_of_range (by omega) (by omega)]
      omega
    unfold Shmq.payload
    rw [held.size, len]
    exact held.data
  rw [Shmq.walk]
  simp only [here, if_neg apart, if_neg (not_not_intro noPad), next, data]

/-- Blocks that lie end to end are decoded one after the other. -/
theorem walk_fill (fill : Fill Blk.off Blk.stop a live b) (inside : b ≤ q.size)
    (apart : ∀ k ∈ live, k.off ≠ q.readOff q.tail) (held : ∀ k ∈ live, k.Held q.mem) :
    q.walk (live.length + n) a = (q.walk n b).map (live.map Blk.data ++ ·) := by
  induction live generalizing a with
  | nil =>
      cases fill
      simp
  | cons k live ih =>
      have bounds := fill.mem List.mem_cons_self
      rcases fill with ⟨off, nonempty, rest⟩
      have fuel : (k :: live).length + n = live.length + n + 1 := by
        rw [List.length_cons]
        omega
      rw [fuel, ← off, walk_of_held (by omega) (apart k List.mem_cons_self)
        (held k List.mem_cons_self), ih rest (fun k mem => apart k (List.mem_cons_of_mem _ mem))
        fun k mem => held k (List.mem_cons_of_mem _ mem), Option.map_map]
      rfl

/-! ## States that show their blocks -/

/-- The states of the ring in which a walk finds the blocks `live`. -/
inductive Shown (q : Shmq) : List Blk → Prop
  | empty : q.readOff q.head = q.readOff q.tail → Shown q []
  | line {live : List Blk} :
    q.start ≤ q.head → (q.tail = q.size → q.start < q.head) → q.tail ≤ q.size →
    Fill Blk.off Blk.stop q.head live q.tail →
    (∀ k ∈ live, k.Held q.mem) → Shown q live
  | wrap {high low : List Blk} {seam : Int} :
    q.tail < q.head → seam ≤ q.size →
    Fill Blk.off Blk.stop q.head high seam →
    Fill Blk.off Blk.stop q.start low q.tail →
    (seam = q.size ∨ q.mem.readWord seam &&& padBlock ≠ 0) →
    (∀ k ∈ high ++ low, k.Held q.mem) → Shown q (high ++ low)

/-- The blocks of a state, one behind the other, and one look for the pad and one for
the end. -/
theorem Shown.walk (shown : Shown q live) :
    q.walk (live.length + 2 + n) q.head = some (live.map Blk.data) := by
  cases shown with
  | empty here =>
      rw [List.length_nil, Nat.zero_add, Nat.add_comm 2 n]
      exact walk_of_end here
  | line low apart inside fill held =>
      have order := fill.le
      have fuel : live.length + 2 + n = live.length + (1 + n + 1) := by omega
      rw [fuel, walk_fill fill inside _ held, walk_of_end rfl, Option.map_some, List.append_nil]
      intro k mem same
      have bounds := fill.mem mem
      unfold Shmq.readOff at same
      split at same
      · have := apart ‹_›
        omega
      · omega
  | @wrap high low seam order inside upper lower seamAt held =>
      have above := upper.le
      have below := lower.le
      have end' : q.readOff q.tail = q.tail := if_neg (by omega)
      have lap : ∀ m, q.walk (low.length + (m + 1)) q.start = some (low.map Blk.data) := by
        intro m
        rw [walk_fill lower (by omega) _ fun k mem => held k (List.mem_append_right _ mem),
          walk_of_end rfl, Option.map_some, List.append_nil]
        intro k mem
        have bounds := lower.mem mem
        omega
      have fuel : (high ++ low).length + 2 + n = high.length + (low.length + (n + 1) + 1) := by
        rw [List.length_append]
        omega
      rw [fuel, walk_fill upper inside (fun k mem => by
        have bounds := upper.mem mem
        omega) fun k mem => held k (List.mem_append_left _ mem), List.map_append]
      -- at the seam the walk goes on from `start`
      have turn : q.walk (low.length + (n + 1) + 1) seam = some (low.map Blk.data) := by
        by_cases atSize : seam = q.size
        · have start : ∀ m, q.walk (m + 1) seam = q.walk (m + 1) q.start := by
            intro m
            have here : q.readOff seam = q.readOff q.start := by
              unfold Shmq.readOff
              rw [if_pos atSize, if_neg (by omega)]
            rw [Shmq.walk, Shmq.walk, here]
          rw [start]
          exact lap (n + 1)
        · rw [walk_of_pad atSize (by omega) (seamAt.resolve_left atSize)]
          exact lap n
      rw [turn]
      rfl

/-- Every layout shows its blocks. -/
theorem Layout.shown (layout : Layout q live) : Shown q live := by
  cases layout with
  | tiny small head tail => exact .empty (by rw [head, tail])
  | line room behind ahead tailLe apart held =>
      have order := behind.le
      refine .line order (fun full => ?_) tailLe ahead fun k mem =>
        held k (List.mem_append_right _ mem)
      have := apart full
      omega
  | wrap room aligned upper lower tailLt seamAt held =>
      have bounds := (Layout.wrap room aligned upper lower tailLt seamAt held).bounds
      refine .wrap tailLt ?_ upper lower (seamAt.imp_right fun pad => pad.2.2) held
      rcases seamAt with same | pad
      · exact Int.le_of_eq same
      · exact Int.le_of_lt pad.1
  | stale room head tail behind held =>
      refine .empty ?_
      unfold Shmq.readOff
      rw [if_neg (by omega), if_pos tail, head]

/-- The view of a queue with at most as many blocks as the ring has room for. -/
theorem Shown.view (shown : Shown q live) (few : 8 * (live.length : Int) ≤ q.size) :
    q.view = some (live.map Blk.data) := by
  unfold Shmq.view
  have fuel : q.size.toNat + 2 = live.length + 2 + (q.size.toNat - live.length) := by omega
  rw [fuel]
  exact shown.walk

theorem Layout.view (ring : q.Ring) (layout : Layout q live) :
    q.view = some (live.map Blk.data) := layout.shown.view (layout.mul_length_le ring)

/-! ## Memory that no block uses -/

/-- The bytes from `lo` to `hi` are behind `tail` and before `head`, the way around. -/
def Shmq.Unused (q : Shmq) (lo hi : Int) : Prop :=
  if q.head ≤ q.tail then q.tail ≤ lo ∨ hi ≤ q.head else q.tail ≤ lo ∧ hi ≤ q.head

/-- Writes to unused bytes show the same blocks. -/
theorem Shown.congr {q' : Shmq} {lo hi : Int} (shown : Shown q live) (unused : q.Unused lo hi)
    (start : q'.start = q.start) (size : q'.size = q.size) (head : q'.head = q.head)
    (tail : q'.tail = q.tail)
    (same : ∀ {a b : Int}, b ≤ lo ∨ hi ≤ a → EqOn q'.mem q.mem (Ico a b)) : Shown q' live := by
  unfold Shmq.Unused at unused
  cases shown with
  | empty here =>
      refine .empty ?_
      unfold Shmq.readOff at here ⊢
      rw [start, size, head, tail]
      exact here
  | line low apart inside fill held =>
      have order := fill.le
      rw [if_pos order] at unused
      refine .line (by rw [start, head]; exact low) (by rw [start, size, head, tail]; exact apart)
        (by rw [size, tail]; exact inside) (by rw [head, tail]; exact fill) fun k mem => ?_
      have bounds := fill.mem mem
      exact (held k mem).congr (same (by omega))
  | @wrap high low seam order inside upper lower seamAt held =>
      have above := upper.le
      have below := lower.le
      rw [if_neg (by omega)] at unused
      have upper' : Fill Blk.off Blk.stop q'.head high seam := head ▸ upper
      have lower' : Fill Blk.off Blk.stop q'.start low q'.tail := start ▸ tail ▸ lower
      refine .wrap (by rw [head, tail]; exact order) (by rw [size]; exact inside) upper' lower'
        ?_ fun k mem => ?_
      · rw [size]
        refine seamAt.imp_right fun pad => ?_
        rwa [ByteMem.readWord_congr (same (Or.inr (by omega)))
          (Int.le_refl _) (Int.le_refl _)]
      · refine (held k mem).congr (same ?_)
        rcases List.mem_append.mp mem with mem | mem
        · have bounds := upper.mem mem
          omega
        · have bounds := lower.mem mem
          omega

end Walk

end Verben
