import Verben.Lib.Transition
import Verben.Shmq.Pop

/-!
# Every store stays in the ring

A run of calls on one queue, with any results of `malloc` and any values of
`shmq_stop`, and the blocks that were pushed and not yet popped. In every state
it reaches, `head` and `tail` are block-aligned offsets of the ring, and the stores
of a push that succeeds lie in blocks inside `[start, size)` that meet no block
still to be popped (`shmq_stores_in_ring`). This holds of the runs that pop in a
parked state, too: what they pop again was popped before.
-/

namespace Verben

open CInt Extents Set Transition

/-! ## The blocks a push writes -/

/-- The bytes a store changes in the ring. -/
def Store.Touches : Store → Int → Prop
  | .tail _, _ => False
  | .word off _, x => off ≤ x ∧ x < off + sizeofBlock
  | .byte off _, x => x = off
  | .incCnt, _ => False

/-- A block, or a pad, as its header describes it: the offset of the size word and
the offset one past the block. -/
def headerExtent (off : Int) (w : Nat) : Int × Int :=
  (off, off + shmqAlign ((w &&& maxBlkSize : Nat) : Int))

/-- The extents of the blocks and pads whose headers are among the stores. -/
def writtenExtents : List Store → List (Int × Int)
  | [] => []
  | .word off w :: stores => headerExtent off w :: writtenExtents stores
  | .tail _ :: stores => writtenExtents stores
  | .byte _ _ :: stores => writtenExtents stores
  | .incCnt :: stores => writtenExtents stores

theorem writtenExtents_append (xs ys : List Store) :
    writtenExtents (xs ++ ys) = writtenExtents xs ++ writtenExtents ys := by
  induction xs with
  | nil => rfl
  | cons x xs ih => cases x <;> simp [writtenExtents, ih]

theorem writtenExtents_memcpy (off : Int) (data : List UInt8) :
    writtenExtents (memcpyStores off data) = [] := by
  induction data generalizing off with
  | nil => rfl
  | cons b bs ih => exact ih _

theorem writtenExtents_reset (q : Shmq) : writtenExtents (resetStores q) = [] := by
  unfold resetStores
  split <;> rfl

theorem toNat_header {data : List UInt8} (fits : FitsInt data) :
    (toUInt64 (data.length + sizeofBlock)).toNat = data.length + 8 := by
  have span := blkSpan_bounds data
  have small : blkSpan data < 2 ^ 31 := fits
  unfold sizeofBlock
  rw [toUInt64_of_range (by omega) (by omega)]
  omega

theorem headerExtent_block {off : Int} {data : List UInt8} (fits : FitsInt data) :
    headerExtent off (data.length + 8) = (off, off + blkSpan data) := by
  have span := blkSpan_bounds data
  have small : blkSpan data < 2 ^ 31 := fits
  unfold headerExtent
  rw [and_maxBlkSize_of_lt (by omega), shmqAlign_of_range (by omega) (by omega)]
  unfold blkSpan
  congr 2

/-- A pad reaches to the end of the ring. -/
theorem headerExtent_pad {off size : Int} (low : 0 ≤ off) (order : off ≤ size)
    (high : size < 2 ^ 63) (aligned : (8 : Int) ∣ size - off) :
    headerExtent off ((toUInt64 (size - off)).toNat ||| padBlock) = (off, size) := by
  rw [toUInt64_of_range (by omega) (by omega)]
  have mask : ((size - off).toNat ||| padBlock) &&& maxBlkSize = (size - off).toNat := by
    rw [Nat.and_or_distrib_right, and_maxBlkSize_of_lt (by omega)]
    exact Nat.or_zero _
  unfold headerExtent
  rw [mask, shmqAlign_of_range (by omega) (by omega)]
  congr 1
  omega

theorem writtenExtents_success (off : Int) {data : List UInt8} (fits : FitsInt data) :
    writtenExtents (successStores off data) = [(off, off + blkSpan data)] := by
  unfold successStores
  rw [toNat_header fits, List.cons_append, writtenExtents, writtenExtents_append,
    writtenExtents_memcpy, headerExtent_block fits]
  rfl

/-- A `memcpy` stores the bytes of its range, and nothing else. -/
theorem mem_memcpyStores {off : Int} {bs : List UInt8} {store : Store}
    (mem : store ∈ memcpyStores off bs) :
    ∃ x b, store = .byte x b ∧ off ≤ x ∧ x < off + bs.length := by
  induction bs generalizing off with
  | nil => cases mem
  | cons b bs ih =>
      rw [List.length_cons]
      rcases List.mem_cons.mp mem with rfl | mem
      · exact ⟨off, b, rfl, Int.le_refl _, by omega⟩
      · obtain ⟨x, b', same, low, high⟩ := ih mem
        exact ⟨x, b', same, by omega, by omega⟩

/-- The stores of a block stay in its extent. -/
theorem touches_success {off x : Int} {data : List UInt8} {store : Store}
    (mem : store ∈ successStores off data) (touched : store.Touches x) :
    off ≤ x ∧ x < off + blkSpan data := by
  have span := blkSpan_bounds data
  unfold successStores at mem
  rw [List.cons_append] at mem
  rcases List.mem_cons.mp mem with rfl | mem
  · have inside : off ≤ x ∧ x < off + sizeofBlock := touched
    unfold sizeofBlock at inside
    omega
  · rcases List.mem_append.mp mem with mem | mem
    · obtain ⟨y, b, rfl, low, high⟩ := mem_memcpyStores mem
      have same : x = y := touched
      unfold sizeofBlock at low high
      omega
    · rcases List.mem_cons.mp mem with rfl | mem
      · cases touched
      · rw [List.mem_singleton.mp mem] at touched
        cases touched

/-! ## Free space -/

/-- The room `Shmq.Fits` finds is inside the ring and behind or before every block. -/
theorem Layout.free_of_fits {q : Shmq} {live : List Blk} {n : Int} (layout : Layout q live)
    (positive : 0 ≤ n) (room : q.Fits q.tail n) :
    q.start ≤ q.tail ∧ q.tail + n ≤ q.size ∧
      ∀ k ∈ live, k.stop ≤ q.tail ∨ q.tail + n ≤ k.off := by
  unfold Shmq.Fits at room
  have bounds := layout.bounds
  cases layout with
  | tiny small head tail => omega
  | line nonempty behind ahead tailLe apart held =>
      have order := ahead.le
      exact ⟨bounds.2.1, by omega, fun k mem => Or.inl (ahead.mem mem).2.2⟩
  | wrap nonempty aligned upper lower tailLt seamAt held =>
      have order := upper.le
      refine ⟨bounds.2.1, by omega, fun k mem => ?_⟩
      rcases List.mem_append.mp mem with mem | mem
      · have := upper.mem mem
        omega
      · exact Or.inl (lower.mem mem).2.2
  | stale nonempty head tail behind held => omega

/-- The room `Shmq.FitsWrapped` finds is before every block, and every block is
before the pad. -/
theorem Layout.free_of_fitsWrapped {q : Shmq} {live : List Blk} {n : Int}
    (layout : Layout q live) (positive : 0 ≤ n) (room : q.FitsWrapped q.tail n) :
    q.start + n ≤ q.size ∧ q.start ≤ q.tail ∧ q.tail ≤ q.size ∧
      ∀ k ∈ live, k.stop ≤ q.tail ∧ q.start + n ≤ k.off := by
  rcases room with ⟨order, room⟩
  have bounds := layout.bounds
  cases layout with
  | tiny small head tail => omega
  | line nonempty behind ahead tailLe apart held =>
      refine ⟨by omega, bounds.2.1, tailLe, fun k mem => ?_⟩
      have := ahead.mem mem
      omega
  | wrap nonempty aligned upper lower tailLt seamAt held => omega
  | stale nonempty head tail behind held => omega

/-! ## Runs -/

/-- A queue in use, with the blocks pushed and not yet popped. -/
structure RingRun : Type where
  q : Shmq
  unpopped : List Blk

/-- A call on the queue. -/
inductive RingOp : Type
  | push (data : List UInt8) (call : ShmqCall)
  | pop (call : ShmqCall)

def RingRun.init (sz : Int) : RingRun := ⟨shmqInit sz, []⟩

/-- The offset at which a push that succeeds stores its block: the last header it
writes, after that of a pad. -/
def pushedOff (stores : List Store) : Int := ((writtenExtents stores).getLastD (0, 0)).1

/-- The block that a pop works on. -/
def poppedOff (q : Shmq) (call : ShmqCall) : Int :=
  ((shmqPopSeek call.stop 2 q).map fun found => found.2.head).getD 0

/-- One call; `none` if it does not return. A pop that succeeds pops the block at
the offset it reads. -/
def RingRun.step (r : RingRun) : RingOp → Option RingRun
  | .push data call =>
      let pushed := shmqPush r.q data call
      let block : Blk := ⟨pushedOff (shmqPushStores r.q data call).2, data⟩
      some ⟨pushed.2, if pushed.1 = .ok then r.unpopped ++ [block] else r.unpopped⟩
  | .pop call =>
      match shmqPop r.q call with
      | none => none
      | some (.ok _, q) => some ⟨q, r.unpopped.filter fun k => k.off ≠ poppedOff r.q call⟩
      | some (_, q) => some { r with q := q }

/-- The aligned block size of a pushed payload fits an `int`. -/
def RingOp.Fits : RingOp → Prop
  | .push data _ => FitsInt data
  | .pop _ => True

instance RingOp.decidableFits : (op : RingOp) → Decidable op.Fits
  | .push data _ => inferInstanceAs (Decidable (FitsInt data))
  | .pop _ => .isTrue trivial

/-- The unpopped blocks are among those a walk finds. -/
def RingRun.Inv (r : RingRun) : Prop :=
  r.q.Ring ∧ ∃ live, Layout r.q live ∧ ∀ k ∈ r.unpopped, k ∈ live

/-! ## The size of the ring -/

theorem Shmq.size_applyStores (q : Shmq) (stores : List Store) :
    (q.applyStores stores).size = q.size := by
  induction stores generalizing q with
  | nil => rfl
  | cons store stores ih =>
      have same : (store.apply q).size = q.size := by
        cases store <;> rfl
      exact (ih (store.apply q)).trans same

theorem size_shmqPopSeek {stop : Bool} {fuel : Nat} {q q' : Shmq} {found : PopSeek}
    (sought : shmqPopSeek stop fuel q = some (found, q')) : q'.size = q.size := by
  induction fuel generalizing q with
  | zero => cases sought
  | succ fuel ih =>
      rw [shmqPopSeek_succ] at sought
      split at sought
      · cases sought
        rfl
      · split at sought
        · cases sought
          rfl
        · split at sought
          · exact (ih sought : q'.size = (q.setHead q.start).size)
          · cases sought
            rfl

theorem size_shmqPopBlock (q : Shmq) (mallocOk : Bool) :
    (shmqPopBlock q mallocOk).2.size = q.size := by
  simp only [shmqPopBlock]
  split <;> rfl

theorem size_shmqPop {q q' : Shmq} {call : ShmqCall} {ret : PopRet}
    (popped : shmqPop q call = some (ret, q')) : q'.size = q.size := by
  unfold shmqPop shmqPopFuel at popped
  split at popped
  · cases popped
  · cases popped
    exact size_shmqPopSeek ‹_›
  · cases popped
    exact size_shmqPopSeek ‹_›
  · next found sought =>
      have kept := size_shmqPopBlock found call.mallocOk
      rw [Option.some_inj.mp popped] at kept
      exact kept.trans (size_shmqPopSeek sought)

/-- No call changes the size of the ring. -/
theorem RingRun.size_step {r r' : RingRun} {op : RingOp} (stepped : r.step op = some r') :
    r'.q.size = r.q.size := by
  cases op with
  | push data call =>
      cases stepped
      exact Shmq.size_applyStores _ _
  | pop call =>
      simp only [RingRun.step] at stepped
      split at stepped
      · cases stepped
      · cases stepped
        exact size_shmqPop ‹_›
      · cases stepped
        exact size_shmqPop ‹_›

/-! ## The invariant of a run -/

theorem pushedOff_success (xs : List Store) (off : Int) {data : List UInt8}
    (fits : FitsInt data) : pushedOff (xs ++ successStores off data) = off := by
  unfold pushedOff
  rw [writtenExtents_append, writtenExtents_success off fits]
  simp

theorem RingRun.Inv.push {r r' : RingRun} {data : List UInt8} {call : ShmqCall}
    (inv : r.Inv) (fits : FitsInt data) (stepped : r.step (.push data call) = some r') :
    r'.Inv := by
  rcases inv with ⟨ring, live, layout, sub⟩
  cases stepped
  have more : ∀ off, ∀ k ∈ r.unpopped ++ [⟨off, data⟩], k ∈ live ++ [⟨off, data⟩] := by
    intro off k mem
    rcases List.mem_append.mp mem with old | new
    · exact List.mem_append_left _ (sub k old)
    · exact List.mem_append_right _ new
  have kept := (shmqPush_spec ring layout fits call).1
  cases shmqPush_outcome ring layout fits call with
  | stop _ stores =>
      rw [shmqPush_of_stop stores]
      exact ⟨ring, live, layout, sub⟩
  | full _ _ _ stores =>
      rw [shmqPush_of_full stores] at kept ⊢
      rw [if_neg (refused_ne_ok call)]
      exact ⟨kept, live, layout_reset ring layout, sub⟩
  | placed _ _ stores placed =>
      rw [shmqPush_of_placed fits stores] at kept ⊢
      rw [stores, pushedOff_success _ _ fits]
      exact ⟨kept, _, placed, more _⟩
  | wrapped _ _ stores placed =>
      rw [shmqPush_of_wrapped fits stores] at kept ⊢
      rw [stores, pushedOff_success _ _ fits]
      exact ⟨kept, _, placed, more _⟩

theorem RingRun.Inv.pop {r r' : RingRun} {call : ShmqCall} (inv : r.Inv)
    (stepped : r.step (.pop call) = some r') : r'.Inv := by
  rcases inv with ⟨ring, live, layout, sub⟩
  cases shmqPop_outcome ring layout call with
  | stop popped _ =>
      simp only [RingRun.step, popped] at stepped
      cases stepped
      exact ⟨ring, live, layout, sub⟩
  | @empty q' popped _ none _ ring' done _ =>
      have same : r.step (.pop call) = some { r with q := q' } := by
        cases wait : call.wait <;> simp [RingRun.step, popped, wait]
      cases same.symm.trans stepped
      exact ⟨ring', [], done, none ▸ sub⟩
  | noMemory popped _ _ ring' same _ =>
      simp only [RingRun.step, popped] at stepped
      cases stepped
      exact ⟨ring', live, same, sub⟩
  | @front q' k rest popped found cons _ ring' kept _ =>
      simp only [RingRun.step, popped, poppedOff, found, Option.map_some,
        Option.getD_some, Shmq.head_setHead] at stepped
      cases stepped
      refine ⟨ring', rest, kept, fun b mem => ?_⟩
      obtain ⟨old, other⟩ := List.mem_filter.mp mem
      rcases List.mem_cons.mp (cons ▸ sub b old) with rfl | tail
      · simp at other
      · exact tail
  | @again q' k rest popped none _ ring' kept =>
      simp only [RingRun.step, popped] at stepped
      cases stepped
      refine ⟨ring', rest, kept, fun b mem => ?_⟩
      have old := sub b (List.mem_filter.mp mem).1
      rw [none] at old
      cases old

theorem RingRun.Inv.step {r r' : RingRun} {op : RingOp} (inv : r.Inv) (fits : op.Fits)
    (stepped : r.step op = some r') : r'.Inv := by
  cases op with
  | push data call => exact inv.push fits stepped
  | pop call => exact inv.pop stepped

/-- In every state of a run. -/
theorem RingRun.inv_of_reach {sz : Int} (mapped : shmqAlign sz < 2 ^ 63) {r : RingRun}
    (reach : Reach RingRun.step (fun _ op => op.Fits) (RingRun.init sz) r) :
    r.Inv ∧ r.q.size = shmqAlign sz := by
  have first : (RingRun.init sz).Inv := ⟨ring_shmqInit mapped, [], layout_shmqInit sz, by
    simp [RingRun.init]⟩
  apply reach.invariant (P := fun r => r.Inv ∧ r.q.size = shmqAlign sz) ⟨first, rfl⟩
  intro s op t both fits stepped
  rcases both with ⟨inv, size⟩
  exact ⟨inv.step fits stepped, (RingRun.size_step stepped).trans size⟩

/-! ## The stores of a push -/

/-- The blocks and pads written by the stores are in the ring and off the blocks
`live`, and no store leaves them. -/
def StoresIn (q : Shmq) (live : List Blk) (stores : List Store) : Prop :=
  (∀ e ∈ writtenExtents stores,
    q.start ≤ e.1 ∧ e.2 ≤ q.size ∧ ∀ k ∈ live, k.stop ≤ e.1 ∨ e.2 ≤ k.off) ∧
  ∀ store ∈ stores, ∀ x, store.Touches x → ∃ e ∈ writtenExtents stores, e.1 ≤ x ∧ x < e.2

theorem not_touches_reset {q : Shmq} {store : Store} (mem : store ∈ resetStores q) (x : Int) :
    ¬ store.Touches x := by
  intro touched
  unfold resetStores at mem
  split at mem
  · rw [List.mem_singleton.mp mem] at touched
    exact touched
  · cases mem

section Stores

variable {q : Shmq} {live : List Blk} {data : List UInt8}

theorem storesIn_placed (ring : q.Ring) (layout : Layout q live) (fits : FitsInt data)
    (room : q.Fits (pushTail q) (blkSpan data)) :
    StoresIn q live (resetStores q ++ successStores (pushTail q) data) := by
  have span := blkSpan_bounds data
  have positive : 0 ≤ blkSpan data := by omega
  obtain ⟨low, high, apart⟩ := (layout_reset ring layout).free_of_fits positive room
  have extents : writtenExtents (resetStores q ++ successStores (pushTail q) data) =
      [(pushTail q, pushTail q + blkSpan data)] := by
    rw [writtenExtents_append, writtenExtents_reset, writtenExtents_success _ fits]
    rfl
  unfold StoresIn
  rw [extents]
  constructor
  · intro e mem
    rw [List.mem_singleton.mp mem]
    exact ⟨low, high, apart⟩
  · intro store mem x touched
    refine ⟨_, List.mem_singleton_self _, ?_⟩
    rcases List.mem_append.mp mem with mem | mem
    · exact absurd touched (not_touches_reset mem x)
    · exact touches_success mem touched

theorem storesIn_wrapped (ring : q.Ring) (layout : Layout q live) (fits : FitsInt data)
    (room : q.FitsWrapped (pushTail q) (blkSpan data)) :
    StoresIn q live (resetStores q ++
      [.word (pushTail q) ((toUInt64 (q.size - pushTail q)).toNat ||| padBlock),
        .tail q.start] ++ successStores q.start data) := by
  have reset := layout_reset ring layout
  have span := blkSpan_bounds data
  have positive : 0 ≤ blkSpan data := by omega
  obtain ⟨high, low, tailLe, apart⟩ := reset.free_of_fitsWrapped positive room
  have start := ring.start_eq
  have resetRing : (q.setTail (pushTail q)).Ring := ring.congr rfl rfl
  have aligned : (8 : Int) ∣ q.size - pushTail q :=
    Int.dvd_sub ring.size_dvd (reset.aligned resetRing).2
  simp only [Shmq.start_setTail, Shmq.tail_setTail, Shmq.size_setTail] at high low tailLe apart
  have pad := headerExtent_pad (by omega) tailLe ring.size_lt aligned
  have extents : writtenExtents (resetStores q ++
      [.word (pushTail q) ((toUInt64 (q.size - pushTail q)).toNat ||| padBlock),
        .tail q.start] ++ successStores q.start data) =
      [(pushTail q, q.size), (q.start, q.start + blkSpan data)] := by
    rw [writtenExtents_append, writtenExtents_append, writtenExtents_reset,
      writtenExtents_success _ fits, writtenExtents, pad]
    rfl
  unfold StoresIn
  rw [extents]
  constructor
  · intro e mem
    rcases List.mem_cons.mp mem with rfl | mem
    · exact ⟨low, Int.le_refl _, fun k old => Or.inl (apart k old).1⟩
    · rw [List.mem_singleton.mp mem]
      exact ⟨Int.le_refl _, high, fun k old => Or.inr (apart k old).2⟩
  · intro store mem x touched
    rcases List.mem_append.mp mem with mem | mem
    · rcases List.mem_append.mp mem with mem | mem
      · exact absurd touched (not_touches_reset mem x)
      · refine ⟨(pushTail q, q.size), List.mem_cons_self, ?_⟩
        rcases List.mem_cons.mp mem with rfl | mem
        · -- an aligned `tail` below `size` leaves room for the pad's size word
          rcases touched with ⟨touchedLow, touchedHigh⟩
          have notParked := (pushTail_bounds ring layout).2.1 (by omega)
          unfold sizeofBlock at touchedHigh
          refine ⟨touchedLow, ?_⟩
          simp only
          omega
        · rw [List.mem_singleton.mp mem] at touched
          exact absurd touched id
    · exact ⟨_, List.mem_cons_of_mem _ (List.mem_singleton_self _), touches_success mem touched⟩

/-- In a queue of the blocks `live`, the stores of a push that succeeds. -/
theorem storesIn_push {call : ShmqCall} (ring : q.Ring) (layout : Layout q live)
    (fits : FitsInt data) (ok : (shmqPushStores q data call).1 = .ok) :
    StoresIn q live (shmqPushStores q data call).2 := by
  cases shmqPush_outcome ring layout fits call with
  | stop _ stores =>
      rw [stores] at ok
      cases ok
  | full _ _ _ stores =>
      rw [stores] at ok
      cases wait : call.wait <;> simp [wait] at ok
  | placed _ room stores _ =>
      rw [stores]
      exact storesIn_placed ring layout fits room
  | wrapped _ room stores _ =>
      rw [stores]
      exact storesIn_wrapped ring layout fits room

end Stores

/-- **Pushes stay inside the ring and off the queued blocks.** In every state that a
run of calls reaches on a queue with room behind its header, both offsets are aligned
and inside `[start, size]`. The stores of a push that succeeds there touch only the
extents of the blocks whose headers they write (the block, and the pad before it, if
any); these extents are inside `[start, size)` and meet no block pushed and not yet
popped. -/
theorem shmq_stores_in_ring {sz : Int} (mapped : shmqAlign sz < 2 ^ 63)
    (room : sizeofHeader < shmqAlign sz) {r : RingRun}
    (reach : Reach RingRun.step (fun _ op => op.Fits) (RingRun.init sz) r) :
    ((8 : Int) ∣ r.q.head ∧ r.q.start ≤ r.q.head ∧ r.q.head ≤ r.q.size) ∧
    ((8 : Int) ∣ r.q.tail ∧ r.q.start ≤ r.q.tail ∧ r.q.tail ≤ r.q.size) ∧
    ∀ data call, FitsInt data → (shmqPushStores r.q data call).1 = .ok →
      (∀ e ∈ writtenExtents (shmqPushStores r.q data call).2,
        r.q.start ≤ e.1 ∧ e.2 ≤ r.q.size ∧
          ∀ k ∈ r.unpopped, k.stop ≤ e.1 ∨ e.2 ≤ k.off) ∧
      ∀ store ∈ (shmqPushStores r.q data call).2, ∀ x, store.Touches x →
        ∃ e ∈ writtenExtents (shmqPushStores r.q data call).2, e.1 ≤ x ∧ x < e.2 := by
  obtain ⟨⟨ring, live, layout, sub⟩, size⟩ := RingRun.inv_of_reach mapped reach
  have nonempty : r.q.start < r.q.size := by
    rw [ring.start_eq, size]
    exact room
  have bounds := layout.bounds
  have aligned := layout.aligned ring
  refine ⟨⟨aligned.1, bounds.1, (bounds.2.2.1 nonempty).1⟩,
    ⟨aligned.2, bounds.2.1, (bounds.2.2.1 nonempty).2⟩, fun data call fits ok => ?_⟩
  obtain ⟨inside, touched⟩ := storesIn_push ring layout fits ok
  exact ⟨fun e mem => ⟨(inside e mem).1, (inside e mem).2.1,
    fun k old => (inside e mem).2.2 k (sub k old)⟩, touched⟩

/-- A ring of 64 bytes after a push that fills half of it. -/
theorem shmq_stores_in_ring_64 :
    let r := RingRun.mk (shmqPush (shmqInit 64) [1, 2] .plain).2 [⟨24, [1, 2]⟩]
    ((8 : Int) ∣ r.q.head ∧ r.q.start ≤ r.q.head ∧ r.q.head ≤ r.q.size) ∧
    ((8 : Int) ∣ r.q.tail ∧ r.q.start ≤ r.q.tail ∧ r.q.tail ≤ r.q.size) ∧
    ∀ data call, FitsInt data → (shmqPushStores r.q data call).1 = .ok →
      (∀ e ∈ writtenExtents (shmqPushStores r.q data call).2,
        r.q.start ≤ e.1 ∧ e.2 ≤ r.q.size ∧
          ∀ k ∈ r.unpopped, k.stop ≤ e.1 ∨ e.2 ≤ k.off) ∧
      ∀ store ∈ (shmqPushStores r.q data call).2, ∀ x, store.Touches x →
        ∃ e ∈ writtenExtents (shmqPushStores r.q data call).2, e.1 ≤ x ∧ x < e.2 :=
  shmq_stores_in_ring (by decide) (by decide)
    (.single ⟨.push [1, 2] .plain, show FitsInt [1, 2] by decide, rfl⟩)

end Verben
