import Verben.Lib.Stages
import Verben.Shmq.Bounds
import Verben.Shmq.View

/-!
# A push seen from the middle

`shmq_push` makes its stores one after the other, and a process can die between any
two of them. What a walk finds then is what it found before the push, up to the last
store: the block is written to unused bytes, and the store that moves `tail` behind it
is the one that queues it (`push_view_atomic`). A reset of `tail`, or a pad with `tail`
back at `start`, shows the same blocks.
-/

namespace Verben

open CInt Extents Fold Set Transition

/-- The store changes the bytes from `lo` to `hi` or the block count, if anything. -/
def Store.Inside (lo hi : Int) : Store → Prop
  | .tail _ => False
  | .word off _ => lo ≤ off ∧ off + sizeofBlock ≤ hi
  | .byte off _ => lo ≤ off ∧ off < hi
  | .incCnt => True

/-- The stores of a block up to the one that queues it. -/
def blockStores (off : Int) (data : List UInt8) : List Store :=
  .word off (toUInt64 (data.length + sizeofBlock)).toNat ::
    memcpyStores (off + sizeofBlock) data ++ [.incCnt]

theorem successStores_eq (off : Int) (data : List UInt8) :
    successStores off data = blockStores off data ++ [.tail (off + reqSize data.length)] := by
  unfold successStores blockStores
  simp only [List.cons_append, List.append_assoc, List.nil_append]

theorem inside_blockStores {off : Int} {data : List UInt8} :
    ∀ store ∈ blockStores off data, store.Inside off (off + blkSpan data) := by
  intro store mem
  have span := blkSpan_bounds data
  unfold blockStores at mem
  rw [List.cons_append] at mem
  rcases List.mem_cons.mp mem with rfl | mem
  · unfold Store.Inside sizeofBlock
    omega
  · rcases List.mem_append.mp mem with mem | mem
    · obtain ⟨x, b, rfl, low, high⟩ := mem_memcpyStores mem
      unfold sizeofBlock at low high
      unfold Store.Inside
      omega
    · rw [List.mem_singleton.mp mem]
      trivial

section Midway

variable {q : Shmq} {live : List Blk} {data : List UInt8} {lo hi : Int}

/-- A store to unused bytes shows the same blocks, and leaves those bytes unused. -/
theorem Shown.apply {store : Store} (shown : Shown q live) (unused : q.Unused lo hi)
    (inside : store.Inside lo hi) :
    Shown (store.apply q) live ∧ (store.apply q).Unused lo hi := by
  cases store with
  | tail off => exact absurd inside id
  | word off w =>
      rcases inside with ⟨low, high⟩
      unfold sizeofBlock at high
      exact ⟨shown.congr unused rfl rfl rfl rfl fun miss =>
        ByteMem.eqOn_writeWord (by omega), unused⟩
  | byte off b =>
      rcases inside with ⟨low, high⟩
      refine ⟨shown.congr unused rfl rfl rfl rfl fun miss => ByteMem.eqOn_write ?_, unused⟩
      rw [List.length_singleton]
      omega
  | incCnt => exact ⟨shown.congr unused rfl rfl rfl rfl fun _ => fun _ _ => rfl, unused⟩

/-- While a block is written to unused bytes, the same blocks are shown. -/
theorem stages_block {off : Int} (shown : Shown q live)
    (unused : q.Unused off (off + blkSpan data)) :
    Stages Store.apply (Shown · live) q (blockStores off data) := by
  have each : Stages Store.apply
      (fun q' => Shown q' live ∧ q'.Unused off (off + blkSpan data)) q (blockStores off data) :=
    .of_keep (fun both inside => both.1.apply both.2 inside) ⟨shown, unused⟩ inside_blockStores
  exact fun pre before => (each pre before).1

theorem stages_reset (ring : q.Ring) (layout : Layout q live) :
    Stages Store.apply (Shown · live) q (resetStores q) := by
  have after : Shown (q.applyStores (resetStores q)) live := by
    rw [applyStores_reset]
    exact (layout_reset ring layout).shown
  unfold resetStores at after ⊢
  split at after
  · next parked =>
      rw [if_pos parked]
      exact stages_cons.mpr ⟨layout.shown, stages_nil.mpr after⟩
  · next running =>
      rw [if_neg running]
      exact stages_nil.mpr layout.shown

/-- A block at `tail`. -/
theorem stages_placed (ring : q.Ring) (layout : Layout q live)
    (room : q.Fits (pushTail q) (blkSpan data)) :
    Stages Store.apply (Shown · live) q (resetStores q ++ blockStores (pushTail q) data) := by
  refine stages_append.mpr ⟨stages_reset ring layout, ?_⟩
  have reset : (resetStores q).foldl Store.apply q = q.setTail (pushTail q) := applyStores_reset q
  rw [reset]
  apply stages_block (layout_reset ring layout).shown
  unfold Shmq.Fits at room
  change if q.head ≤ pushTail q then pushTail q ≤ pushTail q ∨ pushTail q + blkSpan data ≤ q.head
    else pushTail q ≤ pushTail q ∧ pushTail q + blkSpan data ≤ q.head
  by_cases order : q.head ≤ pushTail q
  · rw [if_pos order]
    exact Or.inl (Int.le_refl _)
  · rw [if_neg order]
    exact ⟨Int.le_refl _, by omega⟩

/-- A pad at `tail`, and a block at `start`. -/
theorem stages_wrapped (ring : q.Ring) (layout : Layout q live)
    (room : q.FitsWrapped (pushTail q) (blkSpan data)) :
    Stages Store.apply (Shown · live) q (resetStores q ++
      [.word (pushTail q) ((toUInt64 (q.size - pushTail q)).toNat ||| padBlock),
        .tail q.start] ++ blockStores q.start data) := by
  rcases room with ⟨order, room⟩
  have reset : (resetStores q).foldl Store.apply q = q.setTail (pushTail q) := applyStores_reset q
  have tailBounds := pushTail_bounds ring layout
  have size := ring.size_lt
  have start := ring.start_eq
  have layout' := layout_reset ring layout
  have span := blkSpan_bounds data
  -- the pad is written behind the last block
  have unused : (q.setTail (pushTail q)).Unused (pushTail q) (pushTail q + 8) := by
    change if q.head ≤ pushTail q then pushTail q ≤ pushTail q ∨ _ else _
    rw [if_pos order]
    exact Or.inl (Int.le_refl _)
  have inside : Store.Inside (pushTail q) (pushTail q + 8)
      (.word (pushTail q) ((toUInt64 (q.size - pushTail q)).toNat ||| padBlock)) :=
    ⟨Int.le_refl _, Int.le_refl _⟩
  have padded := layout'.shown.apply unused inside
  -- and with `tail` at `start` a walk goes there from the pad
  have turned : Shown (Store.apply (Store.apply (q.setTail (pushTail q)) (.word (pushTail q)
      ((toUInt64 (q.size - pushTail q)).toNat ||| padBlock))) (.tail q.start)) live := by
    rw [← List.append_nil live]
    cases layout' with
    | tiny small head tail =>
        simp only [Shmq.start_setTail, Shmq.head_setTail, Shmq.size_setTail] at small head
        omega
    | line nonempty behind ahead tailLe apart held =>
        simp only [Shmq.tail_setTail, Shmq.head_setTail, Shmq.size_setTail,
          Shmq.start_setTail] at ahead tailLe nonempty
        refine .wrap (by change q.start < q.head; omega) tailLe ahead rfl (Or.inr ?_) ?_
        · have word : (toUInt64 (q.size - pushTail q)).toNat ||| padBlock < 2 ^ 64 := by
            apply or_padBlock_lt
            rw [toUInt64_of_range (by omega) (by omega)]
            omega
          change (q.mem.writeWord _ _).readWord _ &&& padBlock ≠ 0
          rw [ByteMem.readWord_writeWord word]
          exact or_padBlock_and_padBlock _
        · intro k mem
          rw [List.append_nil] at mem
          have bounds := ahead.mem mem
          exact (held k (List.mem_append_right _ mem)).congr
            (ByteMem.eqOn_writeWord (Or.inl bounds.2.2))
    | wrap nonempty aligned upper lower tailLt seamAt held =>
        simp only [Shmq.tail_setTail, Shmq.head_setTail] at tailLt
        omega
    | stale nonempty head tail behind held =>
        simp only [Shmq.start_setTail, Shmq.head_setTail] at head
        omega
  rw [List.append_assoc]
  refine stages_append.mpr ⟨stages_reset ring layout, ?_⟩
  rw [reset]
  refine stages_cons.mpr ⟨layout'.shown, stages_cons.mpr ⟨padded.1, stages_block turned ?_⟩⟩
  unfold Shmq.Unused
  change if q.head ≤ q.start then _ else q.start ≤ q.start ∧ q.start + blkSpan data ≤ q.head
  rw [if_neg (by omega)]
  omega

/-- The stores of a push that does not succeed; and those of one that does, up to the
last, which moves `tail`. -/
theorem stages_push (ring : q.Ring) (layout : Layout q live) (fits : FitsInt data)
    (call : ShmqCall) :
    ((shmqPushStores q data call).1 ≠ .ok ∧
        Stages Store.apply (Shown · live) q (shmqPushStores q data call).2) ∨
      ∃ early off, (shmqPushStores q data call).1 = .ok ∧
        (shmqPushStores q data call).2 = early ++ [.tail off] ∧
        Stages Store.apply (Shown · live) q early := by
  cases shmqPush_outcome ring layout fits call with
  | stop _ stores =>
      rw [stores]
      exact Or.inl ⟨nofun, stages_nil.mpr layout.shown⟩
  | full _ _ _ stores =>
      rw [stores]
      exact Or.inl ⟨by cases call.wait <;> simp, stages_reset ring layout⟩
  | placed _ room stores _ =>
      rw [stores, successStores_eq, ← List.append_assoc]
      exact Or.inr ⟨_, _, rfl, rfl, stages_placed ring layout room⟩
  | wrapped _ room stores _ =>
      rw [stores, successStores_eq, ← List.append_assoc]
      exact Or.inr ⟨_, _, rfl, rfl, stages_wrapped ring layout room⟩

end Midway

/-- **No reader sees a part of a push.** In every state that a run of calls reaches, and
for every payload whose block fits an `int`: after every proper prefix of the stores of
`shmq_push`, and after all stores of a push that does not return 0, a walk finds the
payloads that it found before; after all stores of a push that returns 0 it finds these
and the new one. -/
theorem push_view_atomic {sz : Int} (mapped : shmqAlign sz < 2 ^ 63) {r : RingRun}
    (reach : Reach RingRun.step (fun _ op => op.Fits) (RingRun.init sz) r) {data : List UInt8}
    (fits : FitsInt data) (call : ShmqCall) :
    ∃ payloads, r.q.view = some payloads ∧
      (∀ pre, pre <+: (shmqPushStores r.q data call).2 →
        (pre ≠ (shmqPushStores r.q data call).2 ∨ (shmqPush r.q data call).1 ≠ .ok) →
        (r.q.applyStores pre).view = some payloads) ∧
      ((shmqPush r.q data call).1 = .ok →
        (shmqPush r.q data call).2.view = some (payloads ++ [data])) := by
  obtain ⟨⟨ring, live, layout, _⟩, _⟩ := RingRun.inv_of_reach mapped reach
  have few := layout.mul_length_le ring
  have view : ∀ {pre}, Shown (r.q.applyStores pre) live →
      (r.q.applyStores pre).view = some (live.map Blk.data) := by
    intro pre shown
    exact shown.view (by rw [Shmq.size_applyStores]; exact few)
  refine ⟨live.map Blk.data, layout.view ring, ?_, ?_⟩
  · intro pre before either
    rcases stages_push ring layout fits call with ⟨_, each⟩ | ⟨early, off, ok, stores, each⟩
    · exact view (each pre before)
    · rcases either with proper | failed
      · rw [stores] at before proper
        exact view (each.proper before proper)
      · exact absurd ok failed
  · intro ok
    obtain ⟨ring', ⟨_, ⟨off, queued⟩, _⟩ | ⟨failed, _⟩⟩ := shmqPush_spec ring layout fits call
    · rw [queued.view ring', List.map_append]
      rfl
    · exact absurd ok failed

/-- A push of five bytes into a ring of 64 bytes that holds a block already. -/
theorem push_view_atomic_64 :
    let q := (shmqPush (shmqInit 64) [1, 2] .plain).2
    ∃ payloads, q.view = some payloads ∧
      (∀ pre, pre <+: (shmqPushStores q [3, 4, 5, 6, 7] .plain).2 →
        (pre ≠ (shmqPushStores q [3, 4, 5, 6, 7] .plain).2 ∨
          (shmqPush q [3, 4, 5, 6, 7] .plain).1 ≠ .ok) →
        (q.applyStores pre).view = some payloads) ∧
      ((shmqPush q [3, 4, 5, 6, 7] .plain).1 = .ok →
        (shmqPush q [3, 4, 5, 6, 7] .plain).2.view =
          some (payloads ++ [[3, 4, 5, 6, 7]])) :=
  push_view_atomic (by decide) (.single ⟨.push [1, 2] .plain, show FitsInt [1, 2] by decide, rfl⟩)
    (show FitsInt [3, 4, 5, 6, 7] by decide) .plain

end Verben
