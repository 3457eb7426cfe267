import Verben.Shmq.Bounds
import Verben.Shmq.View

/-!
# Blocks that no `int` holds

`shmq_push` stores the block size in an `int`. A worker adds the message header to a
`retlen` that may be any non-negative `int`, and for the last values of `retlen` the
block size is past the last `int`: `req_size` is negative, and each test for room
succeeds, whatever room there is (`push_of_oversize`). Exactly these pushes break the
rule that a push succeeds if its block fits in the free space
(`push_size_sound_iff`).
-/

namespace Verben

open CInt Transition

/-- `sizeof(shm_msg)` of a `DEBUG` build, with the structure packed. -/
def sizeofShmMsg : Nat := 48

/-- A block of `n` bytes fits in the free space, in exact arithmetic: at `tail`, or
behind a pad at `start`, with `head` and `tail` still apart. -/
def Shmq.HasRoom (q : Shmq) (n : Int) : Prop :=
  q.Fits (pushTail q) n ∨ q.FitsWrapped (pushTail q) n

instance (q : Shmq) (n : Int) : Decidable (q.HasRoom n) :=
  inferInstanceAs (Decidable (
    ((q.head ≤ pushTail q ∧ (pushTail q + n < q.size ∨
      (q.head ≠ q.start ∧ pushTail q + n = q.size))) ∨
        (pushTail q < q.head ∧ pushTail q + n < q.head)) ∨
      (q.head ≤ pushTail q ∧ q.start + n < q.head)))

/-- The push succeeds and its block fits in the free space, or it is refused and leaves
the queued payloads as they were. -/
def SizeSound (q : Shmq) (data : List UInt8) (call : ShmqCall) : Prop :=
  ((shmqPush q data call).1 = .ok ∧ q.HasRoom (blkSpan data)) ∨
    ((shmqPush q data call).1 = (if call.wait then .again else .error) ∧
      (shmqPush q data call).2.view = q.view)

/-- Room is a piece of the ring that no queued block uses. -/
theorem Shmq.HasRoom.free {q : Shmq} {live : List Blk} {n : Int} (room : q.HasRoom n)
    (ring : q.Ring) (layout : Layout q live) (positive : 0 ≤ n) :
    ∃ off, q.start ≤ off ∧ off + n ≤ q.size ∧ ∀ k ∈ live, k.stop ≤ off ∨ off + n ≤ k.off := by
  have reset := layout_reset ring layout
  rcases room with here | wrapped
  · obtain ⟨low, high, apart⟩ := reset.free_of_fits positive here
    exact ⟨pushTail q, low, high, apart⟩
  · obtain ⟨high, _, _, apart⟩ := reset.free_of_fitsWrapped positive wrapped
    exact ⟨q.start, Int.le_refl _, high, fun k mem => Or.inr (apart k mem).2⟩

section Oversize

variable {q : Shmq} {live : List Blk} {data : List UInt8} {call : ShmqCall}

theorem reqSize_of_oversize (large : 2 ^ 31 ≤ blkSpan data) (word : blkSpan data < 2 ^ 32) :
    reqSize data.length = blkSpan data - 2 ^ 32 := by
  unfold reqSize
  rw [shmqAlign_block (by omega), toInt32_of_overflow large word]

/-- Past the last `int`, every push succeeds. -/
theorem push_of_oversize (ring : q.Ring) (layout : Layout q live)
    (large : 2 ^ 31 ≤ blkSpan data) (word : blkSpan data < 2 ^ 32) (running : call.stop = false) :
    (shmqPush q data call).1 = .ok := by
  have req := reqSize_of_oversize large word
  have bounds := layout.bounds
  have tail := pushTail_bounds ring layout
  have start := ring.start_eq
  have size := ring.size_lt
  unfold shmqPush shmqPushStores
  simp only [running, Bool.false_eq_true, if_false]
  by_cases order : q.head ≤ pushTail q
  · rw [if_pos order]
    split
    · rfl
    · rw [if_neg (by omega)]
  · rw [if_neg order, if_pos (by omega)]

/-- Up to the last `int`, the decision is that of exact arithmetic. -/
theorem sizeSound_of_fits (ring : q.Ring) (layout : Layout q live) (fits : FitsInt data)
    (running : call.stop = false) : SizeSound q data call := by
  obtain ⟨ring', kept⟩ := shmqPush_spec ring layout fits call
  cases shmqPush_outcome ring layout fits call with
  | stop stop _ =>
      rw [running] at stop
      cases stop
  | full _ _ _ stores =>
      have pushed := congrArg Prod.fst (shmqPush_of_full stores)
      rcases kept with ⟨ok, _, _⟩ | ⟨_, same, _⟩
      · exact absurd (pushed.symm.trans ok) (refused_ne_ok call)
      · exact Or.inr ⟨pushed, (same.view ring').trans (layout.view ring).symm⟩
  | placed _ room stores _ =>
      rw [SizeSound, shmqPush_of_placed fits stores]
      exact Or.inl ⟨rfl, Or.inl room⟩
  | wrapped _ room stores _ =>
      rw [SizeSound, shmqPush_of_wrapped fits stores]
      exact Or.inl ⟨rfl, Or.inr room⟩

/-- Past it, the decision is right where there is room by chance. -/
theorem sizeSound_of_oversize (ring : q.Ring) (layout : Layout q live)
    (large : 2 ^ 31 ≤ blkSpan data) (word : blkSpan data < 2 ^ 32) (running : call.stop = false) :
    SizeSound q data call ↔ q.HasRoom (blkSpan data) := by
  have ok := push_of_oversize ring layout large word running
  have full := refused_ne_ok call
  constructor
  · intro sound
    rcases sound with ⟨_, room⟩ | ⟨refused, _⟩
    · exact room
    · exact absurd (refused.symm.trans ok) full
  · intro room
    exact Or.inl ⟨ok, room⟩

end Oversize

/-- The block of a message has at most 56 bytes more than an `int` counts. -/
theorem blkSpan_msg_lt {retlen : Nat} (int : retlen < 2 ^ 31) {data : List UInt8}
    (len : data.length = sizeofShmMsg + retlen) : blkSpan data < 2 ^ 32 := by
  have span := blkSpan_bounds data
  unfold sizeofShmMsg at len
  omega

/-- **When the block size decides a push.** In every state that a run of calls reaches
whose blocks fit an `int`, and for every `retlen` that a worker can have: `shmq_push`
succeeds only into the free space and is refused without effect otherwise, if and only if
the block fits an `int` or there is room for it. -/
theorem push_size_sound_iff {sz : Int} (mapped : shmqAlign sz < 2 ^ 63) {r : RingRun}
    (reach : Reach RingRun.step (fun _ op => op.Fits) (RingRun.init sz) r)
    {retlen : Nat} (int : retlen < 2 ^ 31) {data : List UInt8}
    (len : data.length = sizeofShmMsg + retlen) {call : ShmqCall} (running : call.stop = false) :
    SizeSound r.q data call ↔ blkSpan data < 2 ^ 31 ∨ r.q.HasRoom (blkSpan data) := by
  obtain ⟨⟨ring, live, layout, _⟩, _⟩ := RingRun.inv_of_reach mapped reach
  by_cases fits : blkSpan data < 2 ^ 31
  · exact ⟨fun _ => Or.inl fits, fun _ => sizeSound_of_fits ring layout fits running⟩
  · have large : 2 ^ 31 ≤ blkSpan data := Int.not_lt.mp fits
    rw [sizeSound_of_oversize ring layout large (blkSpan_msg_lt int len) running]
    exact ⟨Or.inr, fun either => either.resolve_left fits⟩

/-- Three requests, two of which were taken. -/
def twoTaken : List RingOp :=
  [.push (List.replicate 60 1) .plain, .push (List.replicate 50 2) .plain,
    .push (List.replicate 40 3) .plain, .pop .plain, .pop .plain]

/-- An empty response in that ring, which has room for it only at its start. -/
theorem push_size_sound_iff_two_taken :
    ∃ r, Reach RingRun.step (fun _ op => op.Fits) (RingRun.init 256) r ∧
      r.q.blkCnt = 1 ∧ r.q.size < r.q.tail + blkSpan (List.replicate 48 0) ∧
      SizeSound r.q (List.replicate 48 0) .plain := by
  have ran : (runGuarded RingRun.step (fun _ op => op.Fits) (RingRun.init 256) twoTaken).map
      (fun r => (r.q.blkCnt, r.q.size, r.q.tail)) = some (1, 256, 208) := by decide +kernel
  obtain ⟨r, same, state⟩ := Option.map_eq_some_iff.mp ran
  simp only [Prod.mk.injEq] at state
  obtain ⟨count, size, tail⟩ := state
  have reach := reach_of_runGuarded same
  have len : (List.replicate 48 (0 : UInt8)).length = sizeofShmMsg + 0 := List.length_replicate
  refine ⟨r, reach, count, ?_, (push_size_sound_iff (by decide) reach (by decide) len rfl).mpr
    (.inl (by decide))⟩
  rw [size, tail]
  decide

/-- A fresh queue of 1 MiB takes a block of more than 2 GiB. -/
theorem push_size_unsound :
    ∃ retlen : Nat, retlen < 2 ^ 31 ∧ ¬ SizeSound (shmqInit 1048576)
      (List.replicate (sizeofShmMsg + retlen) 0) .plain := by
  refine ⟨2 ^ 31 - 1, by decide, ?_⟩
  have mapped : shmqAlign 1048576 < 2 ^ 63 := by decide
  have span : blkSpan (List.replicate (sizeofShmMsg + (2 ^ 31 - 1)) 0) = 2 ^ 31 + 56 := by
    unfold blkSpan
    rw [List.length_replicate]
    rfl
  rw [sizeSound_of_oversize (ring_shmqInit mapped) (layout_shmqInit _) (by omega) (by omega) rfl,
    span]
  decide

end Verben
