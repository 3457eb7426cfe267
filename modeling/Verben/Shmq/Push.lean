import Verben.Shmq.Layout

/-!
# shmq_push keeps the layout

`shmqPushStores` first resets a `tail` parked at `size`, then places the block at
`tail`, or behind a pad at `start`, or gives up. The three outcomes are told
apart in exact arithmetic (`Shmq.Fits`, `Shmq.FitsWrapped`), and each of the moves
keeps the layout: `layout_reset`, `layout_place`, `layout_wrap`.
-/

namespace Verben

open CInt Extents Set

/-! ## The moves -/

/-- The block is placed at `off`, and `tail` moves behind it. -/
def Shmq.place (q : Shmq) (off : Int) (data : List UInt8) : Shmq :=
  { q with
    mem := (q.mem.writeWord off (data.length + 8)).write (off + 8) data
    blkCnt := toInt32 (q.blkCnt + 1)
    tail := off + blkSpan data }

/-- A pad is written at `tail`, and `tail` goes back to `start`. -/
def Shmq.pad (q : Shmq) : Shmq :=
  { q with
    mem := q.mem.writeWord q.tail ((toUInt64 (q.size - q.tail)).toNat ||| padBlock)
    tail := q.start }

theorem Shmq.applyStores_append (q : Shmq) (xs ys : List Store) :
    q.applyStores (xs ++ ys) = (q.applyStores xs).applyStores ys :=
  List.foldl_append

theorem applyStores_memcpy (q : Shmq) (off : Int) (data : List UInt8) :
    q.applyStores (memcpyStores off data) = { q with mem := q.mem.write off data } := by
  induction data generalizing q off with
  | nil => rfl
  | cons b bs ih => exact ih _ _

theorem applyStores_success (q : Shmq) (off : Int) {data : List UInt8} (fits : FitsInt data) :
    q.applyStores (successStores off data) = q.place off data := by
  have span := blkSpan_bounds data
  have small : blkSpan data < 2 ^ 31 := fits
  have word : (toUInt64 (data.length + sizeofBlock)).toNat = data.length + 8 := by
    unfold sizeofBlock
    rw [toUInt64_of_range (by omega) (by omega)]
    omega
  unfold successStores
  rw [word, reqSize_of_fits fits]
  change (((q.applyStores [.word off (data.length + 8)]).applyStores
    (memcpyStores (off + sizeofBlock) data ++ _))) = _
  rw [Shmq.applyStores_append, applyStores_memcpy]
  rfl

theorem applyStores_reset (q : Shmq) :
    q.applyStores (resetStores q) = q.setTail (pushTail q) := by
  unfold resetStores pushTail
  split
  · rfl
  · rfl

/-- Placing a block changes memory only inside its extent. -/
theorem Shmq.eqOn_place (q : Shmq) {off lo hi : Int} {data : List UInt8}
    (miss : hi ≤ off ∨ off + blkSpan data ≤ lo) :
    EqOn (q.place off data).mem q.mem (Ico lo hi) := by
  have span := blkSpan_bounds data
  have tail : EqOn (q.place off data).mem (q.mem.writeWord off (data.length + 8)) (Ico lo hi) :=
    ByteMem.eqOn_write (by omega)
  exact tail.trans (ByteMem.eqOn_writeWord (by omega))

/-- A placed block is held. -/
theorem Shmq.held_place (q : Shmq) {off : Int} {data : List UInt8} (fits : FitsInt data) :
    (Blk.mk off data).Held (q.place off data).mem := by
  have span := blkSpan_bounds data
  have small : blkSpan data < 2 ^ 31 := fits
  have frame : EqOn (q.place off data).mem (q.mem.writeWord off (data.length + 8))
      (Ico off (off + 8)) := ByteMem.eqOn_write (Or.inl (Int.le_refl _))
  refine ⟨?_, ByteMem.read_write _ _ _, fits⟩
  rw [ByteMem.readWord_congr frame (Int.le_refl _) (Int.le_refl _)]
  exact ByteMem.readWord_writeWord (by omega)

/-! ## The outcomes in exact arithmetic -/

/-- `n` bytes at `tail` leave `head` and `tail` apart. -/
def Shmq.Fits (q : Shmq) (tail n : Int) : Prop :=
  (q.head ≤ tail ∧ (tail + n < q.size ∨ (q.head ≠ q.start ∧ tail + n = q.size))) ∨
    (tail < q.head ∧ tail + n < q.head)

/-- `n` bytes fit behind a pad, between `start` and `head`. -/
def Shmq.FitsWrapped (q : Shmq) (tail n : Int) : Prop :=
  q.head ≤ tail ∧ q.start + n < q.head

section Outcomes

variable {q : Shmq} {live : List Blk} {data : List UInt8} {call : ShmqCall}

theorem pushTail_eq (ring : q.Ring) (layout : Layout q live) :
    pushTail q = if q.tail = q.size then q.start else q.tail := by
  have bounds := layout.bounds
  have start := ring.start_eq
  have size := ring.size_lt
  unfold pushTail
  rw [toUInt64_of_range (by omega) (by omega)]

theorem pushTail_bounds (ring : q.Ring) (layout : Layout q live) :
    q.start ≤ pushTail q ∧ (q.start < q.size → pushTail q < q.size) ∧
      (q.size ≤ q.start → pushTail q = q.start) := by
  have bounds := layout.bounds
  rw [pushTail_eq ring layout]
  split <;> omega

theorem toUInt64_pushTail (ring : q.Ring) (layout : Layout q live) (fits : FitsInt data) :
    toUInt64 (pushTail q + blkSpan data) = pushTail q + blkSpan data := by
  have bounds := pushTail_bounds ring layout
  have start := ring.start_eq
  have size := ring.size_lt
  have span := blkSpan_bounds data
  have small : blkSpan data < 2 ^ 31 := fits
  exact toUInt64_of_range (by omega) (by omega)

/-- The branches of `shmq_push`, with the conversions gone. -/
theorem shmqPushStores_running (ring : q.Ring) (layout : Layout q live) (fits : FitsInt data)
    (running : call.stop = false) :
    shmqPushStores q data call =
      if q.head ≤ pushTail q then
        if pushTail q + blkSpan data < q.size ∨
            (q.head ≠ q.start ∧ pushTail q + blkSpan data = q.size) then
          (.ok, resetStores q ++ successStores (pushTail q) data)
        else if q.head ≤ q.start + blkSpan data then
          (if call.wait then .again else .error, resetStores q)
        else
          (.ok, resetStores q ++
            [.word (pushTail q) ((toUInt64 (q.size - pushTail q)).toNat ||| padBlock),
              .tail q.start] ++ successStores q.start data)
      else if pushTail q + blkSpan data < q.head then
        (.ok, resetStores q ++ successStores (pushTail q) data)
      else
        (if call.wait then .again else .error, resetStores q) := by
  simp only [shmqPushStores, reqSize_of_fits fits, toUInt64_pushTail ring layout fits, running,
    Bool.false_eq_true, if_false]

theorem shmqPushStores_of_fits (ring : q.Ring) (layout : Layout q live) (fits : FitsInt data)
    (running : call.stop = false) (room : q.Fits (pushTail q) (blkSpan data)) :
    shmqPushStores q data call =
      (.ok, resetStores q ++ successStores (pushTail q) data) := by
  rw [shmqPushStores_running ring layout fits running]
  rcases room with ⟨order, room⟩ | ⟨order, room⟩
  · rw [if_pos order, if_pos room]
  · rw [if_neg (by omega), if_pos room]

theorem shmqPushStores_of_fitsWrapped (ring : q.Ring) (layout : Layout q live)
    (fits : FitsInt data) (running : call.stop = false)
    (noRoom : ¬ q.Fits (pushTail q) (blkSpan data))
    (room : q.FitsWrapped (pushTail q) (blkSpan data)) :
    shmqPushStores q data call =
      (.ok, resetStores q ++
        [.word (pushTail q) ((toUInt64 (q.size - pushTail q)).toNat ||| padBlock),
          .tail q.start] ++ successStores q.start data) := by
  rcases room with ⟨order, room⟩
  rw [shmqPushStores_running ring layout fits running, if_pos order,
    if_neg (fun sum => noRoom (Or.inl ⟨order, sum⟩)), if_neg (by omega)]

theorem shmqPushStores_of_full (ring : q.Ring) (layout : Layout q live) (fits : FitsInt data)
    (running : call.stop = false) (noRoom : ¬ q.Fits (pushTail q) (blkSpan data))
    (noWrap : ¬ q.FitsWrapped (pushTail q) (blkSpan data)) :
    shmqPushStores q data call =
      (if call.wait then .again else .error, resetStores q) := by
  rw [shmqPushStores_running ring layout fits running]
  by_cases order : q.head ≤ pushTail q
  · rw [if_pos order, if_neg (fun sum => noRoom (Or.inl ⟨order, sum⟩)),
      if_pos (Int.not_lt.mp fun room => noWrap ⟨order, room⟩)]
  · rw [if_neg order, if_neg (fun sum => noRoom (Or.inr ⟨by omega, sum⟩))]

end Outcomes

/-! ## The moves keep the layout -/

theorem Shmq.Ring.congr {q q' : Shmq} (ring : q.Ring) (start : q'.start = q.start)
    (size : q'.size = q.size) : q'.Ring :=
  ⟨start.trans ring.start_eq, size ▸ ring.size_nonneg, size ▸ ring.size_lt,
    size ▸ ring.size_dvd⟩

theorem layout_reset {q : Shmq} {live : List Blk} (ring : q.Ring) (layout : Layout q live) :
    Layout (q.setTail (pushTail q)) live := by
  have target := pushTail_eq ring layout
  by_cases parked : q.tail = q.size
  · rw [if_pos parked] at target
    rw [target]
    cases layout with
    | tiny small head tail => exact .tiny small head rfl
    | @line past _ room behind ahead tailLe apart held =>
        have aligned : (8 : Int) ∣ q.head :=
          behind.dvd Blk.dvd_stop_sub_off (by rw [ring.start_eq]; decide)
        have order : q.start < q.head := by
          have := behind.le
          have := apart parked
          omega
        have wrapped : Layout (q.setTail q.start) (live ++ []) :=
          .wrap room aligned ahead rfl order (Or.inl parked) fun k mem => by
            rw [List.append_nil] at mem
            exact held k (List.mem_append_right _ mem)
        rwa [List.append_nil] at wrapped
    | wrap room aligned upper lower tailLt seam held =>
        have := upper.le
        omega
    | stale room head tail behind held =>
        exact .line room (.nil head.symm) head (Int.le_of_lt room)
          (fun full => absurd full (Int.ne_of_lt room)) (by simp)
  · rw [if_neg parked] at target
    rw [target]
    exact layout

/-- A block with room at `tail` joins the queue. -/
theorem layout_place {q : Shmq} {live : List Blk} {data : List UInt8} (layout : Layout q live)
    (fits : FitsInt data) (room : q.Fits q.tail (blkSpan data)) :
    Layout (q.place q.tail data) (live ++ [⟨q.tail, data⟩]) := by
  have positive : q.tail < q.tail + blkSpan data := (Blk.mk q.tail data).off_lt_stop
  unfold Shmq.Fits at room
  cases layout with
  | tiny small head tail => omega
  | @line past _ ring behind ahead tailLe apart held =>
      have order := ahead.le
      refine .line ring behind (ahead.snoc rfl positive) ?_ ?_ ?_
      · change q.tail + blkSpan data ≤ q.size
        omega
      · intro full
        change q.head ≠ q.start
        change q.tail + blkSpan data = q.size at full
        omega
      · intro k mem
        rw [← List.append_assoc] at mem
        rcases List.mem_append.mp mem with old | new
        · have inside := (behind.append ahead).mem old
          exact (held k old).congr (q.eqOn_place (Or.inl inside.2.2))
        · rw [List.mem_singleton.mp new]
          exact q.held_place fits
  | @wrap high low seam ring aligned upper lower tailLt seamAt held =>
      have above := upper.le
      rw [List.append_assoc]
      refine .wrap ring aligned upper (lower.snoc rfl positive) ?_ ?_ ?_
      · change q.tail + blkSpan data < q.head
        omega
      · rcases seamAt with atSize | ⟨seamLt, _, pad⟩
        · exact Or.inl atSize
        · have frame : EqOn (q.place q.tail data).mem q.mem (Ico seam (seam + 8)) :=
            q.eqOn_place (Or.inr (by omega))
          refine Or.inr ⟨seamLt, by simp, ?_⟩
          rwa [ByteMem.readWord_congr frame (Int.le_refl _) (Int.le_refl _)]
      · intro k mem
        rw [← List.append_assoc] at mem
        rcases List.mem_append.mp mem with old | new
        · refine (held k old).congr (q.eqOn_place ?_)
          rcases List.mem_append.mp old with old | old
          · have inside := upper.mem old
            omega
          · exact Or.inl (lower.mem old).2.2
        · rw [List.mem_singleton.mp new]
          exact q.held_place fits
  | stale ring head tail behind held => omega

/-- A block with room behind a pad joins the queue at `start`. -/
theorem layout_wrap {q : Shmq} {live : List Blk} {data : List UInt8} (layout : Layout q live)
    (fits : FitsInt data) (ring : q.Ring) (notParked : q.start < q.size → q.tail < q.size)
    (room : q.FitsWrapped q.tail (blkSpan data)) :
    Layout (q.pad.place q.start data) (live ++ [⟨q.start, data⟩]) := by
  have positive : q.start < q.start + blkSpan data := (Blk.mk q.start data).off_lt_stop
  rcases room with ⟨order, room⟩
  cases layout with
  | tiny small head tail => omega
  | @line past _ nonempty behind ahead tailLe apart held =>
      have aligned : (8 : Int) ∣ q.head :=
        behind.dvd Blk.dvd_stop_sub_off (by rw [ring.start_eq]; decide)
      have start := ring.start_eq
      have size := ring.size_lt
      -- the pad's word survives the block, which ends before `head`
      have pad : (q.pad.place q.start data).mem.readWord q.tail =
          (toUInt64 (q.size - q.tail)).toNat ||| padBlock := by
        have frame : EqOn (q.pad.place q.start data).mem q.pad.mem (Ico q.tail (q.tail + 8)) :=
          q.pad.eqOn_place (Or.inr (by omega))
        rw [ByteMem.readWord_congr frame (Int.le_refl _) (Int.le_refl _)]
        refine ByteMem.readWord_writeWord (or_padBlock_lt ?_)
        rw [toUInt64_of_range (by omega) (by omega)]
        omega
      have tailLt := notParked nonempty
      refine .wrap nonempty aligned ahead ⟨rfl, positive, rfl⟩ room ?_ ?_
      · refine Or.inr ⟨tailLt, by simp, ?_⟩
        rw [pad]
        exact or_padBlock_and_padBlock _
      · intro k mem
        rcases List.mem_append.mp mem with old | new
        · have inside := ahead.mem old
          have behindPad : k.Held q.pad.mem :=
            (held k (List.mem_append_right _ old)).congr
              (ByteMem.eqOn_writeWord (Or.inl inside.2.2))
          exact behindPad.congr (q.pad.eqOn_place (Or.inr (by omega)))
        · rw [List.mem_singleton.mp new]
          exact q.pad.held_place fits
  | wrap nonempty aligned upper lower tailLt seam held => omega
  | stale nonempty head tail behind held => omega

/-! ## shmq_push -/

/-- The outcomes of `shmq_push` on a queue of the blocks `live`: it does not run,
finds no room, or stores a block at `tail`, or behind a pad at `start`. -/
inductive PushOutcome (q : Shmq) (live : List Blk) (data : List UInt8) (call : ShmqCall) : Prop
  | stop : call.stop = true → shmqPushStores q data call = (.stop, []) →
    PushOutcome q live data call
  | full : call.stop = false →
    ¬ q.Fits (pushTail q) (blkSpan data) → ¬ q.FitsWrapped (pushTail q) (blkSpan data) →
    shmqPushStores q data call = (if call.wait then .again else .error, resetStores q) →
    PushOutcome q live data call
  | placed : call.stop = false → q.Fits (pushTail q) (blkSpan data) →
    shmqPushStores q data call = (.ok, resetStores q ++ successStores (pushTail q) data) →
    Layout ((q.setTail (pushTail q)).place (pushTail q) data)
      (live ++ [⟨pushTail q, data⟩]) →
    PushOutcome q live data call
  | wrapped : call.stop = false → q.FitsWrapped (pushTail q) (blkSpan data) →
    shmqPushStores q data call = (.ok, resetStores q ++
      [.word (pushTail q) ((toUInt64 (q.size - pushTail q)).toNat ||| padBlock),
        .tail q.start] ++ successStores q.start data) →
    Layout ((q.setTail (pushTail q)).pad.place q.start data) (live ++ [⟨q.start, data⟩]) →
    PushOutcome q live data call

section Spec

variable {q : Shmq} {live : List Blk} {data : List UInt8} {call : ShmqCall}

theorem shmqPush_outcome (ring : q.Ring) (layout : Layout q live) (fits : FitsInt data)
    (call : ShmqCall) : PushOutcome q live data call := by
  have reset := layout_reset ring layout
  have bounds := pushTail_bounds ring layout
  by_cases stop : call.stop = true
  · exact .stop stop (by simp only [shmqPushStores, stop, if_true])
  · rw [Bool.not_eq_true] at stop
    by_cases room : q.Fits (pushTail q) (blkSpan data)
    · exact .placed stop room (shmqPushStores_of_fits ring layout fits stop room)
        (layout_place reset fits room)
    · by_cases wrap : q.FitsWrapped (pushTail q) (blkSpan data)
      · exact .wrapped stop wrap
          (shmqPushStores_of_fitsWrapped ring layout fits stop room wrap)
          (layout_wrap reset fits (ring.congr rfl rfl) bounds.2.1 wrap)
      · exact .full stop room wrap
          (shmqPushStores_of_full ring layout fits stop room wrap)

/-- A push that finds no room does not report `ok`, whether or not it waits. -/
theorem refused_ne_ok (call : ShmqCall) :
    (if call.wait then PushRet.again else .error) ≠ .ok := by
  cases call.wait <;> simp

theorem shmqPush_of_stop (stores : shmqPushStores q data call = (.stop, [])) :
    shmqPush q data call = (.stop, q) := by
  unfold shmqPush
  rw [stores]
  rfl

theorem shmqPush_of_full (stores : shmqPushStores q data call =
      (if call.wait then .again else .error, resetStores q)) :
    shmqPush q data call =
      (if call.wait then .again else .error, q.setTail (pushTail q)) := by
  unfold shmqPush
  rw [stores, applyStores_reset]

theorem shmqPush_of_placed (fits : FitsInt data)
    (stores : shmqPushStores q data call =
      (.ok, resetStores q ++ successStores (pushTail q) data)) :
    shmqPush q data call = (.ok, (q.setTail (pushTail q)).place (pushTail q) data) := by
  unfold shmqPush
  rw [stores, Shmq.applyStores_append, applyStores_reset, applyStores_success _ _ fits]

theorem shmqPush_of_wrapped (fits : FitsInt data)
    (stores : shmqPushStores q data call = (.ok, resetStores q ++
      [.word (pushTail q) ((toUInt64 (q.size - pushTail q)).toNat ||| padBlock),
        .tail q.start] ++ successStores q.start data)) :
    shmqPush q data call = (.ok, (q.setTail (pushTail q)).pad.place q.start data) := by
  unfold shmqPush
  rw [stores, Shmq.applyStores_append, Shmq.applyStores_append, applyStores_reset,
    applyStores_success _ _ fits]
  rfl

/-- `shmq_push` adds one block at the end of the queue or, with any other result,
leaves the queue as it was. -/
theorem shmqPush_spec (ring : q.Ring) (layout : Layout q live) (fits : FitsInt data)
    (call : ShmqCall) :
    (shmqPush q data call).2.Ring ∧
    (((shmqPush q data call).1 = .ok ∧
        (∃ off, Layout (shmqPush q data call).2 (live ++ [⟨off, data⟩])) ∧
        (shmqPush q data call).2.blkCnt = toInt32 (q.blkCnt + 1)) ∨
      ((shmqPush q data call).1 ≠ .ok ∧ Layout (shmqPush q data call).2 live ∧
        (shmqPush q data call).2.blkCnt = q.blkCnt)) := by
  cases shmqPush_outcome ring layout fits call with
  | stop _ stores =>
      rw [shmqPush_of_stop stores]
      exact ⟨ring, Or.inr ⟨nofun, layout, rfl⟩⟩
  | full _ _ _ stores =>
      rw [shmqPush_of_full stores]
      exact ⟨ring.congr rfl rfl,
        Or.inr ⟨refused_ne_ok call, layout_reset ring layout, rfl⟩⟩
  | placed _ _ stores placed =>
      rw [shmqPush_of_placed fits stores]
      exact ⟨ring.congr rfl rfl, Or.inl ⟨rfl, ⟨_, placed⟩, rfl⟩⟩
  | wrapped _ _ stores placed =>
      rw [shmqPush_of_wrapped fits stores]
      exact ⟨ring.congr rfl rfl, Or.inl ⟨rfl, ⟨_, placed⟩, rfl⟩⟩

end Spec

end Verben
