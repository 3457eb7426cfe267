import Verben.Shmq.Push

/-!
# shmq_pop keeps the layout

The loop of `shmq_pop` resets a `head` parked at `size` and skips a pad, and ends
on the empty queue or on the block in front (`Front`). `shmqPopSeek_spec` says
which, from any layout. The one surprise is `Shmq.Parked`: with both offsets at
`size` the loop resets `head` alone, takes the queue for nonempty, and ends on the
first block of the lap that was popped before.
-/

namespace Verben

open CInt Extents Set

/-- `tail` is parked at `size` in a ring that has room, and a pop starts at
`start`: the offsets differ although every block was popped. -/
def Shmq.Parked (q : Shmq) : Prop :=
  q.start < q.size ∧ q.tail = q.size ∧ (q.head = q.size ∨ q.head = q.start)

instance (q : Shmq) : Decidable q.Parked :=
  inferInstanceAs (Decidable (q.start < q.size ∧ q.tail = q.size ∧
    (q.head = q.size ∨ q.head = q.start)))

/-- `head` stands on the block `k`, and `rest` is the queue behind it. -/
structure Front (q : Shmq) (k : Blk) (rest : List Blk) : Prop where
  head : k.off = q.head
  held : k.Held q.mem
  rest : Layout (q.setHead k.stop) rest

/-- The ends of the loop of `shmq_pop` in a queue of the blocks `live`, with
`shmq_stop` clear: no block, the first block, or a block popped before. -/
inductive SeekOutcome (q : Shmq) (live : List Blk) : Prop
  | empty {head : Int} :
    shmqPopSeek false 2 q = some (.empty, q.setHead head) →
    Layout (q.setHead head) [] → live = [] → ¬ q.Parked → SeekOutcome q live
  | front {head : Int} {k : Blk} {rest : List Blk} :
    shmqPopSeek false 2 q = some (.block, q.setHead head) →
    Front (q.setHead head) k rest →
    Layout (q.setHead head) live → live = k :: rest → ¬ q.Parked → SeekOutcome q live
  | again {head : Int} {k : Blk} {rest : List Blk} :
    shmqPopSeek false 2 q = some (.block, q.setHead head) →
    Front (q.setHead head) k rest →
    Layout (q.setHead head) [] → live = [] → q.Parked → SeekOutcome q live

section Seek

variable {q : Shmq} {live past high low rest : List Blk} {k : Blk} {seam : Int}

theorem popHead_eq (ring : q.Ring) (layout : Layout q live) :
    popHead q = if q.head = q.size then q.start else q.head := by
  have bounds := layout.bounds
  have start := ring.start_eq
  have size := ring.size_lt
  unfold popHead
  rw [toUInt64_of_range (by omega) (by omega)]

theorem shmqPopSeek_of_empty (n : Nat) (empty : popHead q = q.tail) :
    shmqPopSeek false (n + 1) q = some (.empty, q.setHead (popHead q)) := by
  rw [shmqPopSeek_succ, if_neg (by simp), if_pos empty]

theorem shmqPopSeek_of_held (n : Nat) (nonempty : popHead q ≠ q.tail)
    (off : k.off = popHead q) (held : k.Held q.mem) :
    shmqPopSeek false (n + 1) q = some (.block, q.setHead (popHead q)) := by
  have noPad : q.mem.readWord (popHead q) &&& padBlock = 0 := by
    rw [← off]
    exact and_padBlock_of_lt held.small
  rw [shmqPopSeek_succ, if_neg (by simp), if_neg nonempty, if_neg (not_not_intro noPad)]

theorem shmqPopSeek_of_pad (n : Nat) (nonempty : popHead q ≠ q.tail)
    (pad : q.mem.readWord (popHead q) &&& padBlock ≠ 0) :
    shmqPopSeek false (n + 1) q = shmqPopSeek false n (q.setHead q.start) := by
  rw [shmqPopSeek_succ, if_neg (by simp), if_neg nonempty, if_pos pad]

/-- The first block ahead in a line is in front. -/
theorem front_of_line (room : q.start < q.size)
    (behind : Fill Blk.off Blk.stop q.start past q.head)
    (ahead : Fill Blk.off Blk.stop q.head (k :: rest) q.tail) (tailLe : q.tail ≤ q.size)
    (held : ∀ b ∈ past ++ k :: rest, b.Held q.mem) : Front q k rest := by
  rcases ahead with ⟨off, positive, after⟩
  have order := behind.le
  refine ⟨off, held k (by simp), .line room (behind.snoc off k.off_lt_stop) after tailLe ?_ ?_⟩
  · intro _
    change k.stop ≠ q.start
    omega
  · intro b mem
    rw [List.append_assoc] at mem
    exact held b mem

/-- With `tail` at `size` and every block popped, a pop that starts at `start`
finds the first block of the lap. -/
theorem seek_parked (room : q.start < q.size) (tail : q.tail = q.size)
    (atStart : popHead q = q.start) (parked : q.head = q.size ∨ q.head = q.start)
    (lap : Fill Blk.off Blk.stop q.start past q.size) (held : ∀ b ∈ past, b.Held q.mem) :
    SeekOutcome q [] := by
  obtain ⟨k, rest, rfl⟩ := lap.exists_cons room
  have off : k.off = popHead q := lap.1.trans atStart.symm
  have found := shmqPopSeek_of_held 1 (by omega) off (held k List.mem_cons_self)
  rw [atStart] at found
  have ahead : Fill Blk.off Blk.stop q.start (k :: rest) q.tail := by rwa [tail]
  have front : Front (q.setHead q.start) k rest :=
    front_of_line room (.nil rfl) ahead (Int.le_of_eq tail) held
  exact .again found front (.stale room rfl tail lap held) rfl ⟨room, tail, parked⟩

theorem seek_line (target : popHead q = if q.head = q.size then q.start else q.head)
    (room : q.start < q.size) (behind : Fill Blk.off Blk.stop q.start past q.head)
    (ahead : Fill Blk.off Blk.stop q.head live q.tail) (tailLe : q.tail ≤ q.size)
    (apart : q.tail = q.size → q.head ≠ q.start) (held : ∀ k ∈ past ++ live, k.Held q.mem) :
    SeekOutcome q live := by
  have order := ahead.le
  by_cases full : q.head = q.size
  · -- every block of the lap was popped, and `head` alone is reset
    have tail : q.tail = q.size := by omega
    have none : live = [] := by
      rw [full, tail] at ahead
      exact ahead.eq_nil
    rw [if_pos full] at target
    rw [none]
    exact seek_parked room tail target (Or.inl full) (full ▸ behind)
      fun b mem => held b (List.mem_append_left _ mem)
  · rw [if_neg full] at target
    have unparked : ¬ q.Parked := by
      intro both
      rcases both with ⟨-, tail, atSize | atStart⟩
      · exact full atSize
      · exact apart tail atStart
    have layout : Layout (q.setHead q.head) live := .line room behind ahead tailLe apart held
    by_cases empty : q.head = q.tail
    · have none : live = [] := by
        rw [← empty] at ahead
        exact ahead.eq_nil
      have found := shmqPopSeek_of_empty 1 (target.trans empty)
      rw [target] at found
      exact .empty found (none ▸ layout) none unparked
    · obtain ⟨k, rest, rfl⟩ := ahead.exists_cons (by omega)
      have found := shmqPopSeek_of_held 1 (by omega) (ahead.1.trans target.symm)
        (held k (by simp))
      rw [target] at found
      exact .front found (front_of_line (q := q.setHead q.head) room behind ahead tailLe held)
        layout rfl unparked

/-- A wrapped queue whose older blocks are gone reads as a line from `start`. -/
theorem seek_lap (room : q.start < q.size) (lower : Fill Blk.off Blk.stop q.start low q.tail)
    (tailLt : q.tail < q.size) (held : ∀ k ∈ low, k.Held q.mem)
    (found : (∃ k rest, low = k :: rest ∧
        shmqPopSeek false 2 q = some (.block, q.setHead q.start)) ∨
      (low = [] ∧ shmqPopSeek false 2 q = some (.empty, q.setHead q.start))) :
    SeekOutcome q low := by
  have unparked : ¬ q.Parked := by
    intro both
    rcases both with ⟨-, tail, -⟩
    omega
  have layout : Layout (q.setHead q.start) low :=
    .line room (.nil rfl) lower (Int.le_of_lt tailLt)
      (fun full => absurd full (Int.ne_of_lt tailLt)) held
  rcases found with ⟨k, rest, rfl, found⟩ | ⟨rfl, found⟩
  · exact .front found (front_of_line (q := q.setHead q.start) room (.nil rfl) lower
      (Int.le_of_lt tailLt) held) layout rfl unparked
  · exact .empty found layout rfl unparked

theorem seek_wrap (target : popHead q = if q.head = q.size then q.start else q.head)
    (room : q.start < q.size) (aligned : (8 : Int) ∣ q.head)
    (upper : Fill Blk.off Blk.stop q.head high seam)
    (lower : Fill Blk.off Blk.stop q.start low q.tail) (tailLt : q.tail < q.head)
    (seamAt : seam = q.size ∨
      (seam < q.size ∧ low ≠ [] ∧ q.mem.readWord seam &&& padBlock ≠ 0))
    (held : ∀ k ∈ high ++ low, k.Held q.mem) : SeekOutcome q (high ++ low) := by
  have order := upper.le
  have start := lower.le
  by_cases full : q.head = q.size
  · rw [if_pos full] at target
    have atSeam : seam = q.head := by omega
    have none : high = [] := by
      rw [atSeam] at upper
      exact upper.eq_nil
    subst none
    apply seek_lap room lower (by omega) held
    by_cases empty : q.start = q.tail
    · have found := shmqPopSeek_of_empty 1 (target.trans empty)
      rw [target] at found
      rw [← empty] at lower
      exact Or.inr ⟨lower.eq_nil, found⟩
    · obtain ⟨k, rest, rfl⟩ := lower.exists_cons (by omega)
      have found := shmqPopSeek_of_held 1 (by omega) (lower.1.trans target.symm)
        (held k (by simp))
      rw [target] at found
      exact Or.inl ⟨k, rest, rfl, found⟩
  · rw [if_neg full] at target
    cases high with
    | nil =>
        cases upper
        rcases seamAt with atSize | ⟨seamLt, nonempty, pad⟩
        · exact absurd atSize full
        · -- the seam is a pad: the second pass starts at `start`
          obtain ⟨k, rest, rfl⟩ := List.exists_cons_of_ne_nil nonempty
          have positive := lower.2.1
          have tail := lower.2.2.le
          have again : popHead (q.setHead q.start) = q.start := by
            unfold popHead
            split <;> rfl
          have found := shmqPopSeek_of_held (q := q.setHead q.start) 0
            (by rw [again, Shmq.tail_setHead]; omega) (lower.1.trans again.symm)
            (held k (by simp))
          rw [again, Shmq.setHead_setHead,
            ← shmqPopSeek_of_pad 1 (by omega) (by rw [target]; exact pad)] at found
          exact seek_lap room lower (by omega) held (Or.inl ⟨k, rest, rfl, found⟩)
    | cons k high =>
        have unparked : ¬ q.Parked := by
          intro both
          rcases both with ⟨-, tail, -⟩
          omega
        have layout : Layout (q.setHead q.head) (k :: high ++ low) :=
          .wrap room aligned upper lower tailLt seamAt held
        rcases upper with ⟨off, positive, after⟩
        have first : k.Held q.mem := held k (by simp)
        have found := shmqPopSeek_of_held 1 (by omega) (off.trans target.symm) first
        rw [target] at found
        refine .front found ⟨off, first, .wrap room ?_ after lower ?_ seamAt fun b mem =>
          held b (List.mem_cons_of_mem _ mem)⟩ layout rfl unparked
        · have next := Int.dvd_add k.dvd_stop_sub_off (off ▸ aligned)
          rwa [Int.sub_add_cancel] at next
        · change q.tail < k.stop
          omega

/-- Where the loop of `shmq_pop` ends, from any layout. -/
theorem shmqPopSeek_spec (ring : q.Ring) (layout : Layout q live) : SeekOutcome q live := by
  have target := popHead_eq ring layout
  cases layout with
  | tiny small head tail =>
      have atStart : popHead q = q.start := by
        rw [target]
        split <;> omega
      have found := shmqPopSeek_of_empty 1 (atStart.trans tail.symm)
      rw [atStart] at found
      exact .empty found (.tiny small rfl tail) rfl fun parked => absurd parked.1 (by omega)
  | line room behind ahead tailLe apart held =>
      exact seek_line target room behind ahead tailLe apart held
  | wrap room aligned upper lower tailLt seamAt held =>
      exact seek_wrap target room aligned upper lower tailLt seamAt held
  | stale room head tail behind held =>
      have atStart : popHead q = q.start := by rw [target, if_neg (by omega), head]
      exact seek_parked room tail atStart (Or.inr head) behind held

end Seek

/-! ## The block in front -/

/-- `shmq_pop_success` on a block that is held: it returns the block's data and
moves `head` behind it, unless `malloc` fails. -/
theorem shmqPopBlock_of_front {q : Shmq} {k : Blk} {rest : List Blk} (ring : q.Ring)
    (front : Front q k rest) (mallocOk : Bool) :
    shmqPopBlock q mallocOk =
      if mallocOk then
        (.ok k.data, { q with blkCnt := toInt32 (q.blkCnt - 1) }.setHead k.stop)
      else (.error, q) := by
  have span := blkSpan_bounds k.data
  have small : blkSpan k.data < 2 ^ 31 := front.held.fits
  have after := front.rest.bounds
  rw [Shmq.head_setHead, Shmq.start_setHead, Shmq.size_setHead] at after
  have size := ring.size_lt
  have start := ring.start_eq
  have stop : k.stop = q.head + blkSpan k.data := by rw [← front.head]; rfl
  have word : q.mem.readWord q.head = k.data.length + 8 := by
    rw [← front.head]
    exact front.held.size
  have len : toInt32 (toUInt64 (((k.data.length + 8 : Nat) : Int) - sizeofBlock)) =
      k.data.length := by
    unfold sizeofBlock
    rw [toUInt64_of_range (by omega) (by omega), toInt32_of_range (by omega) (by omega)]
    omega
  have align : shmqAlign ((k.data.length + 8 &&& maxBlkSize : Nat) : Int) = blkSpan k.data := by
    rw [and_maxBlkSize_of_lt (by omega), shmqAlign_of_range (by omega) (by omega)]
    unfold blkSpan
    omega
  have move : toInt64 (q.head + blkSpan k.data) = k.stop := by
    rw [toInt64_of_range (by omega) (by omega), stop]
  have data : q.mem.read (q.head + sizeofBlock) k.data.length = k.data := by
    rw [← front.head]
    exact front.held.data
  unfold shmqPopBlock
  simp only [word, len, align, move, Int.toNat_natCast, data, Int.natCast_nonneg, and_true]

/-! ## shmq_pop -/

/-- The outcomes of `shmq_pop` on a queue of the blocks `live`: it does not run, finds
the queue empty, returns or fails to copy the first block, or does the same with a
block popped before. -/
inductive PopOutcome (q : Shmq) (live : List Blk) (call : ShmqCall) : Prop
  | stop : shmqPop q call = some (.stop, q) → call.stop = true → PopOutcome q live call
  | empty {q' : Shmq} :
    shmqPop q call = some (if call.wait then .again else .error, q') →
    call.stop = false → live = [] → ¬ q.Parked →
    q'.Ring → Layout q' [] → q'.blkCnt = q.blkCnt → PopOutcome q live call
  | noMemory {q' : Shmq} :
    shmqPop q call = some (.error, q') → call.stop = false → call.mallocOk = false →
    q'.Ring → Layout q' live → q'.blkCnt = q.blkCnt → PopOutcome q live call
  | front {q' : Shmq} {k : Blk} {rest : List Blk} :
    shmqPop q call = some (.ok k.data, q') →
    shmqPopSeek call.stop 2 q = some (.block, q.setHead k.off) →
    live = k :: rest → ¬ q.Parked →
    q'.Ring → Layout q' rest → q'.blkCnt = toInt32 (q.blkCnt - 1) → PopOutcome q live call
  | again {q' : Shmq} {k : Blk} {rest : List Blk} :
    shmqPop q call = some (.ok k.data, q') → live = [] → q.Parked →
    q'.Ring → Layout q' rest → PopOutcome q live call

theorem shmqPop_outcome {q : Shmq} {live : List Blk} (ring : q.Ring) (layout : Layout q live)
    (call : ShmqCall) : PopOutcome q live call := by
  have unfolded : shmqPop q call = shmqPopFuel 2 q call := rfl
  by_cases stop : call.stop = true
  · refine .stop ?_ stop
    rw [unfolded, shmqPopFuel, shmqPopSeek_succ, if_pos stop]
  · rw [Bool.not_eq_true] at stop
    rw [shmqPopFuel, stop] at unfolded
    cases shmqPopSeek_spec ring layout with
    | empty found done none unparked =>
        rw [found] at unfolded
        exact .empty unfolded stop none unparked (ring.congr rfl rfl) done rfl
    | @front head k rest found front same live unparked =>
        rw [found] at unfolded
        dsimp only at unfolded
        have moved : (q.setHead head).Ring := ring.congr rfl rfl
        rw [shmqPopBlock_of_front moved front] at unfolded
        cases memory : call.mallocOk with
        | false =>
            rw [memory] at unfolded
            exact .noMemory unfolded stop memory (ring.congr rfl rfl) same rfl
        | true =>
            rw [memory] at unfolded
            have off : k.off = head := front.head
            rw [← off, ← stop] at found
            exact .front unfolded found live unparked (ring.congr rfl rfl)
              (front.rest.blkCnt _) rfl
    | @again head k rest found front same none parked =>
        rw [found] at unfolded
        dsimp only at unfolded
        have moved : (q.setHead head).Ring := ring.congr rfl rfl
        rw [shmqPopBlock_of_front moved front] at unfolded
        cases memory : call.mallocOk with
        | false =>
            rw [memory] at unfolded
            exact .noMemory unfolded stop memory (ring.congr rfl rfl) (none ▸ same) rfl
        | true =>
            rw [memory] at unfolded
            exact .again unfolded none parked (ring.congr rfl rfl) (front.rest.blkCnt _)

end Verben
