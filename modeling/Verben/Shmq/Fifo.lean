import Verben.Shmq.Pop

/-!
# First in, first out

The queue as its users see it: a run of `shmq_push` and `shmq_pop` calls, the
payloads accepted so far and the payloads returned so far. `FifoRun.Fifo` is the
purpose of the queue, stated for every state and every call of a run.

The queue meets it exactly on the runs with no pop in a parked state
(`fifo_iff_unparked`). A pop there resets `head` but not `tail`, and hands out the
popped lap once more.
-/

namespace Verben

open CInt

/-- A call on the queue, each under its lock, without `SHMQ_WAIT`. -/
inductive QueueOp : Type
  | push (data : List UInt8)
  | pop
  deriving DecidableEq

/-- The block of a pushed payload fits an `int`. -/
def QueueOp.Fits : QueueOp → Prop
  | .push data => FitsInt data
  | .pop => True

instance : (op : QueueOp) → Decidable op.Fits
  | .push data => inferInstanceAs (Decidable (FitsInt data))
  | .pop => inferInstanceAs (Decidable True)

/-- A queue in use: the payloads whose push returned 0 and those a pop returned. -/
structure FifoRun : Type where
  q : Shmq
  pushed : List (List UInt8)
  popped : List (List UInt8)

def FifoRun.init (sz : Int) : FifoRun := ⟨shmqInit sz, [], []⟩

/-- One call; `none` if it does not return. -/
def FifoRun.step (r : FifoRun) : QueueOp → Option FifoRun
  | .push data =>
      let pushed := shmqPush r.q data .plain
      some { r with
        q := pushed.2
        pushed := if pushed.1 = .ok then r.pushed ++ [data] else r.pushed }
  | .pop =>
      match shmqPop r.q .plain with
      | none => none
      | some (.ok data, q) => some { r with q := q, popped := r.popped ++ [data] }
      | some (_, q) => some { r with q := q }

/-- The payloads returned are a prefix of those accepted, and `blk_cnt` is the
difference: as an `int`, and exactly in a ring below 16 GiB, which cannot hold more
blocks than an `int` counts. -/
def FifoRun.Good (r : FifoRun) : Prop :=
  r.popped <+: r.pushed ∧
    r.q.blkCnt = toInt32 (r.pushed.length - r.popped.length) ∧
    (r.q.size < 2 ^ 34 → r.q.blkCnt = r.pushed.length - r.popped.length)

/-- A pop fails exactly when every accepted payload was returned. -/
def FifoRun.CallGood (r : FifoRun) : QueueOp → Prop
  | .push _ => True
  | .pop => (shmqPop r.q .plain).map Prod.fst = some .error ↔ r.popped = r.pushed

/-- The run of these calls is first in, first out, from its first state to its last. -/
def FifoRun.Fifo : FifoRun → List QueueOp → Prop
  | r, [] => r.Good
  | r, op :: ops => r.Good ∧ r.CallGood op ∧ ∃ r' ∈ r.step op, r'.Fifo ops

/-- No pop of the run is called in a parked state. -/
def FifoRun.Unparked : FifoRun → List QueueOp → Prop
  | _, [] => True
  | r, op :: ops => (op = .pop → ¬ r.q.Parked) ∧ ∀ r' ∈ r.step op, r'.Unparked ops

instance (r : FifoRun) : Decidable r.Good :=
  inferInstanceAs (Decidable (_ ∧ _ ∧ _))

instance (r : FifoRun) : (op : QueueOp) → Decidable (r.CallGood op)
  | .push _ => inferInstanceAs (Decidable True)
  | .pop => inferInstanceAs (Decidable (_ ↔ _))

instance FifoRun.decidableFifo : (r : FifoRun) → (ops : List QueueOp) → Decidable (r.Fifo ops)
  | r, [] => inferInstanceAs (Decidable r.Good)
  | r, op :: ops =>
      have := fun r' : FifoRun => decidableFifo r' ops
      inferInstanceAs (Decidable (r.Good ∧ r.CallGood op ∧ ∃ r' ∈ r.step op, r'.Fifo ops))

instance FifoRun.decidableUnparked :
    (r : FifoRun) → (ops : List QueueOp) → Decidable (r.Unparked ops)
  | _, [] => inferInstanceAs (Decidable True)
  | r, op :: ops =>
      have := fun r' : FifoRun => decidableUnparked r' ops
      inferInstanceAs (Decidable ((op = .pop → ¬ r.q.Parked) ∧ ∀ r' ∈ r.step op, r'.Unparked ops))

/-! ## The invariant -/

/-- The blocks in the ring are the payloads accepted and not yet returned. -/
def FifoRun.Inv (r : FifoRun) : Prop :=
  r.q.Ring ∧ ∃ live : List Blk, Layout r.q live ∧
    r.pushed = r.popped ++ live.map Blk.data ∧ r.q.blkCnt = toInt32 live.length

theorem FifoRun.inv_init {sz : Int} (mapped : shmqAlign sz < 2 ^ 63) : (init sz).Inv :=
  ⟨ring_shmqInit mapped, [], layout_shmqInit sz, rfl, rfl⟩

theorem FifoRun.Inv.good {r : FifoRun} (inv : r.Inv) : r.Good := by
  rcases inv with ⟨ring, live, layout, pushed, count⟩
  have length : (r.pushed.length : Int) - r.popped.length = live.length := by
    rw [pushed, List.length_append, List.length_map]
    omega
  refine ⟨⟨_, pushed.symm⟩, by rw [length, count], fun size => ?_⟩
  have bound := layout.mul_length_le ring
  rw [length, count]
  exact toInt32_of_range (by omega) (by omega)

/-- A call in an unparked state is good and keeps the invariant. -/
theorem FifoRun.Inv.step {r : FifoRun} (inv : r.Inv) {op : QueueOp}
    (fits : op.Fits) (unparked : op = .pop → ¬ r.q.Parked) :
    r.CallGood op ∧ ∃ r', r.step op = some r' ∧ r'.Inv := by
  rcases inv with ⟨ring, live, layout, pushed, count⟩
  cases op with
  | push data =>
      refine ⟨trivial, _, rfl, ?_⟩
      obtain ⟨ring', ⟨ok, ⟨off, placed⟩, inc⟩ | ⟨failed, same, cnt⟩⟩ :=
        shmqPush_spec ring layout fits .plain
      · rw [if_pos ok]
        refine ⟨ring', _, placed, ?_, ?_⟩
        · simp only [pushed, List.map_append, List.map_cons, List.map_nil, List.append_assoc]
        · rw [count, toInt32_add_left] at inc
          rw [inc, List.length_append]
          rfl
      · rw [if_neg failed]
        exact ⟨ring', live, same, pushed, cnt.trans count⟩
  | pop =>
      cases shmqPop_outcome ring layout .plain with
      | stop _ stop => cases stop
      | noMemory _ _ memory => cases memory
      | @empty q' popped _ none _ ring' done cnt =>
          rw [show ShmqCall.plain.wait = false from rfl] at popped
          refine ⟨?_, { r with q := q' }, by simp only [FifoRun.step, popped]; rfl, ?_⟩
          · rw [none] at pushed
            have all : r.popped = r.pushed := by rw [pushed, List.map_nil, List.append_nil]
            simp only [CallGood, popped, all, iff_true]
            rfl
          · rw [none] at pushed count
            exact ⟨ring', [], done, pushed, cnt.trans count⟩
      | @front q' k rest popped _ cons _ ring' kept cnt =>
          rw [cons] at pushed count
          refine ⟨?_, { r with q := q', popped := r.popped ++ [k.data] },
            by simp only [FifoRun.step, popped], ring', rest, kept, ?_, ?_⟩
          · simp only [CallGood, popped, pushed]
            simp
          · simp only [pushed, List.map_cons, List.append_assoc, List.singleton_append]
          · rw [cnt, count, toInt32_sub_left, List.length_cons]
            congr 1
            omega
      | again _ _ parked => exact absurd parked (unparked rfl)

/-- A pop in a parked state returns a payload although all were returned. -/
theorem FifoRun.Inv.not_callGood_of_parked {r : FifoRun} (inv : r.Inv) (parked : r.q.Parked) :
    ¬ r.CallGood .pop := by
  rcases inv with ⟨ring, live, layout, pushed, count⟩
  cases shmqPop_outcome ring layout .plain with
  | stop _ stop => cases stop
  | noMemory _ _ memory => cases memory
  | empty _ _ _ unparked => exact absurd parked unparked
  | front _ _ _ unparked => exact absurd parked unparked
  | again popped none _ =>
      rw [none] at pushed
      have all : r.popped = r.pushed := by rw [pushed, List.map_nil, List.append_nil]
      simp [CallGood, popped, all]

theorem FifoRun.Inv.fifo_iff_unparked {r : FifoRun} {ops : List QueueOp} (inv : r.Inv)
    (fits : ∀ op ∈ ops, op.Fits) : r.Fifo ops ↔ r.Unparked ops := by
  induction ops generalizing r with
  | nil => exact ⟨fun _ => trivial, fun _ => inv.good⟩
  | cons op ops ih =>
      have fitsHead : op.Fits := fits op List.mem_cons_self
      have fitsTail : ∀ op ∈ ops, op.Fits := fun op mem => fits op (List.mem_cons_of_mem _ mem)
      constructor
      · intro both
        rcases both with ⟨-, good, r', stepped, rest⟩
        have unparked : op = .pop → ¬ r.q.Parked := by
          intro same parked
          subst same
          exact inv.not_callGood_of_parked parked good
        obtain ⟨-, r₁, stepped₁, inv'⟩ := inv.step fitsHead unparked
        have same : r' = r₁ := Option.some.inj (stepped.symm.trans stepped₁)
        subst same
        refine ⟨unparked, fun r₂ stepped₂ => ?_⟩
        rw [Option.some.inj (stepped₂.symm.trans stepped)]
        exact (ih inv' fitsTail).mp rest
      · intro both
        rcases both with ⟨unparked, rest⟩
        obtain ⟨good, r', stepped, inv'⟩ := inv.step fitsHead unparked
        exact ⟨inv.good, good, r', stepped, (ih inv' fitsTail).mpr (rest r' stepped)⟩

/-- **The queue is first in, first out on exactly the runs with no pop in a parked
state.** For any size the mapping can have and any calls whose blocks fit an `int`:
every state of the run has returned a prefix of the accepted payloads and counts the
difference, every pop fails exactly when all were returned, and every call returns, if
and only if no pop of the run finds both offsets at the end of the ring. -/
theorem shmq_fifo_iff_unparked {sz : Int} (mapped : shmqAlign sz < 2 ^ 63)
    {ops : List QueueOp} (fits : ∀ op ∈ ops, op.Fits) :
    (FifoRun.init sz).Fifo ops ↔ (FifoRun.init sz).Unparked ops :=
  (FifoRun.inv_init mapped).fifo_iff_unparked fits

/-- In a ring of 64 bytes the second push ends at `size`, and its pop leaves both offsets there. -/
theorem shmq_fifo_64 :
    (FifoRun.init 64).Fifo [.push [65], .pop, .push [66], .pop, .push [67], .pop, .pop] :=
  (shmq_fifo_iff_unparked (by decide) (by decide)).mpr (by decide +kernel)

/-- In a ring of 56 bytes the second block ends at `size`. Its pop parks both offsets
there, and the next pop returns the first payload again. -/
theorem shmq_not_fifo_parked :
    ¬ (FifoRun.init 56).Fifo [.push [65], .pop, .push [66], .pop, .pop] := by
  decide +kernel

end Verben
