import Verben.Lib.ByteMem
import Verben.Lib.CInt

/-!
# The shared memory queue

`src/shmq.c` keeps a ring of variable-size blocks in one shared mapping. A block
is a size word and its data, and takes a multiple of the word size. `head` and
`tail` are offsets into the mapping; the ring proper is `[start, size)`, and an
offset equal to `size` stands for `start` until the next call resets it.

`shmqPush` is given as the list of stores it makes, in program order, so that
its intermediate states can be named as well as its effect. `shmqPop` is given
in two parts: `shmqPopSeek` is the loop from `shmq_pop_again` to a `goto`, and the
rest is the code under `shmq_pop_success`. Each call runs under the queue's lock
or in the only process on its side, so a call is one step.
-/

namespace Verben

open CInt

/-- `sizeof(struct shmq_block)`: the size word. The data follows it. -/
def sizeofBlock : Int := 8

/-- `sizeof(shmq_header_t)`: two `off_t`, an `atomic_t` and a `lock_t`. -/
def sizeofHeader : Int := 24

/-- `PAD_BLOCK` of a 64-bit machine. -/
def padBlock : Nat := 0x8000000000000000

/-- `MAX_BLK_SIZE` of a 64-bit machine. -/
def maxBlkSize : Nat := 0x7FFFFFFFFFFFFFFF

/-- `SHMQ_ALIGN`: the sum is a `size_t`, and clearing the low bits of a `size_t`
rounds it down to a multiple of the block header's size. -/
def shmqAlign (n : Int) : Int := toUInt64 (n + (sizeofBlock - 1)) / sizeofBlock * sizeofBlock

/-- `struct shm_queue` with the mapping at `addr`: the mutable fields of
`shmq_header_t`, and the bytes by their offset from `addr`. -/
structure Shmq where
  start : Int
  size : Int
  head : Int
  tail : Int
  blkCnt : Int
  mem : ByteMem

/-- `q->addr->head = off`. -/
def Shmq.setHead (q : Shmq) (off : Int) : Shmq := { q with head := off }

/-- `q->addr->tail = off`. -/
def Shmq.setTail (q : Shmq) (off : Int) : Shmq := { q with tail := off }

section Fields

variable (q : Shmq) (off : Int)

@[simp] theorem Shmq.head_setHead : (q.setHead off).head = off := rfl
@[simp] theorem Shmq.tail_setHead : (q.setHead off).tail = q.tail := rfl
@[simp] theorem Shmq.start_setHead : (q.setHead off).start = q.start := rfl
@[simp] theorem Shmq.size_setHead : (q.setHead off).size = q.size := rfl
@[simp] theorem Shmq.mem_setHead : (q.setHead off).mem = q.mem := rfl
@[simp] theorem Shmq.blkCnt_setHead : (q.setHead off).blkCnt = q.blkCnt := rfl
@[simp] theorem Shmq.setHead_setHead (off' : Int) :
    (q.setHead off').setHead off = q.setHead off := rfl
@[simp] theorem Shmq.head_setTail : (q.setTail off).head = q.head := rfl
@[simp] theorem Shmq.tail_setTail : (q.setTail off).tail = off := rfl
@[simp] theorem Shmq.start_setTail : (q.setTail off).start = q.start := rfl
@[simp] theorem Shmq.size_setTail : (q.setTail off).size = q.size := rfl
@[simp] theorem Shmq.mem_setTail : (q.setTail off).mem = q.mem := rfl
@[simp] theorem Shmq.blkCnt_setTail : (q.setTail off).blkCnt = q.blkCnt := rfl

end Fields

/-- `shmq_init` and `shmq_header_init` on a fresh anonymous mapping, whose bytes
are zero. -/
def shmqInit (sz : Int) : Shmq where
  start := shmqAlign sizeofHeader
  size := shmqAlign sz
  head := shmqAlign sizeofHeader
  tail := shmqAlign sizeofHeader
  blkCnt := 0
  mem := fun _ => 0

/-- What one call depends on besides its arguments: `flag & SHMQ_WAIT`, the
process's `shmq_stop`, and whether `malloc` succeeds. -/
structure ShmqCall where
  wait : Bool
  stop : Bool
  mallocOk : Bool

/-- A call without `SHMQ_WAIT`, with `shmq_stop` clear and memory available. -/
def ShmqCall.plain : ShmqCall := ⟨false, false, true⟩

/-! ## shmq_push -/

/-- One store into the shared mapping. -/
inductive Store : Type
  | tail (off : Int)
  | word (off : Int) (w : Nat)
  | byte (off : Int) (b : UInt8)
  | incCnt

def Store.apply (q : Shmq) : Store → Shmq
  | .tail off => q.setTail off
  | .word off w => { q with mem := q.mem.writeWord off w }
  | .byte off b => { q with mem := q.mem.write off [b] }
  | .incCnt => { q with blkCnt := toInt32 (q.blkCnt + 1) }

/-- Make the stores in order. -/
def Shmq.applyStores (q : Shmq) (stores : List Store) : Shmq := stores.foldl Store.apply q

/-- The result of `shmq_push`: its return values 0, -1 and 1, and `again` where
`SHMQ_WAIT` sends it back to `shmq_push_again` after a sleep. -/
inductive PushRet : Type
  | ok
  | error
  | stop
  | again
  deriving DecidableEq

/-- `req_size`: the aligned block size, computed in `size_t` and stored in an
`int`. -/
def reqSize (len : Int) : Int := toInt32 (shmqAlign (toUInt64 (sizeofBlock + len)))

/-- `memcpy(blk->data, data, len)`, byte by byte. -/
def memcpyStores (off : Int) : List UInt8 → List Store
  | [] => []
  | b :: bs => .byte off b :: memcpyStores (off + 1) bs

/-- The stores under `shmq_push_success`, with `q->addr->tail` at `tail`. -/
def successStores (tail : Int) (data : List UInt8) : List Store :=
  .word tail (toUInt64 (data.length + sizeofBlock)).toNat ::
    memcpyStores (tail + sizeofBlock) data ++
      [.incCnt, .tail (tail + reqSize data.length)]

/-- The stores that reset a `tail` parked at `size`. -/
def resetStores (q : Shmq) : List Store :=
  if toUInt64 q.tail = q.size then [.tail q.start] else []

/-- The local `tail` after that reset. -/
def pushTail (q : Shmq) : Int := if toUInt64 q.tail = q.size then q.start else q.tail

/-- `shmq_push` up to its `return`, or up to the sleep under `SHMQ_WAIT`: the
result, and the stores made in program order. -/
def shmqPushStores (q : Shmq) (data : List UInt8) (call : ShmqCall) : PushRet × List Store :=
  let req := reqSize data.length
  let tail := pushTail q
  let full : PushRet := if call.wait then .again else .error
  if call.stop then
    (.stop, [])
  else if q.head ≤ tail then
    -- `q->size` is a `size_t`, so the sums compared with it are converted
    if toUInt64 (tail + req) < q.size ∨
        (q.head ≠ q.start ∧ toUInt64 (tail + req) = q.size) then
      (.ok, resetStores q ++ successStores tail data)
    else if q.head ≤ q.start + req then
      (full, resetStores q)
    else
      (.ok, resetStores q ++
        [.word tail ((toUInt64 (q.size - tail)).toNat ||| padBlock), .tail q.start] ++
        successStores q.start data)
  else if tail + req < q.head then
    (.ok, resetStores q ++ successStores tail data)
  else
    (full, resetStores q)

/-- `shmq_push`. -/
def shmqPush (q : Shmq) (data : List UInt8) (call : ShmqCall) : PushRet × Shmq :=
  ((shmqPushStores q data call).1, q.applyStores (shmqPushStores q data call).2)

/-! ## shmq_pop -/

/-- Where the loop of `shmq_pop` ends: `shmq_pop_stop`, the empty queue, or
`shmq_pop_success` on the block at `head`. -/
inductive PopSeek : Type
  | stop
  | empty
  | block
  deriving DecidableEq

/-- The local `head` after a `head` parked at `size` is reset. -/
def popHead (q : Shmq) : Int := if toUInt64 q.head = q.size then q.start else q.head

/-- The loop at `shmq_pop_again`. `head > tail` and `head < tail` do the same, so
only `head == tail` is told apart. The first argument bounds the passes. -/
def shmqPopSeek (stop : Bool) : Nat → Shmq → Option (PopSeek × Shmq)
  | 0, _ => none
  | fuel + 1, q =>
      if stop then
        some (.stop, q)
      else
        let q := q.setHead (popHead q)
        if q.head = q.tail then
          some (.empty, q)
        else if q.mem.readWord q.head &&& padBlock ≠ 0 then
          shmqPopSeek stop fuel (q.setHead q.start)
        else
          some (.block, q)

/-- The result of `shmq_pop`: 0 with the bytes at `*retdata`, -1, 1, or back to
`shmq_pop_again` under `SHMQ_WAIT`. -/
inductive PopRet : Type
  | ok (data : List UInt8)
  | error
  | stop
  | again
  deriving DecidableEq

/-- The code under `shmq_pop_success`, on the block at `head`. A negative `*len`
asks `malloc` for more than half the address space, which it refuses. -/
def shmqPopBlock (q : Shmq) (mallocOk : Bool) : PopRet × Shmq :=
  let blkSize := q.mem.readWord q.head
  let len := toInt32 (toUInt64 (blkSize - sizeofBlock))
  if mallocOk ∧ 0 ≤ len then
    (.ok (q.mem.read (q.head + sizeofBlock) len.toNat),
      { q with blkCnt := toInt32 (q.blkCnt - 1) }.setHead
        (toInt64 (q.head + shmqAlign (blkSize &&& maxBlkSize : Nat))))
  else
    (.error, q)

/-- `shmq_pop` with a bound on the passes of its loop; `none` when they run out. -/
def shmqPopFuel (fuel : Nat) (q : Shmq) (call : ShmqCall) : Option (PopRet × Shmq) :=
  match shmqPopSeek call.stop fuel q with
  | none => none
  | some (.stop, q) => some (.stop, q)
  | some (.empty, q) => some (if call.wait then .again else .error, q)
  | some (.block, q) => some (shmqPopBlock q call.mallocOk)

/-- `shmq_pop`. A second pass runs with `head` at `start`, and would repeat itself,
so two passes decide the loop (`shmqPopSeek_stable`). -/
def shmqPop (q : Shmq) (call : ShmqCall) : Option (PopRet × Shmq) := shmqPopFuel 2 q call

theorem shmqPopSeek_succ (stop : Bool) (fuel : Nat) (q : Shmq) :
    shmqPopSeek stop (fuel + 1) q =
      if stop then some (.stop, q)
      else if popHead q = q.tail then some (.empty, q.setHead (popHead q))
      else if q.mem.readWord (popHead q) &&& padBlock ≠ 0 then
        shmqPopSeek stop fuel (q.setHead q.start)
      else some (.block, q.setHead (popHead q)) := rfl

/-- Once `head` is at `start`, a pass either ends the loop or changes nothing. -/
theorem shmqPopSeek_of_start (stop : Bool) (n : Nat) {q : Shmq} (atStart : q.head = q.start) :
    shmqPopSeek stop (n + 1) q = shmqPopSeek stop 1 q := by
  have again : q.setHead q.start = q := by
    cases q
    cases atStart
    rfl
  induction n with
  | zero => rfl
  | succ n ih =>
      rw [shmqPopSeek_succ stop (n + 1), shmqPopSeek_succ stop 0, again]
      split
      · rfl
      · split
        · rfl
        · rename_i running nonempty
          split
          · rename_i pad
            rw [ih, shmqPopSeek_succ stop 0, again, if_neg running, if_neg nonempty, if_pos pad]
          · rfl

/-- Two passes decide the loop: one that they do not leave is never left. -/
theorem shmqPopSeek_stable (stop : Bool) (extra : Nat) (q : Shmq) :
    shmqPopSeek stop (extra + 2) q = shmqPopSeek stop 2 q := by
  rw [shmqPopSeek_succ stop (extra + 1), shmqPopSeek_succ stop 1,
    shmqPopSeek_of_start stop extra rfl]

end Verben
