import Verben.Conn.Model

/-!
# The worker process

One pass of the loop in `worker_process_cycle` of `src/worker.c`, from the message
that `shmq_pop` gave to the one handed to `shmq_push`. The buffer of the request is
resized to hold the response. `retlen` is declared outside the loop: a pass starts
with the value that the pass before it left, the first one with whatever it finds.

A pass has no result where the process stops: where `assert(retlen >= 0)` fails,
`realloc` fails, or `memcpy` reads behind the bytes that the plugin returned.
-/

namespace Verben

/-- The answer of `handle_process`: its return value, the bytes at `*sndbuf` unless
that stays `NULL`, and the value of `*sndlen` unless none is stored. -/
structure ProcessAnswer : Type where
  ret : Int
  sndbuf : Option (List UInt8)
  sndlen : Option Int
  deriving DecidableEq

/-- What one pass depends on: the message, the answer of `handle_process`, and the
bytes of the memory that `realloc` finds. -/
structure Handled : Type where
  msg : ShmMsg
  answer : ProcessAnswer
  memory : Option (Nat → UInt8)

/-- `retlen` behind the call of `handle_process`. -/
def ProcessAnswer.retlen (a : ProcessAnswer) (before : Int) : Int := a.sndlen.getD before

/-- The data of a message that `realloc` gives `n` bytes: the bytes it has stay. -/
def reallocData (data : List UInt8) (n : Nat) (memory : Nat → UInt8) : List UInt8 :=
  (List.range n).map fun i => data[i]?.getD (memory i)

/-- The data of the message, resized for a response. -/
def Handled.resized (h : Handled) (retlen : Nat) : Option (List UInt8) :=
  if 0 < retlen then h.memory.map (reallocData h.msg.data retlen) else some h.msg.data

/-- `memcpy` the response over the data of the message, if there is one. -/
def ProcessAnswer.copyTo (a : ProcessAnswer) (retlen : Nat) (data : List UInt8) :
    Option (List UInt8) :=
  if a.ret ≠ verbenError then
    match a.sndbuf with
    | none => some data
    | some bytes =>
        if 0 < retlen then
          if retlen ≤ bytes.length then some (bytes.take retlen ++ data.drop retlen) else none
        else
          some data
  else
    some data

/-- Whether the connection is closed behind the response. -/
def ProcessAnswer.closeConn (a : ProcessAnswer) : Bool :=
  a.ret = verbenConnClose ∨ a.ret = verbenError

/-- One pass of the loop: the `retlen` it leaves, and the message it pushes. -/
def workerReply (retlen : Int) (h : Handled) : Option (Int × ShmMsg) :=
  let retlen := h.answer.retlen retlen
  if 0 ≤ retlen then
    (h.resized retlen.toNat).bind fun data =>
      (h.answer.copyTo retlen.toNat data).map fun data =>
        (retlen, { h.msg with
          closeConn := some h.answer.closeConn, data := data.take retlen.toNat })
  else
    none

/-- The messages that a worker pushes for the requests it pops. -/
def workerRun : Int → List Handled → Option (Int × List ShmMsg)
  | retlen, [] => some (retlen, [])
  | retlen, h :: rest =>
      (workerReply retlen h).bind fun done =>
        (workerRun done.1 rest).map fun later => (later.1, done.2 :: later.2)

end Verben
