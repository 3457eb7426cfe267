import Verben.Conn.Model
import Verben.Notifier.Model
import Verben.Worker.Model

/-!
# The server

The connection process, any number of workers, and what they share: `recv_queue` and
`send_queue`, which give out their messages in the order they took them in, and the
pipe of the notifier. The steps of all processes interleave in any order. A step is
one callback of the event loop; the `notifier_read` of `notifier_handler`, or one pass
of its loop; or what a worker does up to the next call on a queue or the pipe.

Connections and requests are numbered in the order in which they come. No process
knows the numbers. They tell connections apart that have the same address and fd one
after the other, and the log says by them what became of every request.
-/

namespace Verben

/-- A request: the number of the connection that it came on, and its own. -/
structure Request : Type where
  conn : Nat
  num : Nat
  deriving DecidableEq

/-- A message of a queue, with the request that it is for. -/
structure Datagram : Type where
  req : Request
  msg : ShmMsg

/-- Where a worker is: in `shmq_pop`; in `handle_process` with a request; about to push
the response; between its push and its `notifier_write`. -/
inductive Phase : Type
  | idle
  | holding (m : Datagram)
  | replying (m : Datagram)
  | notifying

/-- The message that a worker has taken and not pushed. -/
def Phase.datagram : Phase → Option Datagram
  | .idle => none
  | .holding m => some m
  | .replying m => some m
  | .notifying => none

structure Worker : Type where
  retlen : Int
  phase : Phase

/-- What becomes of a request: `read_from_client` pushes it, a worker pops it and
pushes the response, `notifier_handler` pops that, and may append it to the `sendbuf`
of a connection. -/
inductive LogEvent (W : Type) : Type
  | framed (r : Request)
  | popped (w : W) (r : Request)
  | pushed (w : W) (r : Request)
  | taken (r : Request)
  | appended (conn : Nat) (r : Request)
  deriving DecidableEq

/-- The state of all processes. `serial` has the number of the connection that was
last accepted at each address. -/
structure Server (W : Type) : Type where
  conn : ConnProc
  worker : W → Worker
  recvQueue : List Datagram
  sendQueue : List Datagram
  pipe : Pipe
  draining : Bool
  serial : Nat → Nat
  nextSerial : Nat
  nextReq : Nat
  log : List (LogEvent W)

/-- What the processes start with, and what each worker finds in `retlen`. -/
structure ServerBoot (W : Type) : Type extends ConnBoot where
  pipeSize : Nat
  pipePositive : 0 < pipeSize
  retlen : W → Int

section

variable {W : Type}

def Server.init (boot : ServerBoot W) : Server W where
  conn := .init boot.toConnBoot
  worker := fun w => ⟨boot.retlen w, .idle⟩
  recvQueue := []
  sendQueue := []
  pipe := notifierCreate boot.pipeSize boot.pipePositive
  draining := false
  serial := fun _ => 0
  nextSerial := 0
  nextReq := 0
  log := []

/-- Number a connection that was opened, and a request that was pushed. -/
def Server.record (s : Server W) : ConnEvent → Server W
  | .opened cli _ =>
      { s with
        serial := Function.update s.serial cli s.nextSerial, nextSerial := s.nextSerial + 1 }
  | .pushed msg =>
      let req := ⟨s.serial msg.cli, s.nextReq⟩
      { s with
        recvQueue := s.recvQueue ++ [⟨req, msg⟩]
        nextReq := s.nextReq + 1
        log := s.log ++ [.framed req] }
  | _ => s

/-- The connection whose `sendbuf` was appended to. -/
def ConnEvent.appendedTo : ConnEvent → Option Nat
  | .appended cli _ => some cli
  | _ => none

/-- The log of what was appended for a response. -/
def Server.appendLog (s : Server W) (r : Request) (events : List ConnEvent) : List (LogEvent W) :=
  (events.filterMap ConnEvent.appendedTo).map fun cli => .appended (s.serial cli) r

/-- The event loop calls all callbacks but those for a message. -/
def ConnAct.fromLoop : ConnAct → Bool
  | .message _ _ => false
  | _ => true

inductive ServerAct (W : Type) : Type
  | conn (act : ConnAct)
  | wake
  | drain (addOk : Bool)
  | pop (w : W)
  | process (w : W) (answer : ProcessAnswer) (memory : Option (Nat → UInt8))
  | push (w : W)
  | notify (w : W)

variable [DecidableEq W]

def Server.setWorker (s : Server W) (w : W) (worker : Worker) : Server W :=
  { s with worker := Function.update s.worker w worker }

/-- `shmq_pop` from `recv_queue`. -/
def Server.pop (s : Server W) (w : W) : Option (Server W) :=
  match (s.worker w).phase, s.recvQueue with
  | .idle, m :: rest =>
      some ({ s with recvQueue := rest, log := s.log ++ [LogEvent.popped w m.req] }.setWorker w
        ⟨(s.worker w).retlen, .holding m⟩)
  | _, _ => none

/-- `handle_process`, up to the `shmq_push` of the response. -/
def Server.process (s : Server W) (w : W) (answer : ProcessAnswer)
    (memory : Option (Nat → UInt8)) : Option (Server W) :=
  match (s.worker w).phase with
  | .holding m =>
      (workerReply (s.worker w).retlen ⟨m.msg, answer, memory⟩).map fun done =>
        s.setWorker w ⟨done.1, .replying ⟨m.req, done.2⟩⟩
  | _ => none

/-- `shmq_push` to `send_queue`. -/
def Server.push (s : Server W) (w : W) : Option (Server W) :=
  match (s.worker w).phase with
  | .replying m =>
      some ({ s with
        sendQueue := s.sendQueue ++ [m], log := s.log ++ [LogEvent.pushed w m.req] }.setWorker w
          ⟨(s.worker w).retlen, .notifying⟩)
  | _ => none

/-- `notifier_write`, and the end of the pass. -/
def Server.notify (s : Server W) (w : W) : Option (Server W) :=
  match (s.worker w).phase with
  | .notifying =>
      some ({ s with pipe := notifierWrite s.pipe }.setWorker w ⟨(s.worker w).retlen, .idle⟩)
  | _ => none

/-- One pass of the loop in `notifier_handler`, which ends when `send_queue` is empty. -/
def Server.drain (s : Server W) (addOk : Bool) : Option (Server W) :=
  match s.sendQueue with
  | [] => some { s with draining := false }
  | m :: rest =>
      (s.conn.step (.message m.msg addOk)).map fun done =>
        { s with
          conn := done.1
          sendQueue := rest
          log := s.log ++ .taken m.req :: s.appendLog m.req done.2 }

def Server.step (s : Server W) : ServerAct W → Option (Server W)
  | .conn act =>
      if s.draining = false ∧ act.fromLoop = true then
        (s.conn.step act).map fun done => done.2.foldl Server.record { s with conn := done.1 }
      else
        none
  | .wake =>
      if s.draining = false then
        (notifierRead s.pipe).map fun pipe => { s with pipe := pipe, draining := true }
      else
        none
  | .drain addOk => if s.draining = true then s.drain addOk else none
  | .pop w => s.pop w
  | .process w answer memory => s.process w answer memory
  | .push w => s.push w
  | .notify w => s.notify w

end

end Verben
