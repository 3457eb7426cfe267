import Verben.Lib.Transition
import Verben.Shmq.Fifo

/-!
# Calls with SHMQ_WAIT and SHMQ_LOCK

A queue between the connection process, whose calls have neither flag, and the workers, whose calls
have both. A worker's call asks for the semaphore of `src/lock.c`, and then passes through the loop
of `shmq_push` or `shmq_pop`, with a sleep behind each pass that finds no room or no block. It
holds the semaphore while it sleeps. A signal sets the worker's `shmq_stop`, and ends a wait for
the semaphore. The kernel undoes what a worker that dies did to the semaphore (`SEM_UNDO`).

A pass is one step, and so is a call without the flags.
-/

namespace Verben

open CInt Transition

variable {W : Type}

/-- The semaphore: its value, and what the kernel gives back when a process exits. -/
structure SysvSem (W : Type) : Type where
  semval : Int
  undo : W → Int

/-- `sysv_sem_init`. -/
def SysvSem.init : SysvSem W := ⟨1, fun _ => 0⟩

/-- `sysv_sem_lock`, where it does not block. -/
def SysvSem.lock [DecidableEq W] (sem : SysvSem W) (w : W) : Option (SysvSem W) :=
  if 0 < sem.semval then
    some ⟨sem.semval - 1, Function.update sem.undo w (sem.undo w + 1)⟩
  else
    none

/-- `sysv_sem_unlock`. -/
def SysvSem.unlock [DecidableEq W] (sem : SysvSem W) (w : W) : SysvSem W :=
  ⟨sem.semval + 1, Function.update sem.undo w (sem.undo w - 1)⟩

/-- What the kernel does when a process exits. -/
def SysvSem.exit [DecidableEq W] (sem : SysvSem W) (w : W) : SysvSem W :=
  ⟨sem.semval + sem.undo w, Function.update sem.undo w 0⟩

/-- Where a worker is: in no call; in `OPT_LOCK`; or behind it. -/
inductive ShmqAt : Type
  | outside
  | asking (op : QueueOp)
  | inside (op : QueueOp)
  deriving DecidableEq

def ShmqAt.isInside : ShmqAt → Bool
  | .inside _ => true
  | _ => false

/-- A queue and those who use it. -/
structure ShmqUsers (W : Type) : Type where
  fifo : FifoRun
  sem : SysvSem W
  at' : W → ShmqAt
  stop : W → Bool

def ShmqUsers.init (sz : Int) : ShmqUsers W where
  fifo := .init sz
  sem := .init
  at' := fun _ => .outside
  stop := fun _ => false

inductive ShmqAct (W : Type) : Type
  | plain (op : QueueOp)
  | call (w : W) (op : QueueOp)
  | acquire (w : W)
  | interrupted (w : W)
  | pass (w : W) (mallocOk : Bool)
  | signal (w : W)
  | die (w : W)
  | spawn (w : W)

variable [DecidableEq W]

/-- One pass of the loop in `shmq_push`: the queue behind it, and whether the call returns. -/
def pushPass (fifo : FifoRun) (data : List UInt8) (call : ShmqCall) : FifoRun × Bool :=
  let pushed := shmqPush fifo.q data call
  ({ fifo with
    q := pushed.2
    pushed := if pushed.1 = .ok then fifo.pushed ++ [data] else fifo.pushed }, pushed.1 ≠ .again)

/-- One pass of the loop in `shmq_pop`, if it ends. -/
def popPass (fifo : FifoRun) (call : ShmqCall) : Option (FifoRun × Bool) :=
  (shmqPop fifo.q call).map fun done =>
    match done.1 with
    | .ok data => ({ fifo with q := done.2, popped := fifo.popped ++ [data] }, true)
    | ret => ({ fifo with q := done.2 }, ret ≠ .again)

def opPass (fifo : FifoRun) (op : QueueOp) (call : ShmqCall) : Option (FifoRun × Bool) :=
  match op with
  | .push data => some (pushPass fifo data call)
  | .pop => popPass fifo call

/-- A pass of a worker's call. A call that returns unlocks the semaphore. -/
def ShmqUsers.pass (s : ShmqUsers W) (w : W) (op : QueueOp) (mallocOk : Bool) :
    Option (ShmqUsers W) :=
  (opPass s.fifo op ⟨true, s.stop w, mallocOk⟩).map fun done =>
    if done.2 then
      { s with
        fifo := done.1
        sem := s.sem.unlock w
        at' := Function.update s.at' w .outside }
    else
      { s with fifo := done.1 }

def ShmqUsers.step (s : ShmqUsers W) : ShmqAct W → Option (ShmqUsers W)
  | .plain op => (s.fifo.step op).map ({ s with fifo := · })
  | .call w op =>
      if s.at' w = .outside then some { s with at' := Function.update s.at' w (.asking op) }
      else none
  | .acquire w =>
      match s.at' w with
      | .asking op =>
          (s.sem.lock w).map fun sem =>
            { s with sem := sem, at' := Function.update s.at' w (.inside op) }
      | _ => none
  | .interrupted w =>
      match s.at' w with
      | .asking _ => some { s with at' := Function.update s.at' w .outside }
      | _ => none
  | .pass w mallocOk =>
      match s.at' w with
      | .inside op => s.pass w op mallocOk
      | _ => none
  | .signal w => some { s with stop := Function.update s.stop w true }
  | .die w =>
      some { s with sem := s.sem.exit w, at' := Function.update s.at' w .outside }
  | .spawn w =>
      if s.at' w = .outside then some { s with stop := Function.update s.stop w false } else none

end Verben
