import Mathlib.Logic.Function.Basic
import Mathlib.Tactic.Common

/-!
# The master process

`src/verben.c` from `master_process_cycle` on: the master blocks its signals, forks the
conn process and the workers, and then waits in `sigsuspend` for signals. What it knows of
its children is the table `vb_processes`, which the handler of `SIGCHLD` and
`reap_children` share.

A state has the place in the code that runs next, so that signals can be delivered between
any two steps, as far as they are not blocked there, and children can exit at any time. The
kernel's side is part of it: the children that run, those that exited and were not
collected, and the signals that wait. The exit status of a child is stored and never read,
and is left out.
-/

namespace Verben

/-- `VB_MAX_PROCESSES`. -/
def vbMaxProcesses : Nat := 1024

/-- The signals that have a handler. -/
inductive Signo : Type
  | sigterm
  | sigquit
  | sigchld
  deriving DecidableEq

/-- The values of `vb_process`. -/
inductive ProcessKind : Type
  | master
  | worker
  | conn
  deriving DecidableEq

/-- The variables that the signal handler reads and sets. A child starts with a copy. -/
structure Flags : Type where
  vbProcess : ProcessKind
  vbQuit : Bool
  vbReap : Bool
  vbWorkerQuit : Bool
  shmqStop : Bool
  deriving DecidableEq

/-- `vb_signal_handler`, without its call of `process_get_status`. -/
def vbSignalHandler (f : Flags) (signo : Signo) : Flags :=
  match f.vbProcess with
  | .master =>
      match signo with
      | .sigquit => { f with vbQuit := true }
      | .sigterm => { f with vbQuit := true }
      | .sigchld => { f with vbReap := true }
  | .worker =>
      match signo with
      | .sigterm =>
          if f.vbQuit = false then
            { f with vbQuit := true, vbWorkerQuit := true, shmqStop := true }
          else
            f
      | _ => f
  | .conn =>
      match signo with
      | .sigterm => { f with vbQuit := true }
      | _ => f

/-- What a child runs. -/
inductive ChildProc : Type
  | connProcessCycle
  | workerProcessCycle
  deriving DecidableEq

/-- `vb_process_t`. The `data` of each is the configuration. -/
structure VbProcess : Type where
  pid : Int
  proc : ChildProc
  name : String
  respawn : Bool
  justSpawn : Bool
  detached : Bool
  exiting : Bool
  exited : Bool
  deriving DecidableEq

/-- The argument `respawn` of `spawn_process`: a slot, or the type of a new process. -/
inductive Respawn : Type
  | slot (s : Nat)
  | norespawn
  | justSpawn
  | respawn
  | justRespawn
  | detached
  deriving DecidableEq

/-- The place in the code that runs next. In `reap_children` that is the test of the slot
`i`, or its `fork`, with the local `live`. `sleeping` is inside `sigsuspend`, where a
handler has run or not. -/
inductive MasterPc : Type
  | entry
  | creating (todo : List (ChildProc × String))
  | suspend
  | sleeping (woken : Bool)
  | testReap
  | reaping (i : Nat) (live : Bool)
  | respawning (i : Nat) (live : Bool)
  | testExit
  | testQuit
  | killing
  | exited
  | failed
  deriving DecidableEq

/-- The signals that are blocked there. Only `SIGTERM` never is. -/
def MasterPc.blocks : MasterPc → Signo → Bool
  | .entry, _ => false
  | .sleeping _, _ => false
  | .exited, _ => true
  | .failed, _ => true
  | _, .sigterm => false
  | _, _ => true

/-- A handler that runs inside `sigsuspend` ends it. -/
def MasterPc.wake : MasterPc → MasterPc
  | .sleeping _ => .sleeping true
  | pc => pc

/-- The master and its children. `forwarded` says whether `kill(0, SIGTERM)` was called
since `vb_quit` became 1. -/
structure Master : Type where
  pc : MasterPc
  flags : Flags
  live : Bool
  vbProcesses : Nat → VbProcess
  vbLastProcess : Nat
  running : List Int
  zombies : List Int
  pending : Signo → Bool
  forwarded : Bool

/-- The children that were forked and not collected. -/
def Master.children (m : Master) : List Int := m.running ++ m.zombies

/-! ## The process table -/

/-- `vb_processes` after `init_vb_processes`. -/
def initVbProcesses (_ : Nat) : VbProcess where
  pid := -1
  proc := .connProcessCycle
  name := ""
  respawn := false
  justSpawn := false
  detached := false
  exiting := false
  exited := false

/-- The search of `spawn_process` for a slot without a process. -/
def Master.freeSlot (m : Master) : Nat :=
  ((List.range m.vbLastProcess).find? fun s => (m.vbProcesses s).pid = -1).getD m.vbLastProcess

/-- The slot that `spawn_process` uses, unless the table is full. -/
def Master.spawnSlot (m : Master) : Respawn → Option Nat
  | .slot s => some s
  | _ => if m.freeSlot = vbMaxProcesses then none else some m.freeSlot

/-- The entry that `spawn_process` leaves. A respawned process keeps the rest of its slot. -/
def VbProcess.spawned (old : VbProcess) (proc : ChildProc) (name : String) (pid : Int) :
    Respawn → VbProcess
  | .slot _ => { old with pid := pid, exited := false }
  | .norespawn => ⟨pid, proc, name, false, false, false, false, false⟩
  | .justSpawn => ⟨pid, proc, name, false, true, false, false, false⟩
  | .respawn => ⟨pid, proc, name, true, false, false, false, false⟩
  | .justRespawn => ⟨pid, proc, name, true, true, false, false, false⟩
  | .detached => ⟨pid, proc, name, false, false, true, false, false⟩

/-- `++vb_last_process`, for a new process behind the last one. -/
def Master.lastAfter (m : Master) (s : Nat) : Respawn → Nat
  | .slot _ => m.vbLastProcess
  | _ => if s = m.vbLastProcess then m.vbLastProcess + 1 else m.vbLastProcess

/-- `spawn_process` in the parent: the pid it returns, or -1, with the answer of `fork`. -/
def Master.spawnProcess (m : Master) (proc : ChildProc) (name : String) (type : Respawn)
    (fork : Option Int) : Option Int × Master :=
  match m.spawnSlot type with
  | none => (none, m)
  | some s =>
      match fork with
      | none => (none, m)
      | some pid =>
          (some pid, { m with
            vbProcesses := Function.update m.vbProcesses s
              ((m.vbProcesses s).spawned proc name pid type)
            vbLastProcess := m.lastAfter s type
            running := pid :: m.running })

/-- Look up a collected pid and mark its slot. -/
def Master.markExited (m : Master) (pid : Int) : Master :=
  match (List.range m.vbLastProcess).find? fun i => (m.vbProcesses i).pid = pid with
  | none => m
  | some i =>
      { m with
        vbProcesses := Function.update m.vbProcesses i { m.vbProcesses i with exited := true } }

/-- `process_get_status`: `waitpid` gives every child that exited, one by one. -/
def Master.processGetStatus (m : Master) : Master :=
  { m.zombies.foldl Master.markExited m with zombies := [] }

/-! ## Signals -/

/-- A child exits: it waits to be collected, and the master is sent `SIGCHLD`. -/
def Master.exitChild (m : Master) (pid : Int) : Master :=
  if pid ∈ m.running then
    { m with
      running := m.running.erase pid
      zombies := pid :: m.zombies
      pending := Function.update m.pending .sigchld true }
  else
    m

/-- A signal is taken, and its handler sets the flags. -/
def Master.take (m : Master) (signo : Signo) : Master :=
  let flags := vbSignalHandler m.flags signo
  { m with
    pc := m.pc.wake
    flags := flags
    pending := Function.update m.pending signo false
    forwarded := if m.flags.vbQuit = false ∧ flags.vbQuit = true then false else m.forwarded }

/-- A handler runs. The children `late` exit while that of `SIGCHLD` collects: their signal
stays behind. -/
def Master.handle (m : Master) (signo : Signo) (late : List Int) : Master :=
  if signo = .sigchld then
    (late.foldl Master.exitChild (m.take signo)).processGetStatus
  else
    m.take signo

/-! ## The loop -/

/-- What `master_process_cycle` creates. -/
def createProcesses (workerNum : Int) : List (ChildProc × String) :=
  (.connProcessCycle, "verben:[conn]") ::
    List.replicate workerNum.toNat (.workerProcessCycle, "verben:[worker]")

/-- The master enters `master_process_cycle`. -/
def Master.init : Master where
  pc := .entry
  flags := ⟨.master, false, false, false, false⟩
  live := true
  vbProcesses := initVbProcesses
  vbLastProcess := 0
  running := []
  zombies := []
  pending := fun _ => false
  forwarded := false

/-- The next step of `master_process_cycle` and the functions it calls, with the answer of
`fork` if it is called, and whether the other system calls succeed. -/
def Master.run (workerNum : Int) (m : Master) (fork : Option Int) (ok : Bool) : Option Master :=
  match m.pc with
  | .entry =>
      some { m with pc := if ok then .creating (createProcesses workerNum) else .failed }
  | .creating [] => some { m with pc := .suspend }
  | .creating ((proc, name) :: todo) =>
      some { (m.spawnProcess proc name .respawn fork).2 with pc := .creating todo }
  | .suspend => some { m with pc := .sleeping false }
  | .sleeping false => none
  | .sleeping true => some { m with pc := .testReap }
  | .testReap =>
      if m.flags.vbReap then
        some { m with flags := { m.flags with vbReap := false }, pc := .reaping 0 false }
      else
        some { m with pc := .testExit }
  | .reaping i live =>
      let process := m.vbProcesses i
      if i < m.vbLastProcess then
        if process.pid = -1 then
          some { m with pc := .reaping (i + 1) live }
        else if process.exited then
          if process.respawn = true ∧ process.exiting = false ∧ m.flags.vbQuit = false then
            some { m with pc := .respawning i live }
          else
            some { m with pc := .reaping (i + 1) live }
        else
          some { m with pc := .reaping (i + 1) true }
      else
        some { m with live := live, pc := .testExit }
  | .respawning i live =>
      let process := m.vbProcesses i
      match m.spawnProcess process.proc process.name (.slot i) fork with
      | (none, m) => some { m with pc := .reaping (i + 1) live }
      | (some _, m) => some { m with pc := .reaping (i + 1) true }
  | .testExit =>
      some { m with pc := if m.live = false ∧ m.flags.vbQuit = true then .exited else .testQuit }
  | .testQuit => some { m with pc := if m.flags.vbQuit then .killing else .suspend }
  | .killing =>
      if ok then
        some { m with
          pc := .suspend
          pending := Function.update m.pending .sigterm true
          forwarded := true }
      else
        some { m with pc := .failed }
  | .exited => none
  | .failed => none

/-- A step: a signal is sent to the master, or delivered; a child exits; or the master runs. -/
inductive MasterAct : Type
  | send (signo : Signo)
  | deliver (signo : Signo) (late : List Int)
  | exit (pid : Int)
  | run (fork : Option Int) (ok : Bool)

def Master.step (workerNum : Int) (m : Master) : MasterAct → Option Master
  | .send signo => some { m with pending := Function.update m.pending signo true }
  | .deliver signo late =>
      if m.pending signo = true ∧ m.pc.blocks signo = false then
        some (m.handle signo late)
      else
        none
  | .exit pid => some (m.exitChild pid)
  | .run fork ok => m.run workerNum fork ok

end Verben
