import Verben.Lib.CInt
import Verben.Lib.Decimal
import Verben.Lib.Transition

/-!
# The pid file

`pid_file_running` and `pid_file_create` of `src/daemon.c`, and what `main` of `src/verben.c` does
with them. Any number of processes check, create and remove one file, a system call at a time.
The locks are those of `fcntl`, which a process loses when it ends. A file that was removed is
still there for those who have opened it.
-/

namespace Verben

open CInt Transition

/-- The `fcntl` locks on a file. -/
structure FileLock : Type where
  readers : List Nat
  writer : Option Nat
  deriving DecidableEq

/-- `F_RDLCK`, which `pid_file_lock` asks for when the file is open for reading only. -/
def FileLock.share (l : FileLock) (p : Nat) : Option FileLock :=
  if l.writer = none then some { l with readers := p :: l.readers } else none

/-- `F_WRLCK`. -/
def FileLock.exclude (l : FileLock) (p : Nat) : Option FileLock :=
  if l.writer = none ∧ l.readers = [] then some { l with writer := some p } else none

/-- `F_UNLCK`, and what the kernel does when a process closes the file or ends. -/
def FileLock.release (l : FileLock) (p : Nat) : FileLock where
  readers := l.readers.filter (· ≠ p)
  writer := if l.writer = some p then none else l.writer

/-- `daemon_action`. -/
inductive DaemonAction : Type
  | start
  | stop
  deriving DecidableEq

/-- Where a process is, or that there is none. -/
inductive DaemonPhase : Type
  | absent
  -- A process that has nothing to do with the file.
  | other
  -- `pid_file_running`: before `open`; in `F_SETLKW`; before `read`; before `kill`; before
  -- `unlink`; at `finish`; and behind the function.
  | checking (action : DaemonAction)
  | waiting (action : DaemonAction) (ino : Nat)
  | reading (action : DaemonAction) (ino : Nat)
  | probing (action : DaemonAction) (ino : Nat) (buf : List UInt8)
  | removing (action : DaemonAction) (ino : Nat)
  | leaving (action : DaemonAction) (ino : Nat) (pid : Int)
  | checked (action : DaemonAction) (pid : Int)
  -- `pid_file_create`: before `open`; in `F_SETLKW`; before `write`; before the `unlink` of a
  -- call that fails, with the lock or without it; at `finish`.
  | creating
  | asking (ino : Nat)
  | writing (ino : Nat)
  | undoing (ino : Nat) (locked : Bool)
  | finishing (ino : Nat) (ret : Int)
  -- The master process of a daemon.
  | daemon
  deriving DecidableEq

/-- A pid is positive. -/
abbrev Pid (n : Nat) : Type := { p : Fin n // 0 < p.val }

def Pid.num {n : Nat} (p : Pid n) : Nat := p.val.val

theorem Pid.num_inj {n : Nat} {p q : Pid n} (same : p.num = q.num) : p = q :=
  Subtype.ext (Fin.ext same)

/-- The file at `pid_file`, the files that it has been, and the processes, whose pids are below
`n`. -/
structure DaemonState (n : Nat) : Type where
  name : Option Nat
  content : Nat → List UInt8
  locks : Nat → FileLock
  nextIno : Nat
  procs : Pid n → DaemonPhase

variable {n : Nat}

/-- No process is there yet. The file may be one that was left behind. -/
def DaemonState.init (left : Option (List UInt8)) : DaemonState n where
  name := left.map fun _ => 0
  content := fun _ => left.getD []
  locks := fun _ => ⟨[], none⟩
  nextIno := 1
  procs := fun _ => .absent

/-- A process goes on. -/
def DaemonState.go (s : DaemonState n) (p : Pid n) (phase : DaemonPhase) : DaemonState n :=
  { s with procs := Function.update s.procs p phase }

/-- `unlink(pid_file)`. -/
def DaemonState.unlink (s : DaemonState n) : DaemonState n := { s with name := none }

/-- `close`. -/
def DaemonState.close (s : DaemonState n) (p : Pid n) (ino : Nat) : DaemonState n :=
  { s with locks := Function.update s.locks ino ((s.locks ino).release p.num) }

/-- Whether `kill(pid, 0)` finds a process. What it says of a process group is `ok`. -/
def DaemonState.kill (s : DaemonState n) (pid : Int) (ok : Bool) : Bool :=
  if positive : 0 < pid then
    if below : pid.toNat < n then
      s.procs ⟨⟨pid.toNat, below⟩, Int.lt_toNat.mpr positive⟩ ≠ .absent
    else
      false
  else
    ok

/-- The pid in the buffer: newlines become terminators, from the end on. -/
def bufferPid (buf : List UInt8) : Int :=
  toInt32 (Decimal.strtol (buf.takeWhile fun b => b ≠ 0 ∧ b ≠ 10 ∧ b ≠ 13))

/-- The next system call of a process, and what it does until the one behind it. The call
succeeds if it is `ok`; a call of `F_SETLKW` that blocks has no result. -/
def DaemonState.advance (s : DaemonState n) (p : Pid n) (ok : Bool) : Option (DaemonState n) :=
  match s.procs p with
  | .absent | .other => none
  | .checking action =>
      match s.name with
      | some ino => some (s.go p (if ok then .waiting action ino else .checked action 0))
      | none => some (s.go p (.checked action 0))
  | .waiting action ino =>
      if ok then
        ((s.locks ino).share p.num).map fun lock =>
          { s with locks := Function.update s.locks ino lock }.go p (.reading action ino)
      else
        some (s.go p (.leaving action ino (-1)))
  | .reading action ino =>
      some (s.go p
        (if ok then .probing action ino ((s.content ino).take 15) else .leaving action ino (-1)))
  | .probing action ino buf =>
      let pid := bufferPid buf
      if pid = 0 then
        some (s.go p (.removing action ino))
      else if s.kill pid ok then
        some (s.go p (.leaving action ino pid))
      else
        some (s.go p (.removing action ino))
  | .removing action ino => some (s.unlink.go p (.leaving action ino 0))
  | .leaving action ino pid => some ((s.close p ino).go p (.checked action pid))
  | .checked .start pid => if pid = -1 ∨ 0 < pid then some (s.go p .absent) else none
  -- `kill(pid, SIGQUIT)` leaves it to the process when it ends.
  | .checked .stop _ => some (s.go p .absent)
  | .creating =>
      match s.name with
      | some _ => some (s.go p .absent)
      | none =>
          if ok then
            some ({ s with
              name := some s.nextIno
              content := Function.update s.content s.nextIno []
              nextIno := s.nextIno + 1 }.go p (.asking s.nextIno))
          else
            some (s.go p .absent)
  | .asking ino =>
      if ok then
        ((s.locks ino).exclude p.num).map fun lock =>
          { s with locks := Function.update s.locks ino lock }.go p (.writing ino)
      else
        some (s.go p (.undoing ino false))
  | .writing ino =>
      if ok then
        some ({ s with
          content := Function.update s.content ino ((Decimal.digits p.num).take 15) }.go p
            (.finishing ino 0))
      else
        some (s.go p (.undoing ino true))
  | .undoing ino _ => some (s.unlink.go p (.finishing ino (-1)))
  | .finishing ino ret =>
      some ((s.close p ino).go p (if ret = 0 then .daemon else .absent))
  -- The end of `master_process_cycle`.
  | .daemon => some (s.unlink.go p .other)

/-- What happens: someone starts `verben`, or another program; a process goes on; `daemonize`,
whose parent has nothing left to do; and a process is killed, or ends without removing its
file. -/
inductive DaemonAct (n : Nat) : Type
  | exec (p : Pid n) (action : DaemonAction)
  | spawn (p : Pid n)
  | advance (p : Pid n) (ok : Bool)
  | fork (p child : Pid n)
  | die (p : Pid n)

/-- A new process gets a pid that is not in use. -/
def DaemonState.step (s : DaemonState n) : DaemonAct n → Option (DaemonState n)
  | .exec p action => if s.procs p = .absent then some (s.go p (.checking action)) else none
  | .spawn p => if s.procs p = .absent then some (s.go p .other) else none
  | .advance p ok => s.advance p ok
  | .fork p child =>
      match s.procs p with
      | .checked .start pid =>
          if (pid = -1 ∨ 0 < pid) ∨ s.procs child ≠ .absent then none
          else some ((s.go p .other).go child .creating)
      | _ => none
  | .die p =>
      some ({ s with locks := fun ino => (s.locks ino).release p.num }.go p .absent)

end Verben
