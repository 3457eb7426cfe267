import Verben.Lib.Transition
import Verben.Master.Model

/-!
# What a step of the master does

`Runs` says once what the next step of `master_process_cycle` can be at each place, with
the tests that lead there; the invariants of the master are derived from its cases. A
handler, and a child that exits, leave the control of the master alone but for the flags
(`SameControl`).
-/

namespace Verben

/-- The second state has the same flags and runs on at the same place. -/
structure SameControl (m m' : Master) : Prop where
  pc : m'.pc = m.pc
  flags : m'.flags = m.flags
  live : m'.live = m.live
  forwarded : m'.forwarded = m.forwarded

section Control

variable {m m' m'' : Master}

theorem SameControl.trans (first : SameControl m m') (second : SameControl m' m'') :
    SameControl m m'' :=
  ⟨second.pc.trans first.pc, second.flags.trans first.flags, second.live.trans first.live,
    second.forwarded.trans first.forwarded⟩

theorem sameControl_foldl {f : Master → Int → Master} (each : ∀ m pid, SameControl m (f m pid))
    (pids : List Int) (m : Master) : SameControl m (pids.foldl f m) := by
  induction pids generalizing m with
  | nil => exact ⟨rfl, rfl, rfl, rfl⟩
  | cons pid pids ih => exact (each m pid).trans (ih (f m pid))

theorem sameControl_exitChild (m : Master) (pid : Int) : SameControl m (m.exitChild pid) := by
  unfold Master.exitChild
  split <;> exact ⟨rfl, rfl, rfl, rfl⟩

theorem sameControl_markExited (m : Master) (pid : Int) : SameControl m (m.markExited pid) := by
  unfold Master.markExited
  split <;> exact ⟨rfl, rfl, rfl, rfl⟩

theorem sameControl_processGetStatus (m : Master) : SameControl m m.processGetStatus := by
  have marked := sameControl_foldl sameControl_markExited m.zombies m
  exact ⟨marked.pc, marked.flags, marked.live, marked.forwarded⟩

/-- Behind the flags, a handler does nothing to the control of the master. -/
theorem sameControl_handle (m : Master) (signo : Signo) (late : List Int) :
    SameControl (m.take signo) (m.handle signo late) := by
  unfold Master.handle
  split
  · exact (sameControl_foldl sameControl_exitChild late _).trans (sameControl_processGetStatus _)
  · exact ⟨rfl, rfl, rfl, rfl⟩

theorem sameControl_spawnProcess (m : Master) (proc : ChildProc) (name : String)
    (type : Respawn) (fork : Option Int) :
    SameControl m (m.spawnProcess proc name type fork).2 := by
  unfold Master.spawnProcess
  split
  · exact ⟨rfl, rfl, rfl, rfl⟩
  · split <;> exact ⟨rfl, rfl, rfl, rfl⟩

/-! ## The flags of a master -/

/-- A master is one by its flags, and sets none that only a worker sets. -/
structure Flags.OfMaster (f : Flags) : Prop where
  kind : f.vbProcess = .master
  workerQuit : f.vbWorkerQuit = false
  shmqStop : f.shmqStop = false

theorem Flags.OfMaster.handler {f : Flags} (master : f.OfMaster) (signo : Signo) :
    (vbSignalHandler f signo).OfMaster ∧
      (vbSignalHandler f signo).vbQuit = (f.vbQuit || decide (signo ≠ .sigchld)) := by
  rcases master with ⟨kind, workerQuit, shmqStop⟩
  cases f
  cases kind
  cases signo with
  | sigterm => exact ⟨⟨rfl, workerQuit, shmqStop⟩, (Bool.or_true _).symm⟩
  | sigquit => exact ⟨⟨rfl, workerQuit, shmqStop⟩, (Bool.or_true _).symm⟩
  | sigchld => exact ⟨⟨rfl, workerQuit, shmqStop⟩, (Bool.or_false _).symm⟩

end Control

/-! ## The steps of the loop -/

/-- The next step at each place, with the answer of `fork`. -/
inductive Runs (workerNum : Int) (fork : Option Int) (m : Master) : Master → Prop
  | start : m.pc = .entry →
    Runs workerNum fork m { m with pc := .creating (createProcesses workerNum) }
  | startFailed : m.pc = .entry → Runs workerNum fork m { m with pc := .failed }
  | create {child : ChildProc × String} {todo : List (ChildProc × String)} :
    m.pc = .creating (child :: todo) →
    Runs workerNum fork m
      { (m.spawnProcess child.1 child.2 .respawn fork).2 with pc := .creating todo }
  | created : m.pc = .creating [] → Runs workerNum fork m { m with pc := .suspend }
  | suspend : m.pc = .suspend → Runs workerNum fork m { m with pc := .sleeping false }
  | wake : m.pc = .sleeping true → Runs workerNum fork m { m with pc := .testReap }
  | reap : m.pc = .testReap → m.flags.vbReap = true →
    Runs workerNum fork m
      { m with flags := { m.flags with vbReap := false }, pc := .reaping 0 false }
  | noReap : m.pc = .testReap → Runs workerNum fork m { m with pc := .testExit }
  | skip {i : Nat} {live : Bool} : m.pc = .reaping i live → i < m.vbLastProcess →
    ((m.vbProcesses i).pid = -1 ∨ (m.vbProcesses i).exited = true ∧
      ¬ ((m.vbProcesses i).respawn = true ∧ (m.vbProcesses i).exiting = false ∧
        m.flags.vbQuit = false)) →
    Runs workerNum fork m { m with pc := .reaping (i + 1) live }
  | alive {i : Nat} {live : Bool} : m.pc = .reaping i live → i < m.vbLastProcess →
    (m.vbProcesses i).pid ≠ -1 → (m.vbProcesses i).exited = false →
    Runs workerNum fork m { m with pc := .reaping (i + 1) true }
  | respawn {i : Nat} {live : Bool} : m.pc = .reaping i live → i < m.vbLastProcess →
    (m.vbProcesses i).exited = true →
    Runs workerNum fork m { m with pc := .respawning i live }
  | reaped {i : Nat} {live : Bool} : m.pc = .reaping i live → m.vbLastProcess ≤ i →
    Runs workerNum fork m { m with live := live, pc := .testExit }
  | refused {i : Nat} {live : Bool} : m.pc = .respawning i live → fork = none →
    Runs workerNum fork m { m with pc := .reaping (i + 1) live }
  | respawned {i : Nat} {live : Bool} {pid : Int} : m.pc = .respawning i live →
    fork = some pid →
    Runs workerNum fork m
      { m with
        vbProcesses := Function.update m.vbProcesses i
          { m.vbProcesses i with pid := pid, exited := false }
        running := pid :: m.running
        pc := .reaping (i + 1) true }
  | exit : m.pc = .testExit → m.live = false → m.flags.vbQuit = true →
    Runs workerNum fork m { m with pc := .exited }
  | stay : m.pc = .testExit → Runs workerNum fork m { m with pc := .testQuit }
  | quit : m.pc = .testQuit → Runs workerNum fork m { m with pc := .killing }
  | again : m.pc = .testQuit → m.flags.vbQuit = false →
    Runs workerNum fork m { m with pc := .suspend }
  | kill : m.pc = .killing →
    Runs workerNum fork m
      { m with
        pc := .suspend
        pending := Function.update m.pending .sigterm true
        forwarded := true }
  | killFailed : m.pc = .killing → Runs workerNum fork m { m with pc := .failed }

section Loop

variable {workerNum : Int} {fork : Option Int} {ok : Bool} {m m' : Master}

theorem runs_of_run (ran : m.run workerNum fork ok = some m') : Runs workerNum fork m m' := by
  cases pc : m.pc with
  | entry =>
      simp only [Master.run, pc] at ran
      cases ran
      cases ok with
      | false => exact .startFailed pc
      | true => exact .start pc
  | creating todo =>
      cases todo with
      | nil =>
          simp only [Master.run, pc] at ran
          cases ran
          exact .created pc
      | cons child todo =>
          simp only [Master.run, pc] at ran
          cases ran
          exact .create pc
  | suspend =>
      simp only [Master.run, pc] at ran
      cases ran
      exact .suspend pc
  | sleeping woken =>
      cases woken with
      | false =>
          simp only [Master.run, pc] at ran
          cases ran
      | true =>
          simp only [Master.run, pc] at ran
          cases ran
          exact .wake pc
  | testReap =>
      simp only [Master.run, pc] at ran
      split at ran
      · next set =>
          cases ran
          exact .reap pc set
      · cases ran
        exact .noReap pc
  | reaping i live =>
      simp only [Master.run, pc] at ran
      split at ran
      · next inside =>
          split at ran
          · next free =>
              cases ran
              exact .skip pc inside (Or.inl free)
          · next used =>
              split at ran
              · next exited =>
                  split at ran
                  · cases ran
                    exact .respawn pc inside exited
                  · next kept =>
                      cases ran
                      exact .skip pc inside (Or.inr ⟨exited, kept⟩)
              · next alive =>
                  cases ran
                  exact .alive pc inside used (Bool.eq_false_iff.mpr alive)
      · next done =>
          cases ran
          exact .reaped pc (Nat.le_of_not_lt done)
  | respawning i live =>
      simp only [Master.run, pc, Master.spawnProcess, Master.spawnSlot, VbProcess.spawned,
        Master.lastAfter] at ran
      cases answer : fork with
      | none =>
          rw [answer] at ran
          cases ran
          exact .refused pc rfl
      | some pid =>
          rw [answer] at ran
          cases ran
          exact .respawned pc rfl
  | testExit =>
      simp only [Master.run, pc] at ran
      cases ran
      split
      · next both => exact .exit pc both.1 both.2
      · exact .stay pc
  | testQuit =>
      simp only [Master.run, pc] at ran
      cases ran
      split
      · exact .quit pc
      · next clear => exact .again pc (Bool.eq_false_iff.mpr clear)
  | killing =>
      simp only [Master.run, pc] at ran
      split at ran
      · cases ran
        exact .kill pc
      · cases ran
        exact .killFailed pc
  | exited =>
      simp only [Master.run, pc] at ran
      cases ran
  | failed =>
      simp only [Master.run, pc] at ran
      cases ran

/-- The master's own steps clear `vb_reap` at most. -/
theorem Runs.flags (runs : Runs workerNum fork m m') :
    m'.flags = m.flags ∨ m'.flags = { m.flags with vbReap := false } := by
  cases runs with
  | @create child todo pc =>
      exact Or.inl (sameControl_spawnProcess m child.1 child.2 .respawn fork).flags
  | reap pc set => exact Or.inr rfl
  | _ => exact Or.inl rfl

/-- The flags of the master, in every state of a run. -/
theorem Flags.OfMaster.step {act : MasterAct} (master : m.flags.OfMaster)
    (stepped : m.step workerNum act = some m') : m'.flags.OfMaster := by
  cases act with
  | send signo =>
      cases stepped
      exact master
  | deliver signo late =>
      simp only [Master.step] at stepped
      split at stepped
      · cases stepped
        rw [(sameControl_handle m signo late).flags]
        exact (master.handler signo).1
      · cases stepped
  | exit pid =>
      cases stepped
      rw [(sameControl_exitChild m pid).flags]
      exact master
  | run fork ok =>
      rcases (runs_of_run stepped).flags with same | same
      · rw [same]
        exact master
      · rw [same]
        exact ⟨master.kind, master.workerQuit, master.shmqStop⟩

end Loop

end Verben
