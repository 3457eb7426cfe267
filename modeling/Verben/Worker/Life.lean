import Verben.Master.Step

/-!
# The life of a worker process

A worker starts at the `fork` in `spawn_process` with the flags of the master, `vb_process`
among them: until `worker_process_cycle` sets it, the handler takes `SIGTERM` for one to the
master, and sets `vb_quit` only. Where `vb_quit` is set before the process is a worker, by
such a signal or in the master already, the guard in the handler ignores every later
`SIGTERM`, and the worker never leaves its loop. Every other worker stops at the first
`SIGTERM` (`worker_stops_iff`).
-/

namespace Verben

open Transition

/-- The place in the worker's code that runs next: behind the `fork`; in
`worker_process_cycle`, behind its first line; the test of `vb_worker_quit`; in `shmq_pop`;
in `handle_process`; and in `shmq_push`. -/
inductive WorkerPc : Type
  | forked
  | starting
  | top
  | popping
  | working
  | pushing
  | exited
  deriving DecidableEq

/-- The worker, and whether `SIGTERM` was delivered to it since the `fork`, and whether
that was before it set `vb_process`. -/
structure WorkerLife : Type where
  pc : WorkerPc
  flags : Flags
  termed : Bool
  early : Bool
  deriving DecidableEq

/-- The child of `fork`. The master's pending signals are not its own. -/
def WorkerLife.fork (flags : Flags) : WorkerLife := ⟨.forked, flags, false, false⟩

/-- How a call of the plugin or a queue ends: it succeeds, fails, or waits. -/
inductive WorkerAnswer : Type
  | ok
  | error
  | wait
  deriving DecidableEq

/-- The next step. `shmq_pop` and `shmq_push` return 1 where `shmq_stop` is set, and every
return but that of a message leads back to the test. -/
def WorkerLife.run (w : WorkerLife) (answer : WorkerAnswer) : Option WorkerLife :=
  match w.pc with
  | .forked => some { w with pc := .starting, flags := { w.flags with vbProcess := .worker } }
  | .starting => some { w with pc := if answer = .error then .exited else .top }
  | .top => some { w with pc := if w.flags.vbWorkerQuit then .exited else .popping }
  | .popping =>
      if w.flags.shmqStop then
        some { w with pc := .top }
      else
        match answer with
        | .ok => some { w with pc := .working }
        | .error => some { w with pc := .top }
        | .wait => some w
  | .working => some { w with pc := .pushing }
  | .pushing =>
      if w.flags.shmqStop then
        some { w with pc := .top }
      else
        match answer with
        | .wait => some w
        | _ => some { w with pc := .top }
  | .exited => none

/-- A step of the worker: `SIGTERM` is delivered, or it runs. The other signals stay blocked,
as they were in the master. -/
inductive WorkerAct : Type
  | sigterm
  | run (answer : WorkerAnswer)
  deriving DecidableEq

def WorkerLife.step (w : WorkerLife) : WorkerAct → Option WorkerLife
  | .sigterm =>
      if w.pc = .exited then
        none
      else
        some { w with
          flags := vbSignalHandler w.flags .sigterm
          termed := true
          early := w.early || decide (w.flags.vbProcess ≠ .worker) }
  | .run answer => w.run answer

/-- The worker is stopped: it leaves its loop and waits for no queue. -/
def WorkerLife.Stopped (w : WorkerLife) : Prop :=
  w.flags.vbWorkerQuit = true ∧ w.flags.shmqStop = true

/-- Before the worker sets `vb_process`, a `SIGTERM` sets `vb_quit` only. Behind that,
`vb_quit` was set before or goes with the flags of the worker. -/
structure WorkerLife.Inv (inherited : Bool) (w : WorkerLife) : Prop where
  before : w.flags.vbProcess ≠ .worker → w.pc = .forked ∧ w.flags.OfMaster ∧
    w.flags.vbQuit = (inherited || w.early) ∧ w.termed = w.early
  behind : w.flags.vbProcess = .worker → w.pc ≠ .forked ∧
    w.flags.vbQuit = (inherited || w.termed) ∧
    w.flags.vbWorkerQuit = (w.termed && !(inherited || w.early)) ∧
    w.flags.shmqStop = (w.termed && !(inherited || w.early)) ∧
    (w.early = true → w.termed = true)

section Life

variable {w w' : WorkerLife} {inherited : Bool}

theorem WorkerLife.inv_fork {flags : Flags} (master : flags.OfMaster) :
    (WorkerLife.fork flags).Inv flags.vbQuit := by
  refine ⟨fun _ => ⟨rfl, master, (Bool.or_false _).symm, rfl⟩, ?_⟩
  intro worker
  cases master.kind.symm.trans worker

/-- The handler in a worker. -/
theorem vbSignalHandler_of_worker {f : Flags} (worker : f.vbProcess = .worker) :
    vbSignalHandler f .sigterm =
      if f.vbQuit = false then
        { f with vbQuit := true, vbWorkerQuit := true, shmqStop := true }
      else
        f := by
  cases f
  cases worker
  rfl

theorem WorkerLife.Inv.sigterm (inv : w.Inv inherited) :
    WorkerLife.Inv inherited
      { w with
        flags := vbSignalHandler w.flags .sigterm
        termed := true
        early := w.early || decide (w.flags.vbProcess ≠ .worker) } := by
  rcases w with ⟨pc, flags, termed, early⟩
  by_cases worker : flags.vbProcess = .worker
  · obtain ⟨past, quit, workerQuit, stop, order⟩ := inv.behind worker
    simp only at past quit workerQuit stop order
    rw [vbSignalHandler_of_worker worker]
    simp only [worker, ne_eq, not_true_eq_false, decide_false, Bool.or_false]
    refine ⟨fun other => ?_, fun _ => ⟨past, ?_⟩⟩
    · simp only at other
      split at other
      · exact absurd rfl other
      · exact absurd worker other
    · split
      · next clear =>
          -- the first `SIGTERM`: none came early
          rw [clear] at quit
          obtain ⟨rfl, rfl⟩ := Bool.or_eq_false_iff.mp quit.symm
          cases early with
          | false => simp
          | true => cases order rfl
      · next set =>
          rw [Bool.not_eq_false] at set
          rw [set] at quit
          cases inherited with
          | false =>
              rw [Bool.false_or] at quit
              subst quit
              exact ⟨set, workerQuit, stop, fun _ => rfl⟩
          | true =>
              rw [Bool.true_or, Bool.not_true, Bool.and_false] at workerQuit stop
              exact ⟨set, workerQuit, stop, fun _ => rfl⟩
  · obtain ⟨here, master, quit, termed'⟩ := inv.before worker
    obtain ⟨master', quit'⟩ := master.handler .sigterm
    refine ⟨fun _ => ⟨here, master', ?_, ?_⟩, fun other => ?_⟩
    · rw [quit', quit]
      simp [worker]
    · simp [worker]
    · cases master'.kind.symm.trans other

/-- The worker changes its flags only behind the `fork`. -/
theorem WorkerLife.run_cases {answer : WorkerAnswer} (ran : w.run answer = some w') :
    (w.pc = .forked ∧
        w' = { w with pc := .starting, flags := { w.flags with vbProcess := .worker } }) ∨
      (w.pc ≠ .forked ∧ ∃ next, w' = { w with pc := next } ∧ next ≠ .forked) := by
  unfold WorkerLife.run at ran
  cases pc : w.pc with
  | forked =>
      simp only [pc] at ran
      cases ran
      exact Or.inl ⟨rfl, rfl⟩
  | starting =>
      simp only [pc] at ran
      cases ran
      refine Or.inr ⟨nofun, _, rfl, ?_⟩
      split <;> nofun
  | top =>
      simp only [pc] at ran
      cases ran
      refine Or.inr ⟨nofun, _, rfl, ?_⟩
      split <;> nofun
  | popping =>
      have same : w = { w with pc := .popping } := by rw [← pc]
      simp only [pc] at ran
      refine Or.inr ⟨nofun, ?_⟩
      split at ran
      · cases ran
        exact ⟨_, rfl, nofun⟩
      · cases answer with
        | ok =>
            cases ran
            exact ⟨_, rfl, nofun⟩
        | error =>
            cases ran
            exact ⟨_, rfl, nofun⟩
        | wait =>
            cases ran
            exact ⟨_, same, nofun⟩
  | working =>
      simp only [pc] at ran
      cases ran
      exact Or.inr ⟨nofun, _, rfl, nofun⟩
  | pushing =>
      have same : w = { w with pc := .pushing } := by rw [← pc]
      simp only [pc] at ran
      refine Or.inr ⟨nofun, ?_⟩
      split at ran
      · cases ran
        exact ⟨_, rfl, nofun⟩
      · cases answer with
        | ok =>
            cases ran
            exact ⟨_, rfl, nofun⟩
        | error =>
            cases ran
            exact ⟨_, rfl, nofun⟩
        | wait =>
            cases ran
            exact ⟨_, same, nofun⟩
  | exited =>
      simp only [pc] at ran
      cases ran

theorem WorkerLife.Inv.run {answer : WorkerAnswer} (inv : w.Inv inherited)
    (ran : w.run answer = some w') : w'.Inv inherited := by
  rcases WorkerLife.run_cases ran with ⟨here, rfl⟩ | ⟨past, next, rfl, other⟩
  · have notYet : w.flags.vbProcess ≠ .worker := fun worker => (inv.behind worker).1 here
    obtain ⟨_, master, quit, termed⟩ := inv.before notYet
    refine ⟨fun other => absurd rfl other, fun _ => ⟨nofun, ?_, ?_, ?_, ?_⟩⟩
    · simpa [termed] using quit
    · simp only [master.workerQuit, termed]
      cases w.early <;> simp
    · simp only [master.shmqStop, termed]
      cases w.early <;> simp
    · simp [termed]
  · have worker : w.flags.vbProcess = .worker := by
      by_contra notYet
      exact past (inv.before notYet).1
    obtain ⟨_, rest⟩ := inv.behind worker
    exact ⟨fun notYet => absurd worker notYet, fun _ => ⟨other, rest⟩⟩

end Life

/-- **Which workers a `SIGTERM` stops.** For every state of the master in which it forks, and
every state that the worker reaches from there in which `vb_process` is
`VB_PROCESS_WORKER`: that it is stopped if a `SIGTERM` was delivered to it or `vb_quit` was
inherited as 1, holds if and only if `vb_quit` was inherited as 0 and no `SIGTERM` was
delivered before `vb_process` was set. -/
theorem worker_stops_iff {workerNum : Int} {m : Master}
    (master : Reach (Master.step workerNum) always Master.init m)
    {w : WorkerLife} (reach : Reach WorkerLife.step always (.fork m.flags) w)
    (worker : w.flags.vbProcess = .worker) :
    ((w.termed = true ∨ m.flags.vbQuit = true) → w.Stopped) ↔
      m.flags.vbQuit = false ∧ w.early = false := by
  have ofMaster : m.flags.OfMaster := by
    apply master.invariant (P := fun m => m.flags.OfMaster) ⟨rfl, rfl, rfl⟩
    intro m act m' ofMaster _ stepped
    exact ofMaster.step stepped
  have inv : w.Inv m.flags.vbQuit := by
    apply reach.invariant (P := WorkerLife.Inv m.flags.vbQuit) (WorkerLife.inv_fork ofMaster)
    intro w act w' inv _ stepped
    cases act with
    | sigterm =>
        simp only [WorkerLife.step] at stepped
        split at stepped
        · cases stepped
        · cases stepped
          exact inv.sigterm
    | run answer => exact inv.run stepped
  obtain ⟨_, _, workerQuit, stop, order⟩ := inv.behind worker
  unfold WorkerLife.Stopped
  rw [workerQuit, stop, Bool.and_eq_true, Bool.not_eq_true', Bool.or_eq_false_iff]
  constructor
  · intro stopped
    cases inherited : m.flags.vbQuit with
    | true => exact absurd (stopped (Or.inr inherited)).1.2.1 (by rw [inherited]; simp)
    | false =>
        refine ⟨rfl, ?_⟩
        cases early : w.early with
        | false => rfl
        | true => exact absurd (stopped (Or.inl (order early))).1.2.2 (by rw [early]; simp)
  · intro clean either
    rcases either with termed | inherited
    · exact ⟨⟨termed, clean⟩, termed, clean⟩
    · cases clean.1.symm.trans inherited

/-- The first child of the master, told to stop in its loop. -/
theorem worker_stops_iff_looping :
    let w : WorkerLife := ⟨.top, ⟨.worker, true, false, true, true⟩, true, false⟩
    ((w.termed = true ∨ Master.init.flags.vbQuit = true) → w.Stopped) ↔
      Master.init.flags.vbQuit = false ∧ w.early = false := by
  intro w
  have master : Reach (Master.step 4) always Master.init Master.init := .refl
  have ran : run WorkerLife.step (.fork Master.init.flags) [.run .ok, .run .ok, .sigterm] =
      some w := by decide
  exact worker_stops_iff master (reach_of_run ran) rfl

/-- A `SIGTERM` right behind the `fork` of the first worker, and another one: the worker
waits for messages. -/
theorem worker_loops_on_sigterm :
    ∃ m w, Reach (Master.step 1) always Master.init m ∧
      m.pc = .creating [(.workerProcessCycle, "verben:[worker]")] ∧ m.flags.vbQuit = false ∧
      Reach WorkerLife.step always (.fork m.flags) w ∧ w.flags.vbProcess = .worker ∧
      w.termed = true ∧ w.pc = .popping ∧ ¬ w.Stopped := by
  have forks : (run (Master.step 1) Master.init [.run none true, .run (some 101) true]).map
      (fun m => (m.pc, m.flags)) =
        some (.creating [(.workerProcessCycle, "verben:[worker]")], Master.init.flags) := by
    decide
  obtain ⟨m, master, state⟩ := Option.map_eq_some_iff.mp forks
  obtain ⟨pc, flags⟩ := Prod.mk.inj state
  let w : WorkerLife := ⟨.popping, ⟨.worker, true, false, false, false⟩, true, true⟩
  have ran : run WorkerLife.step (.fork Master.init.flags)
      [.sigterm, .run .ok, .run .ok, .sigterm, .run .ok] = some w := by decide
  refine ⟨m, w, reach_of_run master, pc, by rw [flags]; rfl, ?_, rfl, rfl, rfl, ?_⟩
  · rw [flags]
    exact reach_of_run ran
  · intro stopped
    cases stopped.1

end Verben
