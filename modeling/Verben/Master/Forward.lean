import Verben.Master.Step

/-!
# Whether a shutdown is forwarded

The master tests `vb_quit` at the end of its loop and forwards a shutdown to its process
group before it sleeps again. `SIGQUIT` is blocked from there to `sigsuspend`; `SIGTERM` is
not. A `SIGTERM` that finds `vb_quit` clear behind that test, or before the loop is entered
at all, leaves the master asleep with the shutdown unforwarded (`master_sleeps_on_sigterm`).
In the runs without such a delivery it never is (`master_forwards_quit`).
-/

namespace Verben

open Transition

/-- Whenever the master is suspended with `vb_quit` set and children alive, it has sent
`SIGTERM` to its process group since `vb_quit` became 1. -/
def Master.ForwardsQuit (m : Master) : Prop :=
  m.pc = .sleeping false → m.flags.vbQuit = true → m.running ≠ [] → m.forwarded = true

/-- No test of `vb_quit` stands between the place and the next `sigsuspend`. -/
def MasterPc.Untested : MasterPc → Prop
  | .entry => True
  | .creating _ => True
  | .suspend => True
  | _ => False

instance : (pc : MasterPc) → Decidable pc.Untested
  | .entry => inferInstanceAs (Decidable True)
  | .creating _ => inferInstanceAs (Decidable True)
  | .suspend => inferInstanceAs (Decidable True)
  | .sleeping _ => inferInstanceAs (Decidable False)
  | .testReap => inferInstanceAs (Decidable False)
  | .reaping _ _ => inferInstanceAs (Decidable False)
  | .respawning _ _ => inferInstanceAs (Decidable False)
  | .testExit => inferInstanceAs (Decidable False)
  | .testQuit => inferInstanceAs (Decidable False)
  | .killing => inferInstanceAs (Decidable False)
  | .exited => inferInstanceAs (Decidable False)
  | .failed => inferInstanceAs (Decidable False)

/-- The first signal to quit is not delivered there. -/
def Prompt (m : Master) : MasterAct → Prop
  | .deliver signo _ => signo ≠ .sigchld → m.flags.vbQuit = false → ¬ m.pc.Untested
  | _ => True

instance (m : Master) : (act : MasterAct) → Decidable (Prompt m act)
  | .send _ => inferInstanceAs (Decidable True)
  | .deliver _ _ => inferInstanceAs (Decidable (_ → _ → _))
  | .exit _ => inferInstanceAs (Decidable True)
  | .run _ _ => inferInstanceAs (Decidable True)

/-- A shutdown that was not forwarded has a test of `vb_quit` before it. -/
def Master.Ahead (m : Master) : Prop :=
  m.flags.vbQuit = true → m.forwarded = false → ¬ m.pc.Untested ∧ m.pc ≠ .sleeping false

section Loop

variable {workerNum : Int} {fork : Option Int} {m m' : Master}

theorem Master.Ahead.runs (ahead : m.Ahead) (runs : Runs workerNum fork m m') : m'.Ahead := by
  have open' : ∀ {pc : MasterPc}, m.pc = pc → pc.Untested →
      m'.flags.vbQuit = m.flags.vbQuit → m'.forwarded = m.forwarded → m'.Ahead := by
    intro pc here untested quit sent set unsent
    exact absurd (here ▸ untested) (ahead (quit ▸ set) (sent ▸ unsent)).1
  cases runs with
  | start pc => exact open' pc trivial rfl rfl
  | startFailed pc => exact open' pc trivial rfl rfl
  | @create child todo pc =>
      have same := sameControl_spawnProcess m child.1 child.2 .respawn fork
      exact open' pc trivial (congrArg Flags.vbQuit same.flags) same.forwarded
  | created pc => exact open' pc trivial rfl rfl
  | suspend pc => exact open' pc trivial rfl rfl
  | again pc clear =>
      intro set _
      exact absurd (clear.symm.trans set) (by simp)
  | kill pc =>
      intro _ unsent
      cases unsent
  | _ => exact fun _ _ => ⟨id, nofun⟩

theorem Master.Ahead.step {act : MasterAct} (ahead : m.Ahead) (master : m.flags.OfMaster)
    (prompt : Prompt m act) (stepped : m.step workerNum act = some m') : m'.Ahead := by
  cases act with
  | send signo =>
      cases stepped
      exact ahead
  | deliver signo late =>
      simp only [Master.step] at stepped
      split at stepped
      · cases stepped
        have same := sameControl_handle m signo late
        obtain ⟨_, quit⟩ := master.handler signo
        unfold Master.Ahead
        rw [same.pc, same.flags, same.forwarded]
        intro set unsent
        simp only [Master.take] at set unsent ⊢
        -- the handler wakes the master, and else leaves it where it was
        have woken : ¬ m.pc.Untested → ¬ m.pc.wake.Untested ∧ m.pc.wake ≠ .sleeping false := by
          intro tested
          cases pc : m.pc <;> simp_all [MasterPc.wake, MasterPc.Untested]
        apply woken
        cases before : m.flags.vbQuit with
        | true =>
            rw [before] at unsent
            exact (ahead before (by simpa using unsent)).1
        | false =>
            rw [quit, before, Bool.false_or, decide_eq_true_eq] at set
            exact prompt set before
      · cases stepped
  | exit pid =>
      cases stepped
      have same := sameControl_exitChild m pid
      unfold Master.Ahead
      rw [same.pc, same.flags, same.forwarded]
      exact ahead
  | run fork ok => exact ahead.runs (runs_of_run stepped)

/-- A `SIGTERM` between the test and `sigsuspend` strands the master. -/
theorem strands_on_sigterm {late : List Int} (pc : m.pc = .suspend)
    (master : m.flags.OfMaster) (clear : m.flags.vbQuit = false) (alive : m.running ≠ [])
    (stepped : m.step workerNum (.deliver .sigterm late) = some m') :
    ∃ m'', m'.step workerNum (.run none true) = some m'' ∧ ¬ m''.ForwardsQuit := by
  simp only [Master.step] at stepped
  split at stepped
  · cases stepped
    have taken : m.handle .sigterm late = m.take .sigterm := if_neg (by decide)
    have here : (m.take .sigterm).pc = .suspend := by
      simp only [Master.take, pc, MasterPc.wake]
    have set : (m.take .sigterm).flags.vbQuit = true := by
      simp only [Master.take, (master.handler .sigterm).2, clear]
      rfl
    refine ⟨{ m.take .sigterm with pc := .sleeping false }, ?_, ?_⟩
    · rw [taken]
      simp only [Master.step, Master.run, here]
    · intro forwards
      have sent : (m.take .sigterm).forwarded = true := forwards rfl set alive
      simp only [Master.take] at sent set
      rw [if_pos ⟨clear, set⟩] at sent
      cases sent
  · cases stepped

end Loop

/-- **A shutdown is forwarded before the master sleeps.** In every state of every run whose
first signal to quit is delivered where a test of `vb_quit` follows before the next
`sigsuspend`: if the master is suspended with `vb_quit` set and children alive, it has sent
`SIGTERM` to its process group since `vb_quit` became 1. -/
theorem master_forwards_quit {workerNum : Int} {m : Master}
    (reach : Reach (Master.step workerNum) Prompt Master.init m) : m.ForwardsQuit := by
  have both : m.flags.OfMaster ∧ m.Ahead := by
    apply reach.invariant (P := fun m => m.flags.OfMaster ∧ m.Ahead) ⟨⟨rfl, rfl, rfl⟩, nofun⟩
    intro m act m' both prompt stepped
    rcases both with ⟨master, ahead⟩
    exact ⟨master.step stepped, ahead.step master prompt stepped⟩
  intro pc quit _
  cases sent : m.forwarded with
  | true => rfl
  | false => exact absurd pc (both.2 quit sent).2

/-- One worker is created, and a `SIGQUIT` wakes the master, which goes back to sleep. -/
def sigquitInSleep : List MasterAct :=
  [.run none true, .run (some 101) true, .run (some 102) true, .run none true, .run none true,
    .send .sigquit, .deliver .sigquit [], .run none true, .run none true, .run none true,
    .run none true, .run none true, .run none true]

theorem master_forwards_quit_sigquit :
    ∃ m, Reach (Master.step 1) Prompt Master.init m ∧ m.pc = .sleeping false ∧
      m.running ≠ [] ∧ m.ForwardsQuit := by
  have ran : (runGuarded (Master.step 1) Prompt Master.init sigquitInSleep).map
      (fun m => (m.pc, m.running)) = some (.sleeping false, [102, 101]) := by decide
  obtain ⟨m, same, state⟩ := Option.map_eq_some_iff.mp ran
  obtain ⟨pc, running⟩ := Prod.mk.inj state
  have reach := reach_of_runGuarded same
  exact ⟨m, reach, pc, by rw [running]; simp, master_forwards_quit reach⟩

/-- One worker is created, and a `SIGTERM` arrives before the first `sigsuspend`. -/
def sigtermBeforeSleep : List MasterAct :=
  [.run none true, .run (some 101) true, .run (some 102) true, .run none true,
    .send .sigterm, .deliver .sigterm [], .run none true]

/-- The master sleeps, with two children that nobody told to quit. -/
theorem master_sleeps_on_sigterm :
    ∃ m, Reach (Master.step 1) always Master.init m ∧ ¬ m.ForwardsQuit := by
  have ran : (run (Master.step 1) Master.init sigtermBeforeSleep).map
      (fun m => (m.pc, m.flags.vbQuit, m.running, m.forwarded)) =
        some (.sleeping false, true, [102, 101], false) := by decide
  obtain ⟨m, same, state⟩ := Option.map_eq_some_iff.mp ran
  simp only [Prod.mk.injEq] at state
  obtain ⟨pc, quit, running, unsent⟩ := state
  refine ⟨m, reach_of_run same, ?_⟩
  intro forwards
  have sent := forwards pc quit (by rw [running]; simp)
  rw [unsent] at sent
  cases sent

end Verben
