import Verben.Master.Table

/-!
# What `reap_children` does

`reap_children` looks at every slot once, and no signal that it blocks marks a slot in
between. So a slot that awaits its process at the start is refilled at the end, unless the
master quits or cannot fork (`Refilling`), and the value returned tells whether a child is
left. `master_accounts` has all that is known of the table.
-/

namespace Verben

open Transition

/-- The master is in `reap_children`. -/
def MasterPc.InReap : MasterPc → Prop
  | .reaping _ _ => True
  | .respawning _ _ => True
  | _ => False

instance : (pc : MasterPc) → Decidable pc.InReap
  | .reaping _ _ => inferInstanceAs (Decidable True)
  | .respawning _ _ => inferInstanceAs (Decidable True)
  | .entry => inferInstanceAs (Decidable False)
  | .creating _ => inferInstanceAs (Decidable False)
  | .suspend => inferInstanceAs (Decidable False)
  | .sleeping _ => inferInstanceAs (Decidable False)
  | .testReap => inferInstanceAs (Decidable False)
  | .testExit => inferInstanceAs (Decidable False)
  | .testQuit => inferInstanceAs (Decidable False)
  | .killing => inferInstanceAs (Decidable False)
  | .exited => inferInstanceAs (Decidable False)
  | .failed => inferInstanceAs (Decidable False)

/-- At the slot `i` the master is not told to quit, and `fork` succeeds. -/
def Grants (i : Nat) (m : Master) : MasterAct → Prop
  | .run fork _ =>
      ∀ live, (m.pc = .reaping i live → m.flags.vbQuit = false) ∧
        (m.pc = .respawning i live → fork ≠ none)
  | _ => True

/-- The steps up to the next `reap_children`. -/
def Before (m : Master) (act : MasterAct) : Prop :=
  FreshPid m act ∧ ¬ m.pc.InReap

/-- The steps of one `reap_children`. -/
def Within (i : Nat) (m : Master) (act : MasterAct) : Prop :=
  FreshPid m act ∧ m.pc.InReap ∧ Grants i m act

instance (i : Nat) (m : Master) : (act : MasterAct) → Decidable (Grants i m act)
  | .run _ _ => inferInstanceAs (Decidable (∀ _, (_ → _) ∧ (_ → _)))
  | .send _ => inferInstanceAs (Decidable True)
  | .deliver _ _ => inferInstanceAs (Decidable True)
  | .exit _ => inferInstanceAs (Decidable True)

instance (m : Master) (act : MasterAct) : Decidable (Before m act) :=
  inferInstanceAs (Decidable (_ ∧ _))

instance (i : Nat) (m : Master) (act : MasterAct) : Decidable (Within i m act) :=
  inferInstanceAs (Decidable (_ ∧ _ ∧ _))

/-- The child in the slot was collected, and shall be respawned. -/
structure Master.Awaits (m : Master) (i : Nat) : Prop where
  inside : i < m.vbLastProcess
  exited : (m.vbProcesses i).exited = true
  respawn : (m.vbProcesses i).respawn = true
  exiting : (m.vbProcesses i).exiting = false

/-- The slot has an uncollected child. -/
structure Master.Filled (m : Master) (i : Nat) : Prop where
  inside : i < m.vbLastProcess
  exited : (m.vbProcesses i).exited = false

/-- The slot `i` while `reap_children` is at `j`. -/
structure Master.Scans (m : Master) (i j : Nat) : Prop where
  ahead : j ≤ i → m.Awaits i
  behind : i < j → m.Filled i

/-- The slot `i` awaits its process until `reap_children` is behind it. -/
def Master.Refilling (m : Master) (i : Nat) : Prop :=
  match m.pc with
  | .reaping j _ => m.Scans i j
  | .respawning j _ => m.Scans i j
  | .testExit => m.Filled i
  | _ => False

/-- Each child that was forked and not collected is recorded in exactly one slot, with
`exited = 0`, and every other slot has `exited = 1`. -/
structure Master.Accounts (m : Master) : Prop where
  recorded : ∀ pid ∈ m.children, ∃ i < m.vbLastProcess, (m.vbProcesses i).pid = pid ∧
    (m.vbProcesses i).exited = false ∧
    ∀ j < m.vbLastProcess, (m.vbProcesses j).pid = pid → j = i
  others : ∀ i < m.vbLastProcess, (m.vbProcesses i).pid ∉ m.children →
    (m.vbProcesses i).exited = true

section Reap

variable {workerNum : Int} {m m' : Master} {i : Nat}

theorem Master.Slots.accounts (slots : m.Slots) : m.Accounts := by
  constructor
  · intro pid mem
    obtain ⟨i, inside, same, running⟩ := slots.recorded mem
    refine ⟨i, inside, same, running, fun j inside' same' => ?_⟩
    exact slots.apart inside' inside (same'.trans same.symm)
  · intro i inside missing
    by_contra unmarked
    exact missing (slots.alive inside (Bool.eq_false_iff.mpr unmarked))

/-! ## Up to the next `reap_children` -/

theorem Master.Awaits.congr (awaits : m.Awaits i) (same : m'.vbProcesses i = m.vbProcesses i)
    (last : m.vbLastProcess ≤ m'.vbLastProcess) : m'.Awaits i := by
  rcases awaits with ⟨inside, exited, respawn, exiting⟩
  exact ⟨Nat.lt_of_lt_of_le inside last, same ▸ exited, same ▸ respawn, same ▸ exiting⟩

/-- A handler leaves a marked slot as it is. -/
theorem Master.Awaits.handle (slots : m.Slots) (awaits : m.Awaits i) (signo : Signo)
    (late : List Int) : (m.handle signo late).Awaits i := by
  unfold Master.handle
  split
  · obtain ⟨table, last, perm⟩ := exitChildren_children late (m.take signo)
    have slots' := (slots.congr rfl rfl (.refl _) : (m.take signo).Slots).congr table last perm
    obtain ⟨last', _, marked⟩ := vbProcesses_markAll _ _ slots'.apart
    refine awaits.congr ?_ (Nat.le_of_eq (last'.trans last).symm)
    have same : (m.take signo).vbProcesses = m.vbProcesses := rfl
    have unmarked : { m.vbProcesses i with exited := true } = m.vbProcesses i := by
      rw [← awaits.exited]
    refine (marked i).trans ?_
    rw [table, same]
    split
    · exact unmarked
    · rfl
  · exact awaits.congr rfl (Nat.le_refl _)

theorem Master.Awaits.step {act : MasterAct} (slots : m.Slots) (awaits : m.Awaits i)
    (before : ¬ m.pc.InReap) (stepped : m.step workerNum act = some m') : m'.Awaits i := by
  cases act with
  | send signo =>
      cases stepped
      exact awaits.congr rfl (Nat.le_refl _)
  | deliver signo late =>
      simp only [Master.step] at stepped
      split at stepped
      · cases stepped
        exact awaits.handle slots signo late
      · cases stepped
  | exit pid =>
      cases stepped
      obtain ⟨table, last, _⟩ := exitChild_children m pid
      exact awaits.congr (by rw [table]) (Nat.le_of_eq last.symm)
  | run fork ok =>
      cases runs_of_run stepped with
      | @create child todo pc =>
          simp only [Master.spawnProcess, Master.spawnSlot, slots.freeSlot]
          by_cases full : m.vbLastProcess = vbMaxProcesses
          · rw [if_pos full]
            exact awaits.congr rfl (Nat.le_refl _)
          · rw [if_neg full]
            cases fork with
            | none => exact awaits.congr rfl (Nat.le_refl _)
            | some pid =>
                refine awaits.congr ?_ (by simp [Master.lastAfter])
                exact Function.update_of_ne (Nat.ne_of_lt awaits.inside) ..
      | respawned pc answer => exact absurd (pc ▸ trivial) before
      | _ => exact awaits.congr rfl (Nat.le_refl _)

/-! ## One `reap_children` -/

theorem Master.Filled.congr (filled : m.Filled i) (same : m'.vbProcesses i = m.vbProcesses i)
    (last : m'.vbLastProcess = m.vbLastProcess) : m'.Filled i :=
  ⟨last ▸ filled.inside, same ▸ filled.exited⟩

theorem Master.Scans.congr {j : Nat} (scans : m.Scans i j)
    (same : m'.vbProcesses i = m.vbProcesses i) (last : m'.vbLastProcess = m.vbLastProcess) :
    m'.Scans i j where
  ahead := fun below => (scans.ahead below).congr same (Nat.le_of_eq last.symm)
  behind := fun above => (scans.behind above).congr same last

theorem Master.Refilling.congr (refilling : m.Refilling i) (pc : m'.pc = m.pc)
    (same : m'.vbProcesses i = m.vbProcesses i)
    (last : m'.vbLastProcess = m.vbLastProcess) : m'.Refilling i := by
  unfold Master.Refilling at refilling ⊢
  rw [pc]
  cases here : m.pc with
  | reaping j live =>
      rw [here] at refilling
      exact refilling.congr same last
  | respawning j live =>
      rw [here] at refilling
      exact refilling.congr same last
  | testExit =>
      rw [here] at refilling
      exact refilling.congr same last
  | _ =>
      rw [here] at refilling
      exact refilling

/-- The next slot: the one at hand awaits nothing. -/
theorem Master.Scans.next {j : Nat} (scans : m.Scans i j)
    (same : m'.vbProcesses i = m.vbProcesses i) (last : m'.vbLastProcess = m.vbLastProcess)
    (passed : j = i → ¬ m.Awaits i) : m'.Scans i (j + 1) := by
  constructor
  · intro below
    exact (scans.ahead (by omega)).congr same (Nat.le_of_eq last.symm)
  · intro above
    rcases Nat.lt_succ_iff_lt_or_eq.mp above with before | here
    · exact (scans.behind before).congr same last
    · exact absurd (scans.ahead (Nat.le_of_eq here.symm)) (passed here.symm)

/-- The slot is refilled when it is reached, and no later slot touches it. -/
theorem Master.Refilling.runs {fork : Option Int} {ok : Bool} (slots : m.Slots)
    (told : m.LiveSays) (refilling : m.Refilling i)
    (within : m.pc.InReap) (grants : Grants i m (.run fork ok))
    (runs : Runs workerNum fork m m') : m'.Refilling i := by
  unfold Master.Refilling at refilling
  unfold Master.LiveSays at told
  cases runs with
  | @skip j live pc inside skipped =>
      rw [pc] at refilling
      refine refilling.next rfl rfl ?_
      rintro rfl awaits
      have clear := (grants live).1 pc
      rcases skipped with free | ⟨_, kept⟩
      · exact slots.used inside free
      · exact kept ⟨awaits.respawn, awaits.exiting, clear⟩
  | @alive j live pc inside used running =>
      rw [pc] at refilling
      refine refilling.next rfl rfl ?_
      rintro rfl awaits
      exact absurd (running.symm.trans awaits.exited) nofun
  | respawn pc inside exited =>
      rw [pc] at refilling
      exact refilling.congr rfl rfl
  | @reaped j live pc behind =>
      rw [pc] at refilling
      by_cases above : i < j
      · exact (refilling.behind above).congr rfl rfl
      · have inside := (refilling.ahead (Nat.le_of_not_lt above)).inside
        omega
  | @refused j live pc answer =>
      rw [pc] at refilling
      refine refilling.next rfl rfl ?_
      rintro rfl _
      exact (grants live).2 pc answer
  | @respawned j live pid pc answer =>
      rw [pc] at refilling told
      by_cases here : j = i
      · subst here
        refine ⟨fun below => absurd below (Nat.not_succ_le_self _), fun _ => ⟨told.2.1, ?_⟩⟩
        simp only [Function.update_self]
      · refine refilling.next ?_ rfl fun eq => absurd eq here
        exact Function.update_of_ne (Ne.symm here) ..
  | _ => simp_all only [MasterPc.InReap]

/-- `SIGCHLD` is blocked in `reap_children`. -/
theorem Master.Refilling.step {act : MasterAct} (slots : m.Slots) (told : m.LiveSays)
    (refilling : m.Refilling i) (within : Within i m act)
    (stepped : m.step workerNum act = some m') : m'.Refilling i := by
  rcases within with ⟨_, reaping, grants⟩
  cases act with
  | send signo =>
      cases stepped
      exact refilling.congr rfl rfl rfl
  | deliver signo late =>
      simp only [Master.step] at stepped
      split at stepped
      · next open' =>
          cases stepped
          have other : signo ≠ .sigchld := by
            rintro rfl
            have blocked : m.pc.blocks .sigchld = true := by
              cases here : m.pc <;> simp_all [MasterPc.InReap, MasterPc.blocks]
            rw [open'.2] at blocked
            cases blocked
          have awake : m.pc.wake = m.pc := by
            cases here : m.pc <;> simp_all [MasterPc.InReap, MasterPc.wake]
          rw [Master.handle, if_neg other]
          exact refilling.congr awake rfl rfl
      · cases stepped
  | exit pid =>
      cases stepped
      obtain ⟨table, last, _⟩ := exitChild_children m pid
      exact refilling.congr (sameControl_exitChild m pid).pc (by rw [table]) last
  | run fork ok => exact refilling.runs slots told reaping grants (runs_of_run stepped)

end Reap

/-! ## Over whole runs -/

section Runs

variable {workerNum : Int} {m m' : Master} {i : Nat}

theorem slots_init : Master.init.Slots where
  bound := Nat.zero_le _
  used := nofun
  apart := nofun
  nodup := List.nodup_nil
  recorded := nofun
  alive := nofun

/-- The table and `live` are right in every state. -/
theorem slots_of_reach (reach : Reach (Master.step workerNum) FreshPid Master.init m) :
    m.Slots ∧ m.LiveSays := by
  apply reach.invariant (P := fun m => m.Slots ∧ m.LiveSays) ⟨slots_init, rfl⟩
  intro m act m' both fresh stepped
  exact both.1.step both.2 fresh stepped

/-- A slot awaits its process until the next `reap_children`. -/
theorem awaits_of_reach (slots : m.Slots) (told : m.LiveSays) (awaits : m.Awaits i)
    (reach : Reach (Master.step workerNum) Before m m') :
    m'.Slots ∧ m'.LiveSays ∧ m'.Awaits i := by
  apply reach.invariant (P := fun m => m.Slots ∧ m.LiveSays ∧ m.Awaits i) ⟨slots, told, awaits⟩
  intro m act m' all before stepped
  rcases all with ⟨slots, told, awaits⟩
  obtain ⟨slots', told'⟩ := slots.step told before.1 stepped
  exact ⟨slots', told', awaits.step slots before.2 stepped⟩

theorem refilling_of_reach (slots : m.Slots) (told : m.LiveSays) (refilling : m.Refilling i)
    (reach : Reach (Master.step workerNum) (Within i) m m') :
    m'.Slots ∧ m'.Refilling i := by
  have all : m'.Slots ∧ m'.LiveSays ∧ m'.Refilling i := by
    apply reach.invariant (P := fun m => m.Slots ∧ m.LiveSays ∧ m.Refilling i)
      ⟨slots, told, refilling⟩
    intro m act m' all within stepped
    rcases all with ⟨slots, told, refilling⟩
    obtain ⟨slots', told'⟩ := slots.step told within.1 stepped
    exact ⟨slots', told', refilling.step slots told within stepped⟩
  exact ⟨all.1, all.2.2⟩

/-- Where `reap_children` returns, `live` is exactly whether a child is left. -/
theorem Master.Slots.live_iff {live : Bool} (slots : m.Slots) (told : m.LiveSays)
    (pc : m.pc = .reaping m.vbLastProcess live) : live = false ↔ m.children = [] := by
  unfold Master.LiveSays at told
  rw [pc] at told
  constructor
  · intro clear
    exact slots.none_left (told.dead clear)
  · intro none
    by_contra set
    exact told.left (eq_true_of_ne_false set) none

end Runs

/-- **The master accounts for its children.** In every state of every run in which `fork`
gives no pid that a slot has: each child that was forked and not collected is recorded in
exactly one slot, with `exited = 0`, and every other slot has `exited = 1`; `reap_children`
returns 0 exactly when no child is left; the master exits only when none is left; and a slot
whose process was collected and shall be respawned has a new child when the next
`reap_children` returns, if `vb_quit` is 0 and `fork` succeeds there. -/
theorem master_accounts {workerNum : Int} {m : Master}
    (reach : Reach (Master.step workerNum) FreshPid Master.init m) :
    m.Accounts ∧
      (∀ live, m.pc = .reaping m.vbLastProcess live → (live = false ↔ m.children = [])) ∧
      (m.pc = .exited → m.children = []) ∧
      ∀ i start done live, m.Awaits i → Reach (Master.step workerNum) Before m start →
        start.pc = .reaping 0 live → Reach (Master.step workerNum) (Within i) start done →
        done.pc = .testExit →
        (done.vbProcesses i).exited = false ∧ (done.vbProcesses i).pid ∈ done.children := by
  obtain ⟨slots, told⟩ := slots_of_reach reach
  refine ⟨slots.accounts, fun live pc => slots.live_iff told pc, ?_, ?_⟩
  · intro pc
    unfold Master.LiveSays at told
    rwa [pc] at told
  · intro i start done live awaits before pc within returned
    obtain ⟨slots', told', awaits'⟩ := awaits_of_reach slots told awaits before
    have refilling : start.Refilling i := by
      unfold Master.Refilling
      rw [pc]
      exact ⟨fun _ => awaits', nofun⟩
    obtain ⟨slots'', refilled⟩ := refilling_of_reach slots' told' refilling within
    unfold Master.Refilling at refilled
    rw [returned] at refilled
    exact ⟨refilled.exited, slots''.alive refilled.inside refilled.exited⟩

/-- One worker is created, and exits while the master sleeps. -/
def workerExits : List MasterAct :=
  [.run none true, .run (some 101) true, .run (some 102) true, .run none true, .run none true,
    .exit 102, .deliver .sigchld []]

def reapChildren : List MasterAct := [.run none true, .run none true]

/-- The slot of the conn process is passed, and that of the worker refilled. -/
def workerRespawned : List MasterAct :=
  [.run none true, .run none true, .run (some 103) true, .run none true]

theorem master_accounts_respawn :
    ∃ m start done, Reach (Master.step 1) FreshPid Master.init m ∧ m.children = [101] ∧
      Reach (Master.step 1) Before m start ∧ Reach (Master.step 1) (Within 1) start done ∧
      m.Accounts ∧ (done.vbProcesses 1).pid = 103 ∧
      (done.vbProcesses 1).exited = false ∧ 103 ∈ done.children := by
  have ran : (runGuarded (Master.step 1) FreshPid Master.init workerExits).map
      (fun m => (m.children, decide (m.pc = .sleeping true ∧ 1 < m.vbLastProcess ∧
        (m.vbProcesses 1).exited = true ∧ (m.vbProcesses 1).respawn = true ∧
        (m.vbProcesses 1).exiting = false))) = some ([101], true) := by decide
  have ran' : ((runGuarded (Master.step 1) FreshPid Master.init workerExits).bind fun m =>
      (runGuarded (Master.step 1) Before m reapChildren).bind fun start =>
        (runGuarded (Master.step 1) (Within 1) start workerRespawned).map fun done =>
          (start.pc, done.pc, (done.vbProcesses 1).pid)) =
      some (.reaping 0 false, .testExit, 103) := by decide
  obtain ⟨m, same, state⟩ := Option.map_eq_some_iff.mp ran
  obtain ⟨children, awaiting⟩ := Prod.mk.inj state
  obtain ⟨_, inside, exited, respawn, exiting⟩ := of_decide_eq_true awaiting
  rw [same, Option.bind_some] at ran'
  obtain ⟨start, same', ran'⟩ := Option.bind_eq_some_iff.mp ran'
  obtain ⟨done, same'', state'⟩ := Option.map_eq_some_iff.mp ran'
  simp only [Prod.mk.injEq] at state'
  obtain ⟨pc, pc', pid⟩ := state'
  have reach := reach_of_runGuarded same
  have before := reach_of_runGuarded same'
  have within := reach_of_runGuarded same''
  obtain ⟨accounts, _, _, refilled⟩ := master_accounts reach
  have filled :=
    refilled 1 start done false ⟨inside, exited, respawn, exiting⟩ before pc within pc'
  exact ⟨m, start, done, reach, children, before, within, accounts, pid, filled.1,
    pid ▸ filled.2⟩

end Verben
