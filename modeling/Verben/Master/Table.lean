import Mathlib.Data.List.Nodup
import Verben.Master.Step

/-!
# The process table

Every child that was forked and not collected has a slot of its own that is not marked
`exited`, and every other slot in use is marked (`Slots`). The table is only changed where
`SIGCHLD` is blocked, or by its handler, so this holds between all steps. From it,
`reap_children` knows from the marks whether a child is left (`LiveSays`).
-/

namespace Verben

open Transition

/-- The table and the children agree. -/
structure Master.Slots (m : Master) : Prop where
  bound : m.vbLastProcess ≤ vbMaxProcesses
  used : ∀ {i}, i < m.vbLastProcess → (m.vbProcesses i).pid ≠ -1
  apart : ∀ {i j}, i < m.vbLastProcess → j < m.vbLastProcess →
    (m.vbProcesses i).pid = (m.vbProcesses j).pid → i = j
  nodup : m.children.Nodup
  recorded : ∀ {pid}, pid ∈ m.children →
    ∃ i < m.vbLastProcess, (m.vbProcesses i).pid = pid ∧ (m.vbProcesses i).exited = false
  alive : ∀ {i}, i < m.vbLastProcess → (m.vbProcesses i).exited = false →
    (m.vbProcesses i).pid ∈ m.children

/-- The slots before `i` were looked at. -/
structure Master.Scanned (m : Master) (i : Nat) (live : Bool) : Prop where
  bound : i ≤ m.vbLastProcess
  dead : live = false → ∀ j < i, (m.vbProcesses j).exited = true
  left : live = true → m.children ≠ []

/-- What `live` tells of the children: the local one in `reap_children`. -/
def Master.LiveSays (m : Master) : Prop :=
  match m.pc with
  | .entry => m.live = true
  | .creating _ => m.live = true
  | .reaping i live => m.Scanned i live
  | .respawning i live =>
      m.Scanned i live ∧ i < m.vbLastProcess ∧ (m.vbProcesses i).exited = true
  | .exited => m.children = []
  | _ => m.live = false → m.children = []

/-- A new child gets a pid that no slot has. -/
def FreshPid (m : Master) : MasterAct → Prop
  | .run (some pid) _ => 0 < pid ∧ ∀ i < m.vbLastProcess, (m.vbProcesses i).pid ≠ pid
  | _ => True

instance (m : Master) : (act : MasterAct) → Decidable (FreshPid m act)
  | .run (some pid) _ =>
      inferInstanceAs (Decidable (0 < pid ∧ ∀ i < m.vbLastProcess, (m.vbProcesses i).pid ≠ pid))
  | .run none _ => inferInstanceAs (Decidable True)
  | .send _ => inferInstanceAs (Decidable True)
  | .deliver _ _ => inferInstanceAs (Decidable True)
  | .exit _ => inferInstanceAs (Decidable True)

section Table

variable {m m' : Master}

/-! ## Searching the table -/

theorem find_range_some {n i : Nat} {test : Nat → Bool}
    (found : (List.range n).find? test = some i) : i < n ∧ test i = true :=
  ⟨List.mem_range.mp (List.mem_of_find?_eq_some found), List.find?_some found⟩

/-- With one slot for each pid, the search marks the slot of the pid, if it has one. -/
theorem vbProcesses_markExited
    (apart : ∀ {i j}, i < m.vbLastProcess → j < m.vbLastProcess →
      (m.vbProcesses i).pid = (m.vbProcesses j).pid → i = j) (pid : Int) (j : Nat) :
    (m.markExited pid).vbProcesses j =
      if j < m.vbLastProcess ∧ (m.vbProcesses j).pid = pid then
        { m.vbProcesses j with exited := true }
      else m.vbProcesses j := by
  unfold Master.markExited
  split
  · next none =>
      have missing := List.find?_eq_none.mp none
      rw [if_neg]
      rintro ⟨inside, same⟩
      exact missing j (List.mem_range.mpr inside) (decide_eq_true same)
  · next i found =>
      obtain ⟨inside, test⟩ := find_range_some found
      have same : (m.vbProcesses i).pid = pid := of_decide_eq_true test
      by_cases here : j = i
      · subst here
        rw [if_pos ⟨inside, same⟩]
        exact Function.update_self ..
      · rw [if_neg]
        · exact Function.update_of_ne here ..
        · rintro ⟨inside', same'⟩
          exact here (apart inside' inside (same'.trans same.symm))

theorem markExited_frame (m : Master) (pid : Int) :
    (m.markExited pid).vbLastProcess = m.vbLastProcess ∧
      (m.markExited pid).running = m.running ∧
      ∀ j, ((m.markExited pid).vbProcesses j).pid = (m.vbProcesses j).pid := by
  unfold Master.markExited
  split
  · exact ⟨rfl, rfl, fun _ => rfl⟩
  · next i _ =>
      refine ⟨rfl, rfl, fun j => ?_⟩
      by_cases here : j = i
      · subst here
        simp
      · simp [Function.update_of_ne here]

/-- All collected pids are marked. -/
theorem vbProcesses_markAll (pids : List Int) (m : Master)
    (apart : ∀ {i j}, i < m.vbLastProcess → j < m.vbLastProcess →
      (m.vbProcesses i).pid = (m.vbProcesses j).pid → i = j) :
    (pids.foldl Master.markExited m).vbLastProcess = m.vbLastProcess ∧
      (pids.foldl Master.markExited m).running = m.running ∧
      ∀ j, (pids.foldl Master.markExited m).vbProcesses j =
        if j < m.vbLastProcess ∧ (m.vbProcesses j).pid ∈ pids then
          { m.vbProcesses j with exited := true }
        else m.vbProcesses j := by
  induction pids generalizing m with
  | nil => exact ⟨rfl, rfl, fun j => by simp⟩
  | cons pid pids ih =>
      obtain ⟨last, running, pids'⟩ := markExited_frame m pid
      obtain ⟨last', running', all⟩ := ih (m.markExited pid) (by
        intro i j iIn jIn same
        rw [last] at iIn jIn
        rw [pids', pids'] at same
        exact apart iIn jIn same)
      refine ⟨last'.trans last, running'.trans running, fun j => ?_⟩
      rw [List.foldl_cons, all j, last, pids', vbProcesses_markExited apart]
      by_cases inside : j < m.vbLastProcess
      · by_cases here : (m.vbProcesses j).pid = pid
        · simp [inside, here]
        · simp [inside, here]
      · simp [inside]

/-! ## The table under each operation -/

/-- The children may be permuted. -/
theorem Master.Slots.congr (slots : m.Slots) (table : m'.vbProcesses = m.vbProcesses)
    (last : m'.vbLastProcess = m.vbLastProcess) (perm : m'.children.Perm m.children) :
    m'.Slots := by
  constructor
  case bound =>
    rw [last]
    exact slots.bound
  case used =>
    rw [last, table]
    exact slots.used
  case apart =>
    rw [last, table]
    exact slots.apart
  case nodup => exact perm.nodup_iff.mpr slots.nodup
  case recorded =>
    intro pid mem
    rw [last, table]
    exact slots.recorded (perm.mem_iff.mp mem)
  case alive =>
    intro i inside
    rw [last] at inside
    rw [table]
    intro running
    exact perm.mem_iff.mpr (slots.alive inside running)

theorem exitChild_children (m : Master) (pid : Int) :
    (m.exitChild pid).vbProcesses = m.vbProcesses ∧
      (m.exitChild pid).vbLastProcess = m.vbLastProcess ∧
      (m.exitChild pid).children.Perm m.children := by
  unfold Master.exitChild
  split
  · next mem =>
      refine ⟨rfl, rfl, ?_⟩
      exact List.perm_middle.trans ((List.perm_cons_erase mem).symm.append_right m.zombies)
  · exact ⟨rfl, rfl, .refl _⟩

theorem exitChildren_children (pids : List Int) (m : Master) :
    (pids.foldl Master.exitChild m).vbProcesses = m.vbProcesses ∧
      (pids.foldl Master.exitChild m).vbLastProcess = m.vbLastProcess ∧
      (pids.foldl Master.exitChild m).children.Perm m.children := by
  induction pids generalizing m with
  | nil => exact ⟨rfl, rfl, .refl _⟩
  | cons pid pids ih =>
      obtain ⟨table, last, perm⟩ := exitChild_children m pid
      obtain ⟨table', last', perm'⟩ := ih (m.exitChild pid)
      exact ⟨table'.trans table, last'.trans last, perm'.trans perm⟩

/-- Collecting marks the children that it removes. -/
theorem Master.Slots.processGetStatus (slots : m.Slots) :
    m.processGetStatus.Slots ∧ m.processGetStatus.children = m.running := by
  obtain ⟨last, running, table⟩ := vbProcesses_markAll m.zombies m slots.apart
  have children : m.processGetStatus.children = m.running := by
    have left : m.processGetStatus.children =
        (m.zombies.foldl Master.markExited m).running ++ [] := rfl
    rw [left, running, List.append_nil]
  have last' : m.processGetStatus.vbLastProcess = m.vbLastProcess := last
  have table' : ∀ j, m.processGetStatus.vbProcesses j =
      if j < m.vbLastProcess ∧ (m.vbProcesses j).pid ∈ m.zombies then
        { m.vbProcesses j with exited := true }
      else m.vbProcesses j := table
  have pids : ∀ j, (m.processGetStatus.vbProcesses j).pid = (m.vbProcesses j).pid := by
    intro j
    rw [table' j]
    split <;> rfl
  have separate := List.disjoint_of_nodup_append slots.nodup
  refine ⟨?_, children⟩
  constructor
  case bound =>
    rw [last']
    exact slots.bound
  case used =>
    intro i inside
    rw [pids]
    exact slots.used (last' ▸ inside)
  case apart =>
    intro i j iIn jIn same
    rw [pids, pids] at same
    exact slots.apart (last' ▸ iIn) (last' ▸ jIn) same
  case nodup =>
    rw [children]
    exact (List.nodup_append.mp slots.nodup).1
  case recorded =>
    intro pid mem
    rw [children] at mem
    obtain ⟨i, inside, same, running⟩ := slots.recorded (List.mem_append_left _ mem)
    refine ⟨i, last' ▸ inside, (pids i).trans same, ?_⟩
    rw [table' i, if_neg]
    · exact running
    · rintro ⟨_, collected⟩
      exact separate mem (same ▸ collected)
  case alive =>
    intro i inside unmarked
    rw [last'] at inside
    rw [pids, children]
    rw [table' i] at unmarked
    split at unmarked
    · cases unmarked
    · next notCollected =>
        rcases List.mem_append.mp (slots.alive inside unmarked) with mem | mem
        · exact mem
        · exact absurd ⟨inside, mem⟩ notCollected

/-- A slot for a new child: one behind the last, or that of a child that was collected. -/
theorem Master.Slots.record (slots : m.Slots) {s n : Nat} {pid : Int} {process : VbProcess}
    (fresh : 0 < pid ∧ ∀ i < m.vbLastProcess, (m.vbProcesses i).pid ≠ pid)
    (last : n = m.vbLastProcess ∧ s < m.vbLastProcess ∧ (m.vbProcesses s).exited = true ∨
      n = m.vbLastProcess + 1 ∧ s = m.vbLastProcess ∧ s < vbMaxProcesses)
    (same : process.pid = pid) (running : process.exited = false)
    (table : m'.vbProcesses = Function.update m.vbProcesses s process)
    (last' : m'.vbLastProcess = n) (children : m'.children = pid :: m.children) : m'.Slots := by
  have here : m'.vbProcesses s = process := by
    rw [table]
    exact Function.update_self ..
  -- any other slot is an old one
  have slot : ∀ {i}, i < m'.vbLastProcess →
      i = s ∨ i ≠ s ∧ i < m.vbLastProcess ∧ m'.vbProcesses i = m.vbProcesses i := by
    intro i iIn
    rcases eq_or_ne i s with eq | ne
    · exact Or.inl eq
    · refine Or.inr ⟨ne, by omega, ?_⟩
      rw [table]
      exact Function.update_of_ne ne ..
  have missing : pid ∉ m.children := by
    intro mem
    obtain ⟨i, iIn, recorded, _⟩ := slots.recorded mem
    exact fresh.2 i iIn recorded
  constructor
  case bound =>
    have := slots.bound
    omega
  case used =>
    intro i iIn
    rcases slot iIn with rfl | ⟨_, old, kept⟩
    · rw [here, same]
      have := fresh.1
      omega
    · rw [kept]
      exact slots.used old
  case apart =>
    intro i j iIn jIn pids
    rcases slot iIn with rfl | ⟨_, iOld, iKept⟩
    · rcases slot jIn with rfl | ⟨_, jOld, jKept⟩
      · rfl
      · rw [here, same, jKept] at pids
        exact absurd pids.symm (fresh.2 j jOld)
    · rcases slot jIn with rfl | ⟨_, jOld, jKept⟩
      · rw [here, same, iKept] at pids
        exact absurd pids (fresh.2 i iOld)
      · rw [iKept, jKept] at pids
        exact slots.apart iOld jOld pids
  case nodup =>
    rw [children]
    exact List.nodup_cons.mpr ⟨missing, slots.nodup⟩
  case recorded =>
    intro other mem
    rw [children] at mem
    rcases List.mem_cons.mp mem with rfl | mem
    · exact ⟨s, by omega, by rw [here, same], by rw [here, running]⟩
    · obtain ⟨i, iIn, recorded, unmarked⟩ := slots.recorded mem
      have iIn' : i < m'.vbLastProcess := by omega
      rcases slot iIn' with rfl | ⟨_, _, kept⟩
      · -- the slot was not behind the last, and its child was not running
        rcases last with ⟨_, _, marked⟩ | ⟨_, behind, _⟩
        · rw [marked] at unmarked
          cases unmarked
        · omega
      · exact ⟨i, iIn', by rw [kept, recorded], by rw [kept, unmarked]⟩
  case alive =>
    intro i iIn unmarked
    rw [children]
    rcases slot iIn with rfl | ⟨_, old, kept⟩
    · rw [here, same]
      exact List.mem_cons_self
    · rw [kept] at unmarked ⊢
      exact List.mem_cons_of_mem _ (slots.alive old unmarked)

/-- No slot before the last is free, so a new child goes behind it. -/
theorem Master.Slots.freeSlot (slots : m.Slots) : m.freeSlot = m.vbLastProcess := by
  unfold Master.freeSlot
  cases found : (List.range m.vbLastProcess).find? fun s => (m.vbProcesses s).pid = -1 with
  | none => rfl
  | some i =>
      obtain ⟨inside, free⟩ := find_range_some found
      exact absurd (of_decide_eq_true free) (slots.used inside)

/-- The first processes are created in new slots. -/
theorem Master.Slots.create (slots : m.Slots) {proc : ChildProc} {name : String}
    {fork : Option Int} (fresh : ∀ pid, fork = some pid →
      0 < pid ∧ ∀ i < m.vbLastProcess, (m.vbProcesses i).pid ≠ pid) :
    (m.spawnProcess proc name .respawn fork).2.Slots := by
  have bound := slots.bound
  simp only [Master.spawnProcess, Master.spawnSlot, slots.freeSlot]
  by_cases full : m.vbLastProcess = vbMaxProcesses
  · rw [if_pos full]
    exact slots
  · rw [if_neg full]
    cases fork with
    | none => exact slots
    | some pid =>
        exact slots.record (fresh pid rfl) (Or.inr ⟨rfl, rfl, by omega⟩) rfl rfl rfl
          (by simp [Master.lastAfter]) rfl

/-- A handler changes the table only by collecting. -/
theorem Master.Slots.handle (slots : m.Slots) (signo : Signo) (late : List Int) :
    (m.handle signo late).Slots ∧ (m.handle signo late).children ⊆ m.children := by
  have taken : (m.take signo).Slots := slots.congr rfl rfl (.refl _)
  unfold Master.handle
  split
  · obtain ⟨table, last, perm⟩ := exitChildren_children late (m.take signo)
    obtain ⟨collected, children⟩ := (taken.congr table last perm).processGetStatus
    refine ⟨collected, ?_⟩
    rw [children]
    exact List.Subset.trans (List.subset_append_left ..) perm.subset
  · exact ⟨taken, List.Subset.refl _⟩

/-! ## What `live` tells -/

theorem Master.Scanned.congr {i : Nat} {live : Bool} (scanned : m.Scanned i live)
    (table : m'.vbProcesses = m.vbProcesses) (last : m'.vbLastProcess = m.vbLastProcess)
    (perm : m'.children.Perm m.children) : m'.Scanned i live := by
  rcases scanned with ⟨bound, dead, left⟩
  refine ⟨last ▸ bound, ?_, ?_⟩
  · rw [table]
    exact dead
  · intro set none
    rw [none] at perm
    exact left set perm.symm.eq_nil

theorem Master.LiveSays.congr (told : m.LiveSays) (pc : m'.pc = m.pc) (live : m'.live = m.live)
    (table : m'.vbProcesses = m.vbProcesses) (last : m'.vbLastProcess = m.vbLastProcess)
    (perm : m'.children.Perm m.children) : m'.LiveSays := by
  have nil : m.children = [] → m'.children = [] := by
    intro none
    rw [none] at perm
    exact perm.eq_nil
  unfold Master.LiveSays at told ⊢
  rw [pc, live]
  cases here : m.pc with
  | entry => simpa only [here] using told
  | creating todo => simpa only [here] using told
  | reaping i live =>
      simp only [here] at told
      exact told.congr table last perm
  | respawning i live =>
      simp only [here] at told
      rw [last, table]
      exact ⟨told.1.congr table last perm, told.2⟩
  | exited =>
      simp only [here] at told
      exact nil told
  | _ =>
      simp only [here] at told
      exact fun clear => nil (told clear)

/-- Without a running slot no child is left. -/
theorem Master.Slots.none_left (slots : m.Slots)
    (dead : ∀ j < m.vbLastProcess, (m.vbProcesses j).exited = true) : m.children = [] := by
  apply List.eq_nil_iff_forall_not_mem.mpr
  intro pid mem
  obtain ⟨i, inside, _, running⟩ := slots.recorded mem
  rw [dead i inside] at running
  cases running

end Table

section Loop

variable {workerNum : Int} {m m' : Master}

/-! ## The steps -/

/-- The steps of the master keep the table. -/
theorem Master.Slots.runs {fork : Option Int} (slots : m.Slots) (told : m.LiveSays)
    (fresh : ∀ pid, fork = some pid →
      0 < pid ∧ ∀ i < m.vbLastProcess, (m.vbProcesses i).pid ≠ pid)
    (runs : Runs workerNum fork m m') : m'.Slots ∧ m'.LiveSays := by
  unfold Master.LiveSays at told
  have frame : ∀ {m'' : Master}, m''.vbProcesses = m.vbProcesses →
      m''.vbLastProcess = m.vbLastProcess → m''.children = m.children → m''.Slots := by
    intro m'' table last children
    exact slots.congr table last (.of_eq children)
  cases runs with
  | start pc =>
      rw [pc] at told
      exact ⟨frame rfl rfl rfl, told⟩
  | startFailed pc =>
      rw [pc] at told
      refine ⟨frame rfl rfl rfl, fun clear => ?_⟩
      exact absurd (told.symm.trans clear) nofun
  | @create child todo pc =>
      rw [pc] at told
      have same := sameControl_spawnProcess m child.1 child.2 .respawn fork
      exact ⟨(slots.create fresh).congr rfl rfl (.refl _), same.live.trans told⟩
  | created pc =>
      rw [pc] at told
      refine ⟨frame rfl rfl rfl, fun clear => ?_⟩
      exact absurd (told.symm.trans clear) nofun
  | suspend pc =>
      rw [pc] at told
      exact ⟨frame rfl rfl rfl, told⟩
  | wake pc =>
      rw [pc] at told
      exact ⟨frame rfl rfl rfl, told⟩
  | reap pc set => exact ⟨frame rfl rfl rfl, Nat.zero_le _, fun _ _ => nofun, nofun⟩
  | noReap pc =>
      rw [pc] at told
      exact ⟨frame rfl rfl rfl, told⟩
  | @skip i live pc inside skipped =>
      rw [pc] at told
      rcases told with ⟨bound, dead, left⟩
      refine ⟨frame rfl rfl rfl, inside, fun clear j below => ?_, left⟩
      rcases Nat.lt_succ_iff_lt_or_eq.mp below with before | rfl
      · exact dead clear j before
      · rcases skipped with free | ⟨exited, _⟩
        · exact absurd free (slots.used inside)
        · exact exited
  | @alive i live pc inside used running =>
      refine ⟨frame rfl rfl rfl, inside, nofun, fun _ none => ?_⟩
      have mem : (m.vbProcesses i).pid ∈ m.children := slots.alive inside running
      rw [show m.children = [] from none] at mem
      cases mem
  | @respawn i live pc inside exited =>
      rw [pc] at told
      exact ⟨frame rfl rfl rfl, told.congr rfl rfl (.refl _), inside, exited⟩
  | @reaped i live pc behind =>
      rw [pc] at told
      refine ⟨frame rfl rfl rfl, fun clear => ?_⟩
      exact slots.none_left fun j inside => told.dead clear j (by omega)
  | @refused i live pc answer =>
      rw [pc] at told
      rcases told with ⟨⟨bound, dead, left⟩, inside, exited⟩
      refine ⟨frame rfl rfl rfl, inside, fun clear j below => ?_, left⟩
      rcases Nat.lt_succ_iff_lt_or_eq.mp below with before | rfl
      · exact dead clear j before
      · exact exited
  | @respawned i live pid pc answer =>
      rw [pc] at told
      rcases told with ⟨_, inside, exited⟩
      refine ⟨?_, inside, nofun, nofun⟩
      exact slots.record (fresh pid answer) (Or.inl ⟨rfl, inside, exited⟩) rfl rfl rfl rfl rfl
  | exit pc clear quit =>
      rw [pc] at told
      exact ⟨frame rfl rfl rfl, told clear⟩
  | stay pc =>
      rw [pc] at told
      exact ⟨frame rfl rfl rfl, told⟩
  | quit pc =>
      rw [pc] at told
      exact ⟨frame rfl rfl rfl, told⟩
  | again pc clear =>
      rw [pc] at told
      exact ⟨frame rfl rfl rfl, told⟩
  | kill pc =>
      rw [pc] at told
      exact ⟨frame rfl rfl rfl, told⟩
  | killFailed pc =>
      rw [pc] at told
      exact ⟨frame rfl rfl rfl, told⟩

/-- A signal wakes the master, and tells nothing else. -/
theorem Master.LiveSays.take (told : m.LiveSays) (signo : Signo) : (m.take signo).LiveSays := by
  by_cases asleep : ∃ woken, m.pc = .sleeping woken
  · rcases asleep with ⟨woken, here⟩
    unfold Master.LiveSays at told ⊢
    have pc : (m.take signo).pc = .sleeping true := congrArg MasterPc.wake here
    rw [here] at told
    rw [pc]
    exact told
  · have pc : (m.take signo).pc = m.pc := by
      unfold Master.take MasterPc.wake
      split
      · next woken here => exact absurd ⟨woken, here⟩ asleep
      · rfl
    exact told.congr pc rfl rfl rfl (.refl _)

/-- `SIGCHLD` finds no scan half done: it is blocked there. -/
theorem Master.LiveSays.collect (told : m.LiveSays) (slots : m.Slots) (late : List Int)
    (taken : m.pc.blocks .sigchld = false) : (m.handle .sigchld late).LiveSays := by
  obtain ⟨_, fewer⟩ := slots.handle .sigchld late
  have same := sameControl_handle m .sigchld late
  have live : (m.handle .sigchld late).live = m.live := same.live
  have pc : (m.handle .sigchld late).pc = m.pc.wake := same.pc
  unfold Master.LiveSays at told ⊢
  rw [pc, live]
  cases here : m.pc with
  | entry =>
      rw [here] at told
      exact told
  | sleeping woken =>
      rw [here] at told
      intro clear
      exact List.subset_nil.mp (told clear ▸ fewer)
  | _ =>
      rw [here] at taken
      cases taken

/-- Everything that may happen between the steps keeps the table too. -/
theorem Master.Slots.step {act : MasterAct} (slots : m.Slots) (told : m.LiveSays)
    (fresh : FreshPid m act) (stepped : m.step workerNum act = some m') :
    m'.Slots ∧ m'.LiveSays := by
  cases act with
  | send signo =>
      cases stepped
      exact ⟨slots.congr rfl rfl (.refl _), told.congr rfl rfl rfl rfl (.refl _)⟩
  | deliver signo late =>
      simp only [Master.step] at stepped
      split at stepped
      · next open' =>
          cases stepped
          refine ⟨(slots.handle signo late).1, ?_⟩
          by_cases chld : signo = .sigchld
          · subst chld
            exact told.collect slots late open'.2
          · rw [Master.handle, if_neg chld]
            exact told.take signo
      · cases stepped
  | exit pid =>
      cases stepped
      obtain ⟨table, last, perm⟩ := exitChild_children m pid
      have same := sameControl_exitChild m pid
      exact ⟨slots.congr table last perm, told.congr same.pc same.live table last perm⟩
  | run fork ok =>
      refine slots.runs told ?_ (runs_of_run stepped)
      rintro pid rfl
      exact fresh

end Loop

end Verben
