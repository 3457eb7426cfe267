import Mathlib.Algebra.Order.BigOperators.Group.Finset
import Mathlib.Data.Fintype.BigOperators
import Verben.Shmq.Locked

/-!
# The lock of the queue

Of the workers at most one is behind `OPT_LOCK`, and the semaphore is down just as long as one is
there, also if workers are killed (`shmq_lock_exclusive`). When all workers have been told to
stop, each of their calls ends after at most one lock and one pass, and none takes or leaves a
message (`shmq_stop_ends_waits`).
-/

namespace Verben

open Transition

variable {W : Type} [DecidableEq W] {s s' : ShmqUsers W} {holder : Option W}

/-- The semaphore is held by one worker or by none. -/
structure ShmqUsers.Held (s : ShmqUsers W) (holder : Option W) : Prop where
  inside : ∀ w, (s.at' w).isInside = true ↔ holder = some w
  semval : s.sem.semval = if holder = none then 1 else 0
  undo : ∀ w, s.sem.undo w = if holder = some w then 1 else 0

omit [DecidableEq W] in
theorem isInside_of_eq {w : W} {x : ShmqAt} (here : s.at' w = x) :
    (s.at' w).isInside = x.isInside := by rw [here]

theorem ShmqUsers.held_init (sz : Int) : (ShmqUsers.init sz : ShmqUsers W).Held none where
  inside := fun _ => ⟨nofun, nofun⟩
  semval := rfl
  undo := fun _ => rfl

/-- A worker that is not behind the lock goes on where it does not hold it either. -/
theorem ShmqUsers.Held.move (held : s.Held holder) {w : W} {x : ShmqAt}
    (before : (s.at' w).isInside = false) (behind : x.isInside = false) :
    ShmqUsers.Held { s with at' := Function.update s.at' w x } holder where
  inside := by
    intro other
    change (Function.update s.at' w x other).isInside = true ↔ _
    by_cases same : other = w
    · subst same
      rw [Function.update_self, behind, ← held.inside, before]
    · rw [Function.update_of_ne same]
      exact held.inside other
  semval := held.semval
  undo := held.undo

theorem ShmqUsers.Held.lock (held : s.Held holder) {w : W} {x : ShmqAt} {sem : SysvSem W}
    (locked : s.sem.lock w = some sem) (behind : x.isInside = true) :
    ShmqUsers.Held { s with sem := sem, at' := Function.update s.at' w x } (some w) := by
  unfold SysvSem.lock at locked
  split at locked
  · next free =>
      cases locked
      have none : holder = none := by
        by_contra some
        rw [held.semval, if_neg some] at free
        exact Int.lt_irrefl _ free
      subst none
      constructor
      case inside =>
        intro other
        change (Function.update s.at' w x other).isInside = true ↔ _
        by_cases same : other = w
        · subst same
          rw [Function.update_self, behind]
          exact iff_of_true rfl rfl
        · rw [Function.update_of_ne same, held.inside]
          exact iff_of_false nofun fun eq => same (Option.some.inj eq).symm
      case semval =>
        change s.sem.semval - 1 = _
        rw [held.semval, if_pos rfl, if_neg nofun]
        rfl
      case undo =>
        intro other
        by_cases same : other = w
        · subst same
          change Function.update s.sem.undo other _ other = _
          rw [Function.update_self, held.undo, if_neg nofun, if_pos rfl]
          rfl
        · change Function.update s.sem.undo w _ other = _
          rw [Function.update_of_ne same, held.undo, if_neg nofun,
            if_neg fun eq => same (Option.some.inj eq).symm]
  · cases locked

/-- The worker behind the lock gives it back. -/
theorem ShmqUsers.Held.release {w : W} (held : s.Held (some w)) {sem : SysvSem W} {x : ShmqAt}
    (semval : sem.semval = s.sem.semval + 1) (undo : sem.undo = Function.update s.sem.undo w 0)
    (behind : x.isInside = false) :
    ShmqUsers.Held { s with sem := sem, at' := Function.update s.at' w x } none where
  inside := by
    intro other
    change (Function.update s.at' w x other).isInside = true ↔ _
    by_cases same : other = w
    · subst same
      rw [Function.update_self, behind]
      exact iff_of_false nofun nofun
    · rw [Function.update_of_ne same, held.inside]
      exact iff_of_false (fun eq => same (Option.some.inj eq).symm) nofun
  semval := by
    rw [if_pos rfl, semval, held.semval, if_neg nofun]
    rfl
  undo := by
    intro other
    rw [if_neg nofun]
    change sem.undo other = 0
    by_cases same : other = w
    · rw [same, undo, Function.update_self]
    · rw [undo, Function.update_of_ne same, held.undo,
        if_neg fun eq => same (Option.some.inj eq).symm]

theorem ShmqUsers.Held.pass {w : W} (held : s.Held (some w)) {op : QueueOp} {mallocOk : Bool}
    (passed : s.pass w op mallocOk = some s') : s'.Held (some w) ∨ s'.Held none := by
  obtain ⟨⟨fifo, returns⟩, -, rfl⟩ := Option.map_eq_some_iff.mp passed
  simp only
  split
  · refine .inr (ShmqUsers.Held.release (s := { s with fifo := fifo }) ⟨held.inside, held.semval,
      held.undo⟩ rfl ?_ rfl)
    change Function.update s.sem.undo w (s.sem.undo w - 1) = _
    rw [held.undo, if_pos rfl]
    rfl
  · exact .inl ⟨held.inside, held.semval, held.undo⟩

theorem ShmqUsers.Held.exit (held : s.Held holder) (w : W) :
    ∃ holder', ShmqUsers.Held
      { s with sem := s.sem.exit w, at' := Function.update s.at' w .outside } holder' := by
  by_cases here : holder = some w
  · subst here
    refine ⟨none, held.release ?_ rfl rfl⟩
    change s.sem.semval + s.sem.undo w = _
    rw [held.undo, if_pos rfl]
  · refine ⟨holder, ?_⟩
    have out : (s.at' w).isInside = false := by
      rw [← Bool.not_eq_true, held.inside]
      exact here
    have same : s.sem.exit w = s.sem := by
      have zero : s.sem.undo w = 0 := by rw [held.undo, if_neg here]
      have kept : Function.update s.sem.undo w 0 = s.sem.undo := by
        rw [← zero, Function.update_eq_self]
      unfold SysvSem.exit
      rw [kept, zero, Int.add_zero]
    rw [same]
    exact held.move out rfl

theorem ShmqUsers.Held.step (held : s.Held holder) {act : ShmqAct W}
    (stepped : s.step act = some s') : ∃ holder', s'.Held holder' := by
  unfold ShmqUsers.step at stepped
  cases act with
  | plain op =>
      obtain ⟨fifo, -, rfl⟩ := Option.map_eq_some_iff.mp stepped
      exact ⟨holder, held.inside, held.semval, held.undo⟩
  | call w op =>
      simp only at stepped
      split at stepped
      · next here =>
          cases stepped
          exact ⟨holder, held.move (isInside_of_eq here) rfl⟩
      · cases stepped
  | acquire w =>
      simp only at stepped
      split at stepped
      · obtain ⟨sem, locked, rfl⟩ := Option.map_eq_some_iff.mp stepped
        exact ⟨some w, held.lock locked rfl⟩
      · cases stepped
  | interrupted w =>
      simp only at stepped
      split at stepped
      · next op here =>
          cases stepped
          exact ⟨holder, held.move (isInside_of_eq here) rfl⟩
      · cases stepped
  | pass w mallocOk =>
      simp only at stepped
      split at stepped
      · next op here =>
          have mine := (held.inside w).mp (isInside_of_eq here)
          subst mine
          rcases held.pass stepped with kept | free
          · exact ⟨_, kept⟩
          · exact ⟨_, free⟩
      · cases stepped
  | signal w =>
      cases stepped
      exact ⟨holder, held.inside, held.semval, held.undo⟩
  | die w =>
      cases stepped
      exact held.exit w
  | spawn w =>
      simp only at stepped
      split at stepped
      · cases stepped
        exact ⟨holder, held.inside, held.semval, held.undo⟩
      · cases stepped

theorem ShmqUsers.held_of_run {sz : Int} {acts : List (ShmqAct W)}
    (ran : run ShmqUsers.step (.init sz) acts = some s) : ∃ holder, s.Held holder := by
  apply (reach_of_run ran).invariant (P := fun s => ∃ holder, s.Held holder)
    ⟨none, ShmqUsers.held_init sz⟩
  intro s act s' held _ stepped
  obtain ⟨holder, held⟩ := held
  exact held.step stepped

/-- In every run of calls, interrupts, signals and deaths, at most one worker is behind the lock,
and the semaphore is 0 if one is and 1 if none is. -/
theorem shmq_lock_exclusive {sz : Int} {acts : List (ShmqAct W)}
    (ran : run ShmqUsers.step (.init sz) acts = some s) :
    (∀ w w', (s.at' w).isInside = true → (s.at' w').isInside = true → w = w') ∧
      ((s.sem.semval = 0 ∧ ∃ w, (s.at' w).isInside = true) ∨
        (s.sem.semval = 1 ∧ ∀ w, (s.at' w).isInside = false)) := by
  obtain ⟨holder, held⟩ := ShmqUsers.held_of_run ran
  constructor
  · intro w w' here here'
    have mine := (held.inside w).mp here
    exact Option.some.inj (mine.symm.trans ((held.inside w').mp here'))
  · cases holder with
    | none =>
        refine .inr ⟨held.semval, fun w => ?_⟩
        rw [← Bool.not_eq_true, held.inside]
        nofun
    | some w => exact .inl ⟨held.semval, w, (held.inside w).mpr rfl⟩

/-! ## The end of all waits -/

/-- How many steps a stopped worker has still to take in its call. -/
def ShmqAt.steps : ShmqAt → Nat
  | .outside => 0
  | .asking _ => 2
  | .inside _ => 1

theorem ShmqAt.steps_le (x : ShmqAt) : x.steps ≤ 2 := by
  cases x with
  | outside => exact Nat.zero_le 2
  | asking op => exact Nat.le_refl 2
  | inside op => exact Nat.le_succ 1

/-- The worker that takes a step in its call. -/
def ShmqAct.mover : ShmqAct W → Option W
  | .acquire w | .interrupted w | .pass w _ => some w
  | _ => none

/-- No worker calls again, and none is spawned. -/
def ShmqAct.Quiet : ShmqAct W → Prop
  | .call _ _ | .spawn _ => False
  | _ => True

/-- A pass of a worker that is told to stop changes nothing and returns. -/
theorem opPass_of_stop (fifo : FifoRun) (op : QueueOp) (wait mallocOk : Bool) :
    opPass fifo op ⟨wait, true, mallocOk⟩ = some (fifo, true) := by
  cases op with
  | push data => rfl
  | pop => rfl

theorem ShmqUsers.step_pass_of_stop {w : W} {op : QueueOp} (here : s.at' w = .inside op)
    (stop : s.stop w = true) (mallocOk : Bool) :
    s.step (.pass w mallocOk) =
      some { s with sem := s.sem.unlock w, at' := Function.update s.at' w .outside } := by
  simp only [ShmqUsers.step, here, ShmqUsers.pass, stop, opPass_of_stop, Option.map_some, if_true]

theorem ShmqUsers.step_acquire {w : W} {op : QueueOp} (here : s.at' w = .asking op)
    (free : 0 < s.sem.semval) :
    s.step (.acquire w) =
      some { s with
        sem := ⟨s.sem.semval - 1, Function.update s.sem.undo w (s.sem.undo w + 1)⟩
        at' := Function.update s.at' w (.inside op) } := by
  simp only [ShmqUsers.step, here, SysvSem.lock, if_pos free, Option.map_some]

section Steps

variable [Fintype W]

/-- How many steps stopped workers have still to take. -/
def ShmqUsers.steps (s : ShmqUsers W) : Nat := ∑ w, (s.at' w).steps

omit [Fintype W] in
/-- A step leaves the worker one step less to take, and the others as many as they had. -/
theorem ShmqUsers.steps_update {w : W} {x : ShmqAt} (less : x.steps + 1 ≤ (s.at' w).steps)
    (other : W) :
    (Function.update s.at' w x other).steps + (if some w = some other then 1 else 0) ≤
      (s.at' other).steps := by
  by_cases same : other = w
  · subst same
    rw [Function.update_self, if_pos rfl]
    exact less
  · rw [Function.update_of_ne same, if_neg fun eq => same (Option.some.inj eq).symm]
    exact Nat.le_refl _

/-- All workers are told to stop. -/
structure ShmqUsers.Stopped (s : ShmqUsers W) : Prop where
  held : ∃ holder, s.Held holder
  stop : ∀ w, s.stop w = true

omit [Fintype W] in
theorem ShmqUsers.Stopped.step (stopped : s.Stopped) {act : ShmqAct W} (quiet : act.Quiet)
    (stepped : s.step act = some s') :
    s'.Stopped ∧ ∀ other,
      (s'.at' other).steps + (if act.mover = some other then 1 else 0) ≤ (s.at' other).steps := by
  obtain ⟨holder, held⟩ := stopped.held
  have held' := held.step stepped
  unfold ShmqUsers.step at stepped
  cases act with
  | plain op =>
      obtain ⟨fifo, -, rfl⟩ := Option.map_eq_some_iff.mp stepped
      exact ⟨⟨held', stopped.stop⟩, fun _ => Nat.le_refl _⟩
  | call w op => cases quiet
  | spawn w => cases quiet
  | acquire w =>
      simp only at stepped
      split at stepped
      · next op here =>
          obtain ⟨sem, -, rfl⟩ := Option.map_eq_some_iff.mp stepped
          refine ⟨⟨held', stopped.stop⟩, steps_update ?_⟩
          rw [here]
          exact Nat.le_refl 2
      · cases stepped
  | interrupted w =>
      simp only at stepped
      split at stepped
      · next op here =>
          cases stepped
          refine ⟨⟨held', stopped.stop⟩, steps_update ?_⟩
          rw [here]
          exact Nat.le_succ 1
      · cases stepped
  | pass w mallocOk =>
      simp only at stepped
      split at stepped
      · next op here =>
          have returned := ShmqUsers.step_pass_of_stop here (stopped.stop w) mallocOk
          simp only [ShmqUsers.step, here] at returned
          cases returned.symm.trans stepped
          refine ⟨⟨held', stopped.stop⟩, steps_update ?_⟩
          rw [here]
          exact Nat.le_refl 1
      · cases stepped
  | signal w =>
      cases stepped
      refine ⟨⟨held', fun other => ?_⟩, fun _ => Nat.le_refl _⟩
      change Function.update s.stop w true other = true
      by_cases same : other = w
      · rw [same, Function.update_self]
      · rw [Function.update_of_ne same, stopped.stop]
  | die w =>
      cases stepped
      refine ⟨⟨held', stopped.stop⟩, fun other => ?_⟩
      change (Function.update s.at' w .outside other).steps + 0 ≤ _
      by_cases same : other = w
      · rw [same, Function.update_self]
        exact Nat.zero_le _
      · rw [Function.update_of_ne same]
        exact Nat.le_refl _

/-- A step of any worker is one of all. -/
theorem ShmqUsers.Stopped.steps_lt (stopped : s.Stopped) {act : ShmqAct W} (quiet : act.Quiet)
    (moves : act.mover.isSome = true) (stepped : s.step act = some s') : s'.steps < s.steps := by
  obtain ⟨-, less⟩ := stopped.step quiet stepped
  obtain ⟨w, mover⟩ := Option.isSome_iff_exists.mp moves
  rw [mover] at less
  refine Finset.sum_lt_sum (fun other _ => ?_) ⟨w, Finset.mem_univ w, ?_⟩
  · exact Nat.le_trans (Nat.le_add_right _ _) (less other)
  · have own := less w
    rw [if_pos rfl] at own
    exact own

/-- A worker that is in its call can go on, or the one that holds the lock can. -/
theorem ShmqUsers.Stopped.goes (stopped : s.Stopped) (busy : s.steps ≠ 0) :
    ∃ act s', (act.Quiet ∧ act.mover.isSome = true) ∧ s.step act = some s' ∧ s'.fifo = s.fifo := by
  obtain ⟨holder, held⟩ := stopped.held
  cases holder with
  | some w =>
      have here := (held.inside w).mpr rfl
      cases at' : s.at' w with
      | outside | asking => rw [at'] at here; cases here
      | inside op =>
          exact ⟨.pass w true, _, ⟨trivial, rfl⟩,
            ShmqUsers.step_pass_of_stop at' (stopped.stop w) true, rfl⟩
  | none =>
      obtain ⟨w, -, some⟩ : ∃ w ∈ Finset.univ, (s.at' w).steps ≠ 0 := by
        by_contra none
        refine busy (Finset.sum_eq_zero fun w mem => ?_)
        by_contra some
        exact none ⟨w, mem, some⟩
      cases at' : s.at' w with
      | outside => rw [at'] at some; exact absurd rfl some
      | inside op =>
          have here := (held.inside w).mp (isInside_of_eq at')
          cases here
      | asking op =>
          have free : 0 < s.sem.semval := by
            rw [held.semval, if_pos rfl]
            exact Int.one_pos
          exact ⟨.acquire w, _, ⟨trivial, rfl⟩, ShmqUsers.step_acquire at' free, rfl⟩

/-- When every worker is told to stop and none calls again, no more than two steps of each are
left, whatever comes between, and they can take them at any time. Then all have returned, the
lock is free, and the queue is as it was. -/
theorem shmq_stop_ends_waits {sz : Int} {acts rest : List (ShmqAct W)}
    (ran : run ShmqUsers.step (.init sz) acts = some s) (stop : ∀ w, s.stop w = true)
    (quiet : ∀ act ∈ rest, act.Quiet) (ran' : run ShmqUsers.step s rest = some s') :
    (∀ w, rest.countP (fun act => decide (act.mover = some w)) ≤ 2) ∧
      ∃ more s'', (∀ act ∈ more, act.mover.isSome = true) ∧
        run ShmqUsers.step s' more = some s'' ∧ (∀ w, s''.at' w = .outside) ∧
        s''.sem.semval = 1 ∧ s''.fifo = s'.fifo := by
  have stopped : s.Stopped := ⟨ShmqUsers.held_of_run ran, stop⟩
  have stopped' : s'.Stopped :=
    (countP_add_le (fun _ => 0) (fun _ => false) (fun stopped quiet stepped =>
      ⟨(ShmqUsers.Stopped.step stopped quiet stepped).1, Nat.le_refl 0⟩) stopped quiet ran').1
  refine ⟨fun w => ?_, ?_⟩
  · have count := (countP_add_le (fun t : ShmqUsers W => (t.at' w).steps)
      (fun act => decide (act.mover = some w)) (fun stopped quiet stepped => by
        obtain ⟨stopped', less⟩ := ShmqUsers.Stopped.step stopped quiet stepped
        simp only [decide_eq_true_eq]
        exact ⟨stopped', less w⟩) stopped quiet ran').2
    have start := (s.at' w).steps_le
    omega
  obtain ⟨more, s'', moves, ran'', ⟨⟨⟨holder, held⟩, -⟩, fifo⟩, done⟩ :=
    exists_run_to_zero (P := fun t : ShmqUsers W => t.Stopped ∧ t.fifo = s'.fifo)
      ShmqUsers.steps (fun act : ShmqAct W => act.mover.isSome = true) (fun both busy => by
        obtain ⟨act, t, ⟨quiet, moves⟩, stepped, same⟩ := both.1.goes busy
        obtain ⟨stopped, -⟩ := both.1.step quiet stepped
        exact ⟨act, t, moves, stepped, ⟨stopped, same.trans both.2⟩,
          both.1.steps_lt quiet moves stepped⟩) ⟨stopped', rfl⟩
  have outside : ∀ w, s''.at' w = .outside := by
    intro w
    have zero := (Finset.sum_eq_zero_iff.mp done) w (Finset.mem_univ w)
    cases at' : s''.at' w with
    | outside => rfl
    | asking op => rw [at'] at zero; cases zero
    | inside op => rw [at'] at zero; cases zero
  refine ⟨more, s'', moves, ran'', outside, ?_, fifo⟩
  rw [held.semval, if_pos]
  cases holder with
  | none => rfl
  | some w =>
      have here := (held.inside w).mpr rfl
      rw [outside w] at here
      cases here

end Steps

/-- One worker waits for a message while another waits for the lock. -/
def waitingActs : List (ShmqAct Bool) :=
  [.call true .pop, .acquire true, .pass true true, .call false .pop, .signal true, .signal false]

def waitingUsers : ShmqUsers Bool :=
  (run ShmqUsers.step (.init 64) waitingActs).getD (.init 64)

theorem shmq_lock_exclusive_waiting :
    run ShmqUsers.step (.init 64) waitingActs = some waitingUsers ∧
      (waitingUsers.at' true).isInside = true ∧ ∀ w w', (waitingUsers.at' w).isInside = true →
        (waitingUsers.at' w').isInside = true → w = w' := by
  have ran : run ShmqUsers.step (.init 64) waitingActs = some waitingUsers := rfl
  exact ⟨ran, rfl, (shmq_lock_exclusive ran).1⟩

theorem shmq_stop_ends_waits_waiting :
    ∃ s' more s'', run ShmqUsers.step waitingUsers [.interrupted false] = some s' ∧
      run ShmqUsers.step s' more = some s'' ∧ ∀ w, s''.at' w = .outside := by
  have ran : run ShmqUsers.step (.init 64) waitingActs = some waitingUsers := rfl
  have ran' : run ShmqUsers.step waitingUsers [.interrupted false] = some _ := rfl
  have quiet : ∀ act ∈ [ShmqAct.interrupted false], act.Quiet := by
    intro act mem
    rw [List.mem_singleton.mp mem]
    trivial
  obtain ⟨-, more, s'', -, rest, outside, -⟩ :=
    shmq_stop_ends_waits ran (fun w => by cases w <;> rfl) quiet ran'
  exact ⟨_, more, s'', ran', rest, outside⟩

end Verben
