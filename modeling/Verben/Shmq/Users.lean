import Verben.Shmq.Locked

/-!
# First in, first out, with locks and waits

The workers' passes and the connection process's calls are those of `FifoRun` as far as the
messages go: a pass that goes on leaves the queue's messages as they are. So the messages come out
in the order in which they went in, each to one call, whichever worker holds the lock and however
often it sleeps, if no pop finds the queue parked (`shmq_users_fifo`).
-/

namespace Verben

open CInt Transition

variable {W : Type} [DecidableEq W] {s s' : ShmqUsers W}

/-- The call that a worker is in. -/
def ShmqAt.op : ShmqAt → Option QueueOp
  | .outside => none
  | .asking op | .inside op => some op

/-- Messages fit, and no pop finds the queue parked. -/
def ShmqUsers.Careful (s : ShmqUsers W) : ShmqAct W → Prop
  | .plain op => op.Fits ∧ (op = .pop → ¬ s.fifo.q.Parked)
  | .call _ op => op.Fits
  | .pass w _ => s.at' w = .inside .pop → ¬ s.fifo.q.Parked
  | _ => True

instance (s : ShmqUsers W) : (act : ShmqAct W) → Decidable (s.Careful act)
  | .plain _ => inferInstanceAs (Decidable (_ ∧ _))
  | .call _ op => inferInstanceAs (Decidable op.Fits)
  | .pass _ _ => inferInstanceAs (Decidable (_ → _))
  | .acquire _ | .interrupted _ | .signal _ | .die _ | .spawn _ =>
      inferInstanceAs (Decidable True)

/-- The blocks in the ring are the messages that are in the queue, and what the workers are about
to push fits. -/
structure ShmqUsers.Inv (s : ShmqUsers W) : Prop where
  fifo : s.fifo.Inv
  fits : ∀ w op, (s.at' w).op = some op → op.Fits

/-- A pass of any call. -/
theorem opPass_spec {fifo : FifoRun} (inv : fifo.Inv) {op : QueueOp} (fits : op.Fits)
    (call : ShmqCall) :
    ∃ done, opPass fifo op call = some done ∧ (¬ (op = .pop ∧ fifo.q.Parked) → done.1.Inv) := by
  obtain ⟨ring, live, layout, pushed, count⟩ := inv
  cases op with
  | push data =>
      refine ⟨_, rfl, fun _ => ?_⟩
      unfold pushPass
      obtain ⟨ring', ⟨ok, ⟨off, placed⟩, inc⟩ | ⟨failed, same, cnt⟩⟩ :=
        shmqPush_spec ring layout fits call
      · simp only [if_pos ok]
        refine ⟨ring', _, placed, ?_, ?_⟩
        · simp only [pushed, List.map_append, List.map_cons, List.map_nil, List.append_assoc]
        · rw [count, toInt32_add_left] at inc
          rw [inc, List.length_append]
          rfl
      · simp only [if_neg failed]
        exact ⟨ring', live, same, pushed, cnt.trans count⟩
  | pop =>
      unfold opPass popPass
      simp only
      cases shmqPop_outcome ring layout call with
      | stop popped _ =>
          rw [popped]
          exact ⟨_, rfl, fun _ => ⟨ring, live, layout, pushed, count⟩⟩
      | noMemory popped _ _ ring' kept cnt =>
          rw [popped]
          exact ⟨_, rfl, fun _ => ⟨ring', live, kept, pushed, cnt.trans count⟩⟩
      | empty popped _ none _ ring' done cnt =>
          rw [popped]
          rw [none] at pushed count
          have inv : FifoRun.Inv { fifo with q := _ } := ⟨ring', [], done, pushed, cnt.trans count⟩
          cases call.wait with
          | false => exact ⟨_, rfl, fun _ => inv⟩
          | true => exact ⟨_, rfl, fun _ => inv⟩
      | @front q' k rest popped _ cons _ ring' kept cnt =>
          rw [popped]
          rw [cons] at pushed count
          refine ⟨_, rfl, fun _ => ⟨ring', rest, kept, ?_, ?_⟩⟩
          · simp only [pushed, List.map_cons, List.append_assoc, List.singleton_append]
          · simp only
            rw [cnt, count, toInt32_sub_left, List.length_cons]
            congr 1
            omega
      | again popped _ parked =>
          rw [popped]
          exact ⟨_, rfl, fun careful => absurd ⟨trivial, parked⟩ careful⟩

/-- What a worker is in, behind a change of another. -/
theorem fits_update {at' : W → ShmqAt} {w : W} {x : ShmqAt}
    (fits : ∀ w op, (at' w).op = some op → op.Fits) (here : ∀ op, x.op = some op → op.Fits) :
    ∀ other op, (Function.update at' w x other).op = some op → op.Fits := by
  intro other op is
  by_cases same : other = w
  · rw [same, Function.update_self] at is
    exact here op is
  · rw [Function.update_of_ne same] at is
    exact fits other op is

theorem ShmqUsers.Inv.step (inv : s.Inv) {act : ShmqAct W} (careful : s.Careful act)
    (stepped : s.step act = some s') : s'.Inv := by
  unfold ShmqUsers.step at stepped
  cases act with
  | plain op =>
      obtain ⟨fifo, called, rfl⟩ := Option.map_eq_some_iff.mp stepped
      obtain ⟨-, fifo', called', inv'⟩ := inv.fifo.step careful.1 careful.2
      cases called.symm.trans called'
      exact ⟨inv', inv.fits⟩
  | call w op =>
      simp only at stepped
      split at stepped
      · cases stepped
        refine ⟨inv.fifo, fits_update inv.fits fun op' is => ?_⟩
        cases is
        exact careful
      · cases stepped
  | acquire w =>
      simp only at stepped
      split at stepped
      · next op here =>
          obtain ⟨sem, -, rfl⟩ := Option.map_eq_some_iff.mp stepped
          refine ⟨inv.fifo, fits_update inv.fits fun op' is => ?_⟩
          cases is
          exact inv.fits w op (by rw [here]; rfl)
      · cases stepped
  | interrupted w =>
      simp only at stepped
      split at stepped
      · cases stepped
        exact ⟨inv.fifo, fits_update inv.fits nofun⟩
      · cases stepped
  | pass w mallocOk =>
      simp only at stepped
      split at stepped
      · next op here =>
          obtain ⟨done, passed, kept⟩ := opPass_spec inv.fifo
            (inv.fits w op (by rw [here]; rfl)) ⟨true, s.stop w, mallocOk⟩
          have unparked : ¬ (op = .pop ∧ s.fifo.q.Parked) := by
            rintro ⟨rfl, parked⟩
            exact careful here parked
          unfold ShmqUsers.pass at stepped
          rw [passed, Option.map_some] at stepped
          split at stepped
          · cases stepped
            exact ⟨kept unparked, fits_update inv.fits nofun⟩
          · cases stepped
            exact ⟨kept unparked, inv.fits⟩
      · cases stepped
  | signal w =>
      cases stepped
      exact ⟨inv.fifo, inv.fits⟩
  | die w =>
      cases stepped
      exact ⟨inv.fifo, fits_update inv.fits nofun⟩
  | spawn w =>
      simp only at stepped
      split at stepped
      · cases stepped
        exact ⟨inv.fifo, inv.fits⟩
      · cases stepped

/-- In every run in which no pop finds the queue parked, the messages returned are a prefix of
those accepted, `blk_cnt` is the difference, and every pass ends. -/
theorem shmq_users_fifo {sz : Int} (mapped : shmqAlign sz < 2 ^ 63)
    (reach : Reach ShmqUsers.step ShmqUsers.Careful (.init sz) s) :
    s.fifo.Good ∧ ∀ w mallocOk, (s.at' w).isInside = true →
      (s.step (.pass w mallocOk)).isSome = true := by
  have inv : s.Inv := reach.invariant ⟨FifoRun.inv_init mapped, nofun⟩
    fun inv careful stepped => inv.step careful stepped
  refine ⟨inv.fifo.good, fun w mallocOk inside => ?_⟩
  cases here : s.at' w with
  | outside | asking => rw [here] at inside; cases inside
  | inside op =>
      obtain ⟨done, passed, -⟩ := opPass_spec inv.fifo
        (inv.fits w op (by rw [here]; rfl)) ⟨true, s.stop w, mallocOk⟩
      simp only [ShmqUsers.step, here, ShmqUsers.pass, passed, Option.map_some, Option.isSome_some]

/-- A worker waits for a message that comes while it sleeps. -/
theorem shmq_users_fifo_woken :
    ∃ s : ShmqUsers Bool, Reach ShmqUsers.step ShmqUsers.Careful (.init 64) s ∧ s.fifo.Good ∧
      s.fifo.popped = [[65]] := by
  let acts : List (ShmqAct Bool) :=
    [.call true .pop, .acquire true, .pass true true, .plain (.push [65]), .pass true true]
  have ends : (runGuarded ShmqUsers.step ShmqUsers.Careful (.init 64) acts).map (·.fifo.popped) =
      some [[65]] := by
    decide +kernel
  obtain ⟨s, ran, popped⟩ := Option.map_eq_some_iff.mp ends
  have reach := reach_of_runGuarded ran
  exact ⟨s, reach, (shmq_users_fifo (by decide) reach).1, popped⟩

end Verben
