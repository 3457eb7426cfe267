import Verben.Ae.Time
import Verben.Lib.Alarms
import Verben.Lib.Transition

/-!
# Processing time events

`ae_delete_time_event` and `process_time_events` of `src/ae.c`. A callback may create and delete
time events as it likes, its own one too, and what it returns is when it has to be called again.
A time event is known by its identifier, which no other one has (`AeTimeLoop.Kept`): a pointer to it is good
as long as an event of this identifier is in the list. The finalizers are left out.

The log of a loop says what happened to its time events, in milliseconds.
-/

namespace Verben

open Alarms Transition

/-- The list without the first event of an identifier, if there is one. -/
def aeUnlink (id : Int) : List AeTimeEvent → Option (List AeTimeEvent)
  | [] => none
  | te :: next => if te.id = id then some next else (aeUnlink id next).map (te :: ·)

/-- `ae_delete_time_event`; `none` is `AE_ERR`. -/
def aeDeleteTimeEvent (el : AeTimers) (id : Int) : Option AeTimers :=
  (aeUnlink id el.timeEventHead).map ({ el with timeEventHead := · })

theorem aeAddMillisecondsToNow_range (milliseconds : Int) (now : AeTime) :
    -1000 < (aeAddMillisecondsToNow milliseconds now).2 ∧
      (aeAddMillisecondsToNow milliseconds now).2 < 1000 :=
  (aeAddMillisecondsToNow_spec milliseconds now).1

/-- The stores to an event's `when_sec` and `when_ms`, if it is still there. -/
def aeRearm (id : Int) (ms : Int) (now : AeTime) : List AeTimeEvent → Option (List AeTimeEvent)
  | [] => none
  | te :: next =>
    if te.id = id then
      let due := aeAddMillisecondsToNow ms now
      some (⟨id, due.1, due.2, aeAddMillisecondsToNow_range ms now⟩ :: next)
    else
      (aeRearm id ms now next).map (te :: ·)

/-- The test in `process_time_events`. -/
def AeTimeEvent.Timeout (te : AeTimeEvent) (now : AeTime) : Prop :=
  te.whenSec < now.sec ∨ (now.sec = te.whenSec ∧ te.whenMs ≤ now.ms)

instance (te : AeTimeEvent) (now : AeTime) : Decidable (te.Timeout now) :=
  inferInstanceAs (Decidable (_ ∨ _))

/-- A call that changes the time events. -/
inductive AeTimeCall : Type
  | create (ms : Int) (now : AeTime) (alloc : Bool)
  | delete (id : Int)

/-- What one round of the loop meets: the time, what the callback calls and returns, and the time
when it has returned. -/
structure AeRound : Type where
  now : AeTime
  calls : List AeTimeCall
  ret : Int
  again : AeTime

/-- The variables of `process_time_events`: `maxid`, and the list from `te` on. -/
structure AePass : Type where
  maxid : Int
  te : List AeTimeEvent

/-- A loop, in `process_time_events` or outside of it. -/
structure AeTimeLoop : Type where
  el : AeTimers
  pass : Option AePass
  log : List (Entry Int Int)

/-- `ae_create_event_loop`. -/
def AeTimeLoop.create : AeTimeLoop := ⟨⟨0, []⟩, none, []⟩

def AeTimeLoop.call (loop : AeTimeLoop) : AeTimeCall → AeTimeLoop
  | .create ms now alloc =>
    let created := aeCreateTimeEvent loop.el ms now alloc
    { loop with
      el := created.2
      log := if alloc then loop.log ++ [.arm created.1 (now.total + ms)] else loop.log }
  | .delete id =>
    match aeDeleteTimeEvent loop.el id with
    | some el => { loop with el := el, log := loop.log ++ [.drop id] }
    | none => loop

/-- The callback of an event, and what is done with the event then. A store to an event that is
gone has no result. -/
def AeTimeLoop.timeProc (loop : AeTimeLoop) (id : Int) (round : AeRound) : Option AeTimeLoop :=
  let called := round.calls.foldl AeTimeLoop.call
    { loop with log := loop.log ++ [.fire id round.now.total] }
  if 0 < round.ret then
    (aeRearm id round.ret round.again called.el.timeEventHead).map fun head =>
      { called with
        el := { called.el with timeEventHead := head }
        log := called.log ++ [.rearm id (round.again.total + round.ret)] }
  else
    some (called.call (.delete id))

/-- A round of the loop in `process_time_events`, the last of which leaves it. -/
def AeTimeLoop.round (loop : AeTimeLoop) (pass : AePass) (round : AeRound) : Option AeTimeLoop :=
  match pass.te with
  | [] => some { loop with pass := none }
  | te :: next =>
    if pass.maxid < te.id then
      some { loop with pass := some { pass with te := next } }
    else if te.Timeout round.now then
      (loop.timeProc te.id round).map fun called =>
        { called with pass := some { pass with te := called.el.timeEventHead } }
    else
      some { loop with pass := some { pass with te := next } }

inductive AeTimeAct : Type
  | call (call : AeTimeCall)
  | enter
  | round (round : AeRound)

/-- Outside of `process_time_events` there are calls, until it is entered. -/
def AeTimeLoop.step (loop : AeTimeLoop) : AeTimeAct → Option AeTimeLoop
  | .call call =>
    match loop.pass with
    | none => some (loop.call call)
    | some _ => none
  | .enter =>
    match loop.pass with
    | none =>
      some { loop with pass := some ⟨loop.el.timeEventNextId - 1, loop.el.timeEventHead⟩ }
    | some _ => none
  | .round round =>
    match loop.pass with
    | none => none
    | some pass => loop.round pass round

/-! ## The list as a map -/

/-- When the event of an identifier is due. -/
def dueIn (events : List AeTimeEvent) (id : Int) : Option Int :=
  (events.find? (·.id = id)).map AeTimeEvent.total

variable {events left : List AeTimeEvent} {id : Int}

theorem dueIn_cons (te : AeTimeEvent) (next : List AeTimeEvent) :
    dueIn (te :: next) = Function.update (dueIn next) te.id (some te.total) := by
  funext id
  unfold dueIn
  by_cases same : id = te.id
  · subst same
    rw [List.find?_cons_of_pos (by simp), Function.update_self]
    rfl
  · rw [List.find?_cons_of_neg (by simpa using Ne.symm same), Function.update_of_ne same]

theorem dueIn_isSome : (dueIn events id).isSome ↔ ∃ te ∈ events, te.id = id := by
  unfold dueIn
  rw [Option.isSome_map, List.find?_isSome]
  simp

theorem dueIn_eq_none (absent : ∀ te ∈ events, te.id ≠ id) : dueIn events id = none := by
  apply Option.not_isSome_iff_eq_none.mp
  rw [dueIn_isSome]
  rintro ⟨te, mem, same⟩
  exact absent te mem same

/-- Identifiers go down from the head of the list. -/
def Descending (events : List AeTimeEvent) : Prop := events.Pairwise (·.id > ·.id)

theorem Descending.dueIn (descending : Descending events) {te : AeTimeEvent} (mem : te ∈ events) :
    dueIn events te.id = some te.total := by
  induction descending with
  | nil => cases mem
  | cons later _ ih =>
      rw [dueIn_cons]
      rcases List.mem_cons.mp mem with rfl | mem
      · exact Function.update_self ..
      · rw [Function.update_of_ne (Int.ne_of_lt (later te mem)), ih mem]

theorem aeUnlink_eq_none : aeUnlink id events = none ↔ dueIn events id = none := by
  induction events with
  | nil => exact iff_of_true rfl rfl
  | cons te next ih =>
      rw [dueIn_cons]
      unfold aeUnlink
      split
      · next same => rw [same, Function.update_self]; simp
      · next other => rw [Function.update_of_ne (Ne.symm other), Option.map_eq_none_iff, ih]

theorem aeUnlink_sublist (unlinked : aeUnlink id events = some left) : left.Sublist events := by
  induction events generalizing left with
  | nil => cases unlinked
  | cons te next ih =>
      unfold aeUnlink at unlinked
      split at unlinked
      · cases unlinked
        exact List.sublist_cons_self te next
      · obtain ⟨rest, found, rfl⟩ := Option.map_eq_some_iff.mp unlinked
        exact (ih found).cons_cons te

theorem dueIn_aeUnlink (descending : Descending events)
    (unlinked : aeUnlink id events = some left) :
    dueIn left = Function.update (dueIn events) id none := by
  induction descending generalizing left with
  | nil => cases unlinked
  | @cons te next later _ ih =>
      unfold aeUnlink at unlinked
      split at unlinked
      · next same =>
          cases unlinked
          have absent : dueIn next id = none :=
            dueIn_eq_none fun te' mem => same ▸ Int.ne_of_lt (later te' mem)
          rw [dueIn_cons, same, Function.update_idem, ← absent, Function.update_eq_self]
      · next other =>
          obtain ⟨rest, found, rfl⟩ := Option.map_eq_some_iff.mp unlinked
          rw [dueIn_cons, dueIn_cons, ih found, Function.update_comm (Ne.symm other)]

variable {ms : Int} {now : AeTime}

theorem aeRearm_eq_none : aeRearm id ms now events = none ↔ dueIn events id = none := by
  induction events with
  | nil => exact iff_of_true rfl rfl
  | cons te next ih =>
      rw [dueIn_cons]
      unfold aeRearm
      split
      · next same => rw [same, Function.update_self]; simp
      · next other => rw [Function.update_of_ne (Ne.symm other), Option.map_eq_none_iff, ih]

theorem aeRearm_ids (rearmed : aeRearm id ms now events = some left) :
    left.map AeTimeEvent.id = events.map AeTimeEvent.id := by
  induction events generalizing left with
  | nil => cases rearmed
  | cons te next ih =>
      unfold aeRearm at rearmed
      split at rearmed
      · next same =>
          cases rearmed
          rw [List.map_cons, List.map_cons, same]
      · obtain ⟨rest, found, rfl⟩ := Option.map_eq_some_iff.mp rearmed
        rw [List.map_cons, List.map_cons, ih found]

theorem dueIn_aeRearm (rearmed : aeRearm id ms now events = some left) :
    dueIn left = Function.update (dueIn events) id (some (now.total + ms)) := by
  induction events generalizing left with
  | nil => cases rearmed
  | cons te next ih =>
      unfold aeRearm at rearmed
      split at rearmed
      · next same =>
          cases rearmed
          have due := (aeAddMillisecondsToNow_spec ms now).2.2
          rw [dueIn_cons, dueIn_cons, same, Function.update_idem]
          exact congrArg _ (congrArg _ due)
      · next other =>
          obtain ⟨rest, found, rfl⟩ := Option.map_eq_some_iff.mp rearmed
          rw [dueIn_cons, dueIn_cons, ih found, Function.update_comm (Ne.symm other)]

/-- An event is not called early. -/
theorem AeTimeEvent.Timeout.total {te : AeTimeEvent} (timeout : te.Timeout now) :
    te.total ≤ now.total := by
  have due := te.whenMs_range
  have range := now.ms_range
  unfold AeTimeEvent.total AeTime.total
  rcases timeout with past | ⟨same, past⟩ <;> omega

end Verben
