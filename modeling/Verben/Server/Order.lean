import Verben.Server.Log

/-!
# The order of responses

Both queues keep their order, so responses are appended in the order in which the
workers pushed them. A worker works on one request after the other. So a response
overtakes that of an earlier request only past a worker that popped the earlier
request and still has it (`responses_ordered`); with two workers this does happen
(`response_overtakes`).
-/

namespace Verben

open Trace Transition

section Logged

variable {W : Type} {s : Server W} {r r' : Request} {w w' : W}

/-- Requests are popped in the order in which they were framed. -/
theorem Server.Logged.popped_in_order (logged : s.Logged)
    (order : Precedes s.log (.framed r) (.framed r')) (popped : .popped w r ∈ s.log)
    (popped' : .popped w' r' ∈ s.log) : Precedes s.log (.popped w r) (.popped w' r') := by
  have queued := logged.queued
  have framed : Precedes (s.log.filterMap LogEvent.framedReq) r r' :=
    precedes_filterMap.mpr ⟨_, _, rfl, rfl, order⟩
  have nodup := queued.framedNodup
  rw [queued.framed] at framed nodup
  have out := framed.of_append nodup (mem_poppedReq popped) (mem_poppedReq popped')
  obtain ⟨e, e', ofR, ofR', order'⟩ := precedes_filterMap.mp out
  rcases order'.mem with ⟨mem, mem'⟩
  -- a request is popped once, so these are the events in question
  cases eq_of_filterMap_nodup queued.poppedNodup popped mem rfl ofR
  cases eq_of_filterMap_nodup queued.poppedNodup popped' mem' rfl ofR'
  exact order'

/-- Responses are appended in the order in which they were pushed. -/
theorem Server.Logged.pushed_of_appended (logged : s.Logged) {n n' : Nat}
    (order : Precedes s.log (.appended n r) (.appended n' r')) :
    ∃ w w', Precedes s.log (.pushed w r) (.pushed w' r') := by
  have queued := logged.queued
  have appended : Precedes (s.log.filterMap LogEvent.appendedReq) r r' :=
    precedes_filterMap.mpr ⟨_, _, rfl, rfl, order⟩
  have pushed := (appended.mono queued.appended).mono
    (List.sublist_append_left _ (s.sendQueue.map Datagram.req))
  rw [← queued.pushed] at pushed
  obtain ⟨e, e', ofR, ofR', order'⟩ := precedes_filterMap.mp pushed
  cases e <;> cases ofR
  cases e' <;> cases ofR'
  exact ⟨_, _, order'⟩

/-- One worker pushes the responses in the order in which it popped the requests. -/
theorem Server.Logged.pushed_in_order (logged : s.Logged)
    (order : Precedes s.log (.popped w r) (.popped w r')) (pushed : .pushed w r' ∈ s.log) :
    Precedes s.log (.pushed w r) (.pushed w r') :=
  (logged.worked.next order).trans logged.nodup (logged.worked.order pushed)

end Logged

/-- **The order of responses.** For any number of workers, in every state that a run
reaches: the responses are appended in the order in which they were pushed. A response
is appended before that of a request that was framed earlier only if the two had
different workers, and that of the earlier request popped it first and pushed the
response to it last. With one worker the order is always that of the framing. -/
theorem responses_ordered {W : Type} [DecidableEq W] {boot : ServerBoot W} {s : Server W}
    (reach : Reach Server.step always (Server.init boot) s) :
    (s.log.filterMap LogEvent.appendedReq).Sublist (s.log.filterMap LogEvent.pushedReq) ∧
    ∀ r r' n n', Precedes s.log (.framed r) (.framed r') →
      Precedes s.log (.appended n' r') (.appended n r) →
      ∃ w w', w ≠ w' ∧ Precedes s.log (.popped w r) (.popped w' r') ∧
        Precedes s.log (.popped w' r') (.pushed w' r') ∧
        Precedes s.log (.pushed w' r') (.pushed w r) := by
  have logged := Server.logged_of_reach reach
  constructor
  · rw [logged.queued.pushed]
    exact logged.queued.appended.trans (List.sublist_append_left _ _)
  · intro r r' n n' framed appended
    obtain ⟨w', w, overtaken⟩ := logged.pushed_of_appended appended
    rcases overtaken.mem with ⟨mem', mem⟩
    have first := logged.worked.order mem
    have second := logged.worked.order mem'
    have popped := logged.popped_in_order framed first.mem.1 second.mem.1
    refine ⟨w, w', ?_, popped, second, overtaken⟩
    intro same
    subst same
    exact overtaken.asymm logged.nodup (logged.pushed_in_order popped mem')

/-- Two requests on one connection, for a worker each; the second worker is faster. -/
def overtakingRun : List (ServerAct Bool) :=
  [.conn firstAccept, oneByteRead 65, oneByteRead 66, .pop false, .pop true,
    oneByteProcess true 98, .push true, .notify true, oneByteProcess false 97, .push false,
    .wake, .drain true, .drain true]

theorem log_overtakingRun :
    ∃ s, run Server.step (Server.init (defaultServer Bool)) overtakingRun = some s ∧
      Precedes s.log (.framed ⟨0, 0⟩) (.framed ⟨0, 1⟩) ∧
      Precedes s.log (.appended 0 ⟨0, 1⟩) (.appended 0 ⟨0, 0⟩) := by
  have evaluated : (run Server.step (Server.init (defaultServer Bool)) overtakingRun).map
      (fun s => (decide (Precedes s.log (.framed ⟨0, 0⟩) (.framed ⟨0, 1⟩)),
        decide (Precedes s.log (.appended 0 ⟨0, 1⟩) (.appended 0 ⟨0, 0⟩)))) =
      some (true, true) := by
    decide +kernel
  obtain ⟨s, ran, same⟩ := Option.map_eq_some_iff.mp evaluated
  obtain ⟨framed, appended⟩ := Prod.mk.injEq .. ▸ same
  exact ⟨s, ran, of_decide_eq_true framed, of_decide_eq_true appended⟩

theorem responses_ordered_two :
    ∃ s w w', run Server.step (Server.init (defaultServer Bool)) overtakingRun = some s ∧
      (s.log.filterMap LogEvent.appendedReq).Sublist (s.log.filterMap LogEvent.pushedReq) ∧
      w ≠ w' ∧ Precedes s.log (.popped w ⟨0, 0⟩) (.popped w' ⟨0, 1⟩) ∧
      Precedes s.log (.popped w' ⟨0, 1⟩) (.pushed w' ⟨0, 1⟩) ∧
      Precedes s.log (.pushed w' ⟨0, 1⟩) (.pushed w ⟨0, 0⟩) := by
  rcases log_overtakingRun with ⟨s, ran, framed, appended⟩
  obtain ⟨kept, overtaken⟩ := responses_ordered (reach_of_run ran)
  obtain ⟨w, w', rest⟩ := overtaken _ _ _ _ framed appended
  exact ⟨s, w, w', ran, kept, rest⟩

/-- **A response overtakes another** on the same connection: the order of the framing
is not always that of the responses. -/
theorem response_overtakes :
    ¬ ∀ s : Server Bool, Reach Server.step always (Server.init (defaultServer Bool)) s →
      ∀ r r' n, r.conn = r'.conn → Precedes s.log (.framed r) (.framed r') →
        .appended n r ∈ s.log → .appended n r' ∈ s.log →
        Precedes s.log (.appended n r) (.appended n r') := by
  intro ordered
  rcases log_overtakingRun with ⟨s, ran, framed, appended⟩
  have reach := reach_of_run ran
  have nodup := (Server.logged_of_reach reach).nodup
  rcases appended.mem with ⟨second, first⟩
  exact appended.asymm nodup (ordered s reach _ _ 0 rfl framed first second)

end Verben
