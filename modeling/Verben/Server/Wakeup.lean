import Verben.Server.Step

/-!
# No wakeup is lost

A worker pushes a response before it writes to the pipe, and the connection process
reads the pipe before it empties `send_queue`. So when the process is back in its
event loop and a response waits, a byte is in the pipe, or the worker that pushed the
response is about to write one. Neither a full pipe nor a read that takes the bytes
of many responses changes this.
-/

namespace Verben

open Transition

variable {W : Type} [DecidableEq W] {s s' : Server W}

/-- A response in `send_queue` will be seen. -/
def Server.Awake (s : Server W) : Prop :=
  s.draining = false → s.sendQueue ≠ [] → 0 < s.pipe.held ∨ ∃ w, (s.worker w).phase = .notifying

/-- A worker that is not between its push and its write takes no wakeup along. -/
theorem Server.Awake.setWorker (awake : s.Awake) {w : W} (x : Worker)
    (other : (s.worker w).phase ≠ .notifying) : (s.setWorker w x).Awake := by
  intro loop pending
  rcases awake loop pending with held | ⟨w', notifying⟩
  · exact .inl held
  · have ne : w' ≠ w := by
      intro same
      subst same
      exact other notifying
    refine .inr ⟨w', ?_⟩
    rwa [worker_setWorker_ne s x ne]

/-- A step keeps the wakeup for every response that waits. -/
theorem Server.Moves.awake {act : ServerAct W} (moves : s.Moves act s') (awake : s.Awake) :
    s'.Awake := by
  cases moves with
  | quiet loop stepped plain => exact awake
  | opened loop stepped addr absent plain => exact awake
  | framed loop stepped live fd plain => exact awake
  | wake loop read =>
      intro loop'
      cases loop'
  | finish empty =>
      intro _ pending
      exact absurd empty pending
  | discard draining queue stepped =>
      intro loop
      exact absurd draining (Bool.eq_false_iff.mp loop)
  | append draining queue stepped live fd =>
      intro loop
      exact absurd draining (Bool.eq_false_iff.mp loop)
  | pop idle queue =>
      have popped : { s with recvQueue := _, log := _ }.Awake := awake
      exact popped.setWorker _ (by rw [idle]; nofun)
  | process holding replied => exact awake.setWorker _ (by rw [holding]; nofun)
  | @push w m replying =>
      intro _ _
      refine .inr ⟨w, ?_⟩
      rw [worker_setWorker_self]
  | notify notifying =>
      intro _ _
      exact .inl (held_notifierWrite s.pipe)

/-- **No wakeup is lost.** For any number of workers and any pipe, in every state that
any run reaches: when the connection process is in its event loop and `send_queue` is
not empty, the pipe holds a byte, or a worker is between its push and its
`notifier_write`. -/
theorem wakeup_kept {boot : ServerBoot W}
    (reach : Reach Server.step always (Server.init boot) s) (loop : s.draining = false)
    (pending : s.sendQueue ≠ []) :
    0 < s.pipe.held ∨ ∃ w, (s.worker w).phase = .notifying := by
  have awake : s.Awake :=
    Server.holds_of_reach reach (fun _ pending => absurd rfl pending)
      fun _ awake _ moves => moves.awake awake
  exact awake loop pending

/-- A worker that has just pushed the response to the first request. -/
theorem wakeup_kept_first :
    ∃ s : Server Unit, run Server.step (Server.init (defaultServer Unit))
        [.conn firstAccept, oneByteRead 65, .pop (), oneByteProcess () 97, .push ()] = some s ∧
      s.draining = false ∧ s.sendQueue ≠ [] ∧
      (0 < s.pipe.held ∨ ∃ w, (s.worker w).phase = .notifying) := by
  have evaluated : (run Server.step (Server.init (defaultServer Unit))
      [.conn firstAccept, oneByteRead 65, .pop (), oneByteProcess () 97, .push ()]).map
        (fun s => (s.draining, s.sendQueue.isEmpty)) = some (false, false) := by
    decide +kernel
  obtain ⟨s, ran, same⟩ := Option.map_eq_some_iff.mp evaluated
  obtain ⟨loop, pending⟩ := Prod.mk.injEq .. ▸ same
  have nonempty : s.sendQueue ≠ [] := List.isEmpty_eq_false_iff.mp pending
  exact ⟨s, ran, loop, nonempty, wakeup_kept (reach_of_run ran) loop nonempty⟩

end Verben
