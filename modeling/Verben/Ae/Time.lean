import Verben.Lib.CInt

/-!
# Time events

The time events of `src/ae.c`, up to the call of `ae_api_poll` in `ae_process_events`. A
time event is kept as the time when it is due; its callbacks are left out. Seconds are of
type `long`, which the calendar does not exhaust, and milliseconds of the clock are below a
second. Those of a time event are not below zero unless its delay was
(`aeCreateTimeEvent_normal`).

`aeSearchNearestTimer` compares pairs of seconds and milliseconds. `total` is such a pair as
one number.
-/

namespace Verben

open CInt

/-- `struct timeval`. -/
structure Timeval : Type where
  tvSec : Int
  tvUsec : Int
  deriving DecidableEq

/-- What `gettimeofday` stores. -/
structure TimeOfDay : Type where
  tv : Timeval
  usec : 0 ≤ tv.tvUsec ∧ tv.tvUsec < 1000000

/-- A time as `ae_get_time` stores it. -/
structure AeTime : Type where
  sec : Int
  ms : Int
  ms_range : 0 ≤ ms ∧ ms < 1000

/-- `ae_get_time`. -/
def aeGetTime (now : TimeOfDay) : AeTime where
  sec := now.tv.tvSec
  ms := now.tv.tvUsec.tdiv 1000
  ms_range := by
    have usec := now.usec
    rw [Int.tdiv_eq_ediv_of_nonneg usec.1]
    omega

/-- The time in milliseconds. -/
def AeTime.total (now : AeTime) : Int := now.sec * 1000 + now.ms

/-- `ae_add_milliseconds_to_now`. -/
def aeAddMillisecondsToNow (milliseconds : Int) (now : AeTime) : Int × Int :=
  let whenSec := now.sec + milliseconds.tdiv 1000
  let whenMs := now.ms + milliseconds.tmod 1000
  if 1000 ≤ whenMs then (whenSec + 1, whenMs - 1000) else (whenSec, whenMs)

/-- The remainder of a negative delay is negative. -/
theorem aeAddMillisecondsToNow_spec (milliseconds : Int) (now : AeTime) :
    (-1000 < (aeAddMillisecondsToNow milliseconds now).2 ∧
      (aeAddMillisecondsToNow milliseconds now).2 < 1000) ∧
    (0 ≤ milliseconds → 0 ≤ (aeAddMillisecondsToNow milliseconds now).2) ∧
    (aeAddMillisecondsToNow milliseconds now).1 * 1000 +
      (aeAddMillisecondsToNow milliseconds now).2 = now.total + milliseconds := by
  have range := now.ms_range
  have low : -1000 < milliseconds.tmod 1000 := Int.lt_tmod_of_pos milliseconds (by decide)
  have high : milliseconds.tmod 1000 < 1000 := Int.tmod_lt_of_pos milliseconds (by decide)
  have split := Int.tdiv_mul_add_tmod milliseconds 1000
  have positive : 0 ≤ milliseconds → 0 ≤ milliseconds.tmod 1000 := Int.tmod_nonneg 1000
  unfold aeAddMillisecondsToNow AeTime.total
  simp only
  split
  · refine ⟨by omega, fun delay => ?_, by omega⟩
    omega
  · refine ⟨by omega, fun delay => ?_, by omega⟩
    have := positive delay
    omega

/-- `ae_time_event`, without its callbacks. -/
structure AeTimeEvent : Type where
  id : Int
  whenSec : Int
  whenMs : Int
  whenMs_range : -1000 < whenMs ∧ whenMs < 1000

/-- When the event is due, in milliseconds. -/
def AeTimeEvent.total (te : AeTimeEvent) : Int := te.whenSec * 1000 + te.whenMs

/-- The time events of an `ae_event_loop`. -/
structure AeTimers : Type where
  timeEventNextId : Int
  timeEventHead : List AeTimeEvent

/-- `ae_create_time_event`: the identifier or `AE_ERR`. -/
def aeCreateTimeEvent (el : AeTimers) (ms : Int) (now : AeTime) (alloc : Bool) :
    Int × AeTimers :=
  let id := el.timeEventNextId
  if alloc then
    let due := aeAddMillisecondsToNow ms now
    (id, ⟨id + 1, ⟨id, due.1, due.2, (aeAddMillisecondsToNow_spec ms now).1⟩ ::
      el.timeEventHead⟩)
  else
    (-1, { el with timeEventNextId := id + 1 })

/-- The events of delays that are not negative. -/
def AeTimers.Normal (el : AeTimers) : Prop := ∀ te ∈ el.timeEventHead, 0 ≤ te.whenMs

theorem aeCreateTimeEvent_normal {el : AeTimers} {ms : Int} (normal : el.Normal)
    (delay : 0 ≤ ms) (now : AeTime) (alloc : Bool) :
    (aeCreateTimeEvent el ms now alloc).2.Normal := by
  unfold aeCreateTimeEvent
  simp only
  split
  · intro te mem
    rcases List.mem_cons.mp mem with rfl | old
    · exact (aeAddMillisecondsToNow_spec ms now).2.1 delay
    · exact normal te old
  · exact normal

/-- The test in `ae_search_nearest_timer`. -/
def AeTimeEvent.Sooner (te nearest : AeTimeEvent) : Prop :=
  te.whenSec < nearest.whenSec ∨ (te.whenSec = nearest.whenSec ∧ te.whenMs < nearest.whenMs)

instance (te nearest : AeTimeEvent) : Decidable (te.Sooner nearest) :=
  inferInstanceAs (Decidable (_ ∨ _))

/-- The loop of `ae_search_nearest_timer`. -/
def aeSearchLoop : List AeTimeEvent → Option AeTimeEvent → Option AeTimeEvent
  | [], nearest => nearest
  | te :: next, none => aeSearchLoop next (some te)
  | te :: next, some nearest => aeSearchLoop next (some (if te.Sooner nearest then te else nearest))

/-- `ae_search_nearest_timer`. -/
def aeSearchNearestTimer (el : AeTimers) : Option AeTimeEvent := aeSearchLoop el.timeEventHead none

/-- The `flags` of `ae_process_events`. -/
structure AeFlags : Type where
  fileEvents : Bool
  timeEvents : Bool
  dontWait : Bool
  deriving DecidableEq

/-- The time that is missing for an event to fire. -/
def aeMissing (shortest : AeTimeEvent) (now : AeTime) : Timeval :=
  let sec := shortest.whenSec - now.sec
  let borrowed :=
    if shortest.whenMs < now.ms then (sec - 1, (shortest.whenMs + 1000 - now.ms) * 1000)
    else (sec, (shortest.whenMs - now.ms) * 1000)
  ⟨if borrowed.1 < 0 then 0 else borrowed.1, if borrowed.2 < 0 then 0 else borrowed.2⟩

/-- The `tvp` of `ae_process_events`, null to wait forever. -/
def aeTvp (el : AeTimers) (flags : AeFlags) (now : AeTime) : Option Timeval :=
  let shortest := if flags.timeEvents ∧ ¬ flags.dontWait then aeSearchNearestTimer el else none
  match shortest with
  | some shortest => some (aeMissing shortest now)
  | none => if flags.dontWait then some ⟨0, 0⟩ else none

/-- `ae_process_events` up to `ae_api_poll`: what it is called with, if it is called. -/
def aeProcessEvents (el : AeTimers) (maxfd : Int) (flags : AeFlags) (now : AeTime) :
    Option (Option Timeval) :=
  if ¬ flags.timeEvents ∧ ¬ flags.fileEvents then none
  else if maxfd ≠ -1 ∨ (flags.timeEvents ∧ ¬ flags.dontWait) then some (aeTvp el flags now)
  else none

/-- The milliseconds that `ae_api_poll` passes to `epoll_wait`, an `int`. -/
def aeApiTimeout : Option Timeval → Int
  | some tvp => toInt32 (tvp.tvSec * 1000 + tvp.tvUsec.tdiv 1000)
  | none => -1

end Verben
