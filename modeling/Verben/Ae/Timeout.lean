import Verben.Ae.Time

/-!
# How long the event loop waits

`ae_process_events` waits for file events no longer than until the earliest time event is
due. It computes the missing seconds and milliseconds with a borrow, and sets each part to
zero if it is negative. For an event that is overdue, the seconds are negative, but the
milliseconds are not: they stay, and the loop waits although it should not. `ae_timeout_iff`
says when the timeout is right.
-/

namespace Verben

open CInt

/-- `ae_process_events` may sleep until a time event is due. -/
def AeFlags.MayWait (flags : AeFlags) : Prop := flags.timeEvents ∧ ¬ flags.dontWait

/-- No time event is due before this one. -/
structure AeTimers.Earliest (el : AeTimers) (te : AeTimeEvent) : Prop where
  mem : te ∈ el.timeEventHead
  first : ∀ other ∈ el.timeEventHead, te.total ≤ other.total

/-- The microseconds of a timeout. -/
def Timeval.total (tvp : Timeval) : Int := tvp.tvSec * 1000000 + tvp.tvUsec

/-- The timeout does not delay an event: it is not longer than the time that is left, it is
zero if the event is due, and `epoll_wait` returns in time. -/
structure InTime (te : AeTimeEvent) (now : AeTime) (tvp : Option Timeval) : Prop where
  bounded : now.total ≤ te.total →
    ∃ tv, tvp = some tv ∧ tv.total ≤ (te.total - now.total) * 1000
  zero : te.total ≤ now.total → tvp = some ⟨0, 0⟩
  wakes : 0 ≤ aeApiTimeout tvp ∧
    (aeApiTimeout tvp ≤ te.total - now.total ∨ aeApiTimeout tvp = 0)

/-- The event that is found is not overdue, or the milliseconds cancel. -/
inductive Punctual (el : AeTimers) (te : AeTimeEvent) (now : AeTime) : Prop
  | ahead : now.total < te.total → now.ms ≤ te.whenMs + 1000 → el.Earliest te →
    (te.total - now.total) % 2 ^ 32 < 2 ^ 31 → Punctual el te now
  | due : te.total = now.total → Punctual el te now
  | overdue : te.total < now.total → te.whenMs = now.ms ∨ te.whenMs + 1000 ≤ now.ms →
    Punctual el te now

section Search

variable {el : AeTimers} {te nearest : AeTimeEvent} {events : List AeTimeEvent}

theorem aeSearchLoop_spec (found : aeSearchLoop events (some nearest) = some te) :
    (te = nearest ∨ te ∈ events) ∧ ¬ nearest.Sooner te ∧ ∀ other ∈ events, ¬ other.Sooner te := by
  induction events generalizing nearest with
  | nil =>
      cases found
      refine ⟨.inl rfl, ?_, by simp⟩
      unfold AeTimeEvent.Sooner
      omega
  | cons other next ih =>
      obtain ⟨origin, least, others⟩ := ih found
      -- of the two that were compared, the one that was kept is not after the other
      have both : ¬ nearest.Sooner te ∧ ¬ other.Sooner te := by
        by_cases sooner : other.Sooner nearest
        · rw [if_pos sooner] at least
          unfold AeTimeEvent.Sooner at sooner least ⊢
          omega
        · rw [if_neg sooner] at least
          exact ⟨least, fun late => sooner (by unfold AeTimeEvent.Sooner at *; omega)⟩
      refine ⟨?_, both.1, ?_⟩
      · rcases origin with rfl | mem
        · split
          · exact .inr List.mem_cons_self
          · exact .inl rfl
        · exact .inr (List.mem_cons_of_mem _ mem)
      · intro x mem
        rcases List.mem_cons.mp mem with rfl | mem
        · exact both.2
        · exact others x mem

/-- The search finds the least pair of seconds and milliseconds. -/
theorem aeSearchNearestTimer_spec (found : aeSearchNearestTimer el = some te) :
    te ∈ el.timeEventHead ∧ ∀ other ∈ el.timeEventHead, ¬ other.Sooner te := by
  unfold aeSearchNearestTimer at found
  cases events : el.timeEventHead with
  | nil =>
      rw [events] at found
      cases found
  | cons first next =>
      rw [events] at found
      have found' : aeSearchLoop next (some first) = some te := found
      obtain ⟨origin, least, others⟩ := aeSearchLoop_spec found'
      refine ⟨List.mem_cons.mpr origin, fun other mem => ?_⟩
      rcases List.mem_cons.mp mem with rfl | mem
      · exact least
      · exact others other mem

theorem aeSearchNearestTimer_isSome (mem : te ∈ el.timeEventHead) :
    ∃ nearest, aeSearchNearestTimer el = some nearest := by
  have ends : ∀ (events : List AeTimeEvent) nearest,
      ∃ te, aeSearchLoop events (some nearest) = some te := by
    intro events
    induction events with
    | nil => exact fun nearest => ⟨nearest, rfl⟩
    | cons other next ih => exact fun nearest => ih _
  unfold aeSearchNearestTimer
  cases events : el.timeEventHead with
  | nil =>
      rw [events] at mem
      cases mem
  | cons first next => exact ends next first

/-- Of events with milliseconds below a second, it is the earliest. -/
theorem AeTimers.Normal.earliest (normal : el.Normal)
    (found : aeSearchNearestTimer el = some te) : el.Earliest te := by
  obtain ⟨mem, least⟩ := aeSearchNearestTimer_spec found
  refine ⟨mem, fun other mem' => ?_⟩
  have range := te.whenMs_range
  have range' := other.whenMs_range
  have positive := normal te mem
  have positive' := normal other mem'
  have notSooner := least other mem'
  unfold AeTimeEvent.Sooner at notSooner
  unfold AeTimeEvent.total
  omega

end Search

section Missing

variable {el : AeTimers} {te : AeTimeEvent} {now : AeTime}

/-- The difference, with the milliseconds that are left after the borrow. -/
theorem aeMissing_spec (te : AeTimeEvent) (now : AeTime) :
    ∃ sec ms : Int, te.total - now.total = sec * 1000 + ms ∧
      aeMissing te now = ⟨max sec 0, max ms 0 * 1000⟩ ∧ -1000 < ms ∧ ms < 1000 ∧
      ((ms = te.whenMs - now.ms ∧ now.ms ≤ te.whenMs) ∨
        (ms = te.whenMs + 1000 - now.ms ∧ te.whenMs < now.ms)) := by
  have range := te.whenMs_range
  have range' := now.ms_range
  unfold AeTimeEvent.total AeTime.total aeMissing
  by_cases borrow : te.whenMs < now.ms
  · refine ⟨te.whenSec - now.sec - 1, te.whenMs + 1000 - now.ms, by omega, ?_, by omega, by omega,
      .inr ⟨rfl, borrow⟩⟩
    simp only [if_pos borrow, Timeval.mk.injEq]
    omega
  · refine ⟨te.whenSec - now.sec, te.whenMs - now.ms, by omega, ?_, by omega, by omega,
      .inl ⟨rfl, by omega⟩⟩
    simp only [if_neg borrow, Timeval.mk.injEq]
    omega

theorem aeApiTimeout_missing (sec ms : Int) :
    aeApiTimeout (some ⟨max sec 0, max ms 0 * 1000⟩) = toInt32 (max sec 0 * 1000 + max ms 0) := by
  unfold aeApiTimeout
  simp only
  rw [Int.mul_tdiv_cancel _ (by decide)]

/-- For an event that is due, a timeout of zero is right. -/
theorem inTime_zero (past : te.total ≤ now.total) : InTime te now (some ⟨0, 0⟩) := by
  refine ⟨fun _ => ⟨_, rfl, ?_⟩, fun _ => rfl, Int.le_refl 0, .inr rfl⟩
  unfold Timeval.total
  simp only
  omega

/-- The timeout is zero for an event that is due, if the milliseconds cancel as well. -/
theorem aeMissing_eq_zero_iff :
    aeMissing te now = ⟨0, 0⟩ ↔ te.total ≤ now.total ∧
      (te.total = now.total ∨ te.whenMs = now.ms ∨ te.whenMs + 1000 ≤ now.ms) := by
  obtain ⟨sec, ms, left, missing, low, high, parts⟩ := aeMissing_spec te now
  rw [missing, Timeval.mk.injEq]
  omega

/-- The timeout for an event ahead is the time that is left. -/
theorem aeMissing_of_ahead (later : now.total < te.total) (borrow : now.ms ≤ te.whenMs + 1000) :
    (aeMissing te now).total = (te.total - now.total) * 1000 ∧
      aeApiTimeout (some (aeMissing te now)) = toInt32 (te.total - now.total) := by
  obtain ⟨sec, ms, left, missing, low, high, parts⟩ := aeMissing_spec te now
  have range' := now.ms_range
  have whole : max sec 0 * 1000 + max ms 0 = te.total - now.total := by omega
  rw [missing, aeApiTimeout_missing, whole]
  refine ⟨?_, rfl⟩
  unfold Timeval.total
  simp only
  omega

/-- Where the borrow is not enough, the milliseconds are lost. -/
theorem aeMissing_total_of_lost (later : now.total < te.total) (lost : te.whenMs + 1000 < now.ms) :
    (te.total - now.total) * 1000 < (aeMissing te now).total := by
  obtain ⟨sec, ms, left, missing, low, high, parts⟩ := aeMissing_spec te now
  rw [missing]
  unfold Timeval.total
  simp only
  omega

theorem Punctual.inTime {first : AeTimeEvent} (punctual : Punctual el te now)
    (earliest : el.Earliest first) (mem : te ∈ el.timeEventHead) :
    InTime first now (some (aeMissing te now)) := by
  have least := earliest.first te mem
  cases punctual with
  | ahead later borrow earliest' small =>
      obtain ⟨total, timeout⟩ := aeMissing_of_ahead later borrow
      have same : first.total = te.total := by
        have := earliest'.first first earliest.mem
        omega
      refine ⟨fun _ => ⟨_, rfl, ?_⟩, fun _ => by omega, ?_⟩
      · exact Int.le_of_eq (by rw [total, same])
      · rw [timeout, same]
        unfold toInt32
        rw [if_pos small]
        omega
  | due same =>
      rw [aeMissing_eq_zero_iff.mpr ⟨Int.le_of_eq same, .inl same⟩]
      exact inTime_zero (by omega)
  | overdue past cancel =>
      rw [aeMissing_eq_zero_iff.mpr ⟨Int.le_of_lt past, .inr cancel⟩]
      exact inTime_zero (by omega)

theorem punctual_of_inTime {first : AeTimeEvent} (earliest : el.Earliest first)
    (mem : te ∈ el.timeEventHead) (inTime : InTime first now (some (aeMissing te now))) :
    Punctual el te now := by
  have least := earliest.first te mem
  by_cases later : now.total < te.total
  case pos =>
    -- a timeout that is not zero needs an earliest event ahead
    have ahead : now.total < first.total := by
      by_contra past
      have zero := Option.some.inj (inTime.zero (Int.not_lt.mp past))
      exact Int.not_lt.mpr (aeMissing_eq_zero_iff.mp zero).1 later
    obtain ⟨tv, same, short⟩ := inTime.bounded (Int.le_of_lt ahead)
    cases same
    have borrow : now.ms ≤ te.whenMs + 1000 := by
      by_contra lost
      have := aeMissing_total_of_lost later (Int.not_le.mp lost)
      omega
    obtain ⟨total, timeout⟩ := aeMissing_of_ahead later borrow
    have wakes := inTime.wakes.1
    rw [timeout] at wakes
    refine .ahead later borrow ⟨mem, fun other mem' => ?_⟩ ?_
    · have := earliest.first other mem'
      omega
    · unfold toInt32 at wakes
      split at wakes <;> omega
  case neg =>
    have zero := Option.some.inj (inTime.zero (by omega))
    rcases (aeMissing_eq_zero_iff.mp zero).2 with same | cancel
    · exact .due same
    · by_cases same : te.total = now.total
      · exact .due same
      · exact .overdue (by omega) cancel

end Missing

/-- A list that is not empty has an earliest event. -/
theorem AeTimers.exists_earliest {el : AeTimers} {te : AeTimeEvent}
    (mem : te ∈ el.timeEventHead) : ∃ first, el.Earliest first :=
  ⟨el.timeEventHead.minOn AeTimeEvent.total (List.ne_nil_of_mem mem), List.minOn_mem,
    fun _ mem' => List.apply_minOn_le_of_mem mem'⟩

/-- Of events with milliseconds below a second, the one that is found must not be overdue, but
by whole seconds, and `epoll_wait` counts up to an `int`. -/
theorem AeTimers.Normal.punctual_iff {el : AeTimers} {te : AeTimeEvent} (normal : el.Normal)
    (found : aeSearchNearestTimer el = some te) (now : AeTime) :
    Punctual el te now ↔
      (now.total ≤ te.total ∧ (te.total - now.total) % 2 ^ 32 < 2 ^ 31) ∨
        (te.total < now.total ∧ te.whenMs = now.ms) := by
  have earliest := normal.earliest found
  have positive := normal te earliest.mem
  have range := now.ms_range
  constructor
  · intro punctual
    cases punctual with
    | ahead later _ _ small => exact .inl ⟨Int.le_of_lt later, small⟩
    | due same => exact .inl (by omega)
    | overdue past cancel => exact .inr ⟨past, by omega⟩
  · rintro (⟨later, small⟩ | ⟨past, cancel⟩)
    · by_cases same : te.total = now.total
      · exact .due same
      · exact .ahead (by omega) (by omega) earliest small
    · exact .overdue past (.inl cancel)

theorem aeTvp_of_mayWait {flags : AeFlags} (waits : flags.MayWait) (el : AeTimers) (now : AeTime) :
    aeTvp el flags now = (aeSearchNearestTimer el).map (aeMissing · now) := by
  unfold aeTvp
  rw [if_pos (show flags.timeEvents ∧ ¬ flags.dontWait from waits)]
  cases aeSearchNearestTimer el with
  | none => exact if_neg waits.2
  | some te => rfl

/-- When `ae_process_events` may wait, the timeout is in time for the earliest event if and
only if the event that the search finds is not overdue, or is so by whole seconds. -/
theorem ae_timeout_iff (el : AeTimers) (maxfd : Int) (flags : AeFlags) (now : AeTime)
    (waits : flags.MayWait) :
    (∃ tvp, aeProcessEvents el maxfd flags now = some tvp ∧
        ∀ te, el.Earliest te → InTime te now tvp) ↔
      ∀ te, aeSearchNearestTimer el = some te → Punctual el te now := by
  have called : aeProcessEvents el maxfd flags now = some (aeTvp el flags now) := by
    unfold aeProcessEvents
    rw [if_neg (fun idle => idle.1 waits.1), if_pos (.inr waits)]
  have tvp := aeTvp_of_mayWait waits el now
  constructor
  case mp =>
    rintro ⟨_, same, inTime⟩ te found
    cases called.symm.trans same
    obtain ⟨mem, -⟩ := aeSearchNearestTimer_spec found
    obtain ⟨first, earliest⟩ := AeTimers.exists_earliest mem
    have right := inTime first earliest
    rw [tvp, found] at right
    exact punctual_of_inTime earliest mem right
  case mpr =>
    intro punctual
    refine ⟨_, called, fun first earliest => ?_⟩
    obtain ⟨te, found⟩ := aeSearchNearestTimer_isSome earliest.mem
    rw [tvp, found]
    exact (punctual te found).inTime earliest (aeSearchNearestTimer_spec found).1

/-- All events, and wait. -/
def aeAllEvents : AeFlags := ⟨true, true, false⟩

/-- Two events that are due at 9.9 and at 10.5 seconds. -/
def twoTimers : AeTimers := ⟨2, [⟨1, 10, 500, by decide⟩, ⟨0, 9, 900, by decide⟩]⟩

theorem ae_timeout_iff_ahead :
    ∃ tvp, aeProcessEvents twoTimers (-1) aeAllEvents ⟨9, 800, by decide⟩ = some tvp ∧
      ∀ te, twoTimers.Earliest te → InTime te ⟨9, 800, by decide⟩ tvp := by
  refine (ae_timeout_iff twoTimers (-1) aeAllEvents ⟨9, 800, by decide⟩
    ⟨rfl, by decide⟩).mpr fun te found => ?_
  cases found
  refine .ahead (by decide) (by decide) ⟨List.mem_cons_of_mem _ List.mem_cons_self, ?_⟩
    (by decide)
  intro other mem
  rcases List.mem_cons.mp mem with rfl | mem
  · decide
  · cases List.mem_singleton.mp mem
    decide

/-- An event that was due at 10.5 seconds. -/
def lateTimer : AeTimers := ⟨1, [⟨0, 10, 500, by decide⟩]⟩

/-- At 11.2 seconds, the loop waits for 0.3 more. -/
theorem ae_overdue_waits : ¬ ∀ el maxfd flags now, AeFlags.MayWait flags →
    ∃ tvp, aeProcessEvents el maxfd flags now = some tvp ∧
      ∀ te, el.Earliest te → InTime te now tvp := by
  intro claim
  obtain ⟨tvp, called, inTime⟩ := claim lateTimer (-1) aeAllEvents ⟨11, 200, by decide⟩
    ⟨rfl, by decide⟩
  cases called
  have earliest : lateTimer.Earliest ⟨0, 10, 500, by decide⟩ := by
    refine ⟨List.mem_cons_self, fun other mem => ?_⟩
    cases List.mem_singleton.mp mem
    exact Int.le_refl _
  have zero := (inTime _ earliest).zero (by decide)
  exact nomatch zero

end Verben
