import Mathlib.Data.List.Perm.Subperm
import Verben.Ae.Alarm

/-!
# The end of `process_time_events`

The loop restarts from the head of the list after every callback, so it only ends because an
event that was called is not due again. That is so if each callback that has to be called again
asks for a time that lies behind the last round. Then every event that is due at the start is
called, none is called twice, and the loop ends, unless a callback deletes its own event and asks
to be called again (`ae_pass_ends`).
-/

namespace Verben

open Alarms Transition

variable {entered loop loop' called : AeTimeLoop} {pass : AePass} {start : AeTime} {limit : Int}

/-- Of the events that were there at the start, those that may still be called. -/
def AeTimeLoop.waiting (loop : AeTimeLoop) (pass : AePass) (limit : Int) : List Int :=
  (loop.el.timeEventHead.filter fun te => te.id ≤ pass.maxid ∧ te.total ≤ limit).map
    AeTimeEvent.id

theorem AeTimeLoop.mem_waiting {id : Int} :
    id ∈ loop.waiting pass limit ↔
      ∃ te ∈ loop.el.timeEventHead, te.id = id ∧ id ≤ pass.maxid ∧ te.total ≤ limit := by
  unfold AeTimeLoop.waiting
  rw [List.mem_map]
  constructor
  · rintro ⟨te, mem, rfl⟩
    obtain ⟨mem, holds⟩ := List.mem_filter.mp mem
    exact ⟨te, mem, rfl, of_decide_eq_true holds⟩
  · rintro ⟨te, mem, rfl, holds⟩
    exact ⟨te, List.mem_filter.mpr ⟨mem, decide_eq_true holds⟩, rfl⟩

/-- What the loop has seen, called or lost of the events that were there at the start. -/
structure AeTimeLoop.Sweeping (entered loop : AeTimeLoop) (pass : AePass) (start : AeTime)
    (limit : Int) : Prop where
  passing : entered.Passing loop pass
  seen : ∀ te ∈ loop.el.timeEventHead,
    te ∈ pass.te ∨ pass.maxid < te.id ∨ ¬ te.Timeout start
  log : ∃ more, loop.log = entered.log ++ more ∧ (fires more).Nodup ∧
    (∀ te ∈ loop.el.timeEventHead, te.id ∈ fires more → limit < te.total) ∧
    ∀ te ∈ entered.el.timeEventHead,
      te ∈ loop.el.timeEventHead ∨ te.id ∈ fires more ∨ .drop te.id ∈ more

theorem AeTimeLoop.Kept.enter_sweeping (kept : loop.Kept) (start : AeTime) (limit : Int) :
    loop.Sweeping { loop with pass := some ⟨loop.el.timeEventNextId - 1, loop.el.timeEventHead⟩ }
      ⟨loop.el.timeEventNextId - 1, loop.el.timeEventHead⟩ start limit where
  passing := kept.enter
  seen := fun _ mem => .inl mem
  log := ⟨[], (List.append_nil _).symm, List.nodup_nil, fun _ _ was => (List.not_mem_nil was).elim,
    fun _ mem => .inl mem⟩

/-- A time event is due at all times behind one when it was. -/
theorem AeTimeEvent.Timeout.later {te : AeTimeEvent} {now : AeTime} (timeout : te.Timeout start)
    (later : start.total ≤ now.total) : te.Timeout now := by
  have range := start.ms_range
  have range' := now.ms_range
  unfold AeTime.total at later
  unfold AeTimeEvent.Timeout at timeout ⊢
  omega

theorem AeTimeLoop.Sweeping.skip (sweeping : entered.Sweeping loop pass start limit)
    {te : AeTimeEvent} {next : List AeTimeEvent} (cons : pass.te = te :: next)
    (skipped : pass.maxid < te.id ∨ ¬ te.Timeout start) :
    entered.Sweeping { loop with pass := some { pass with te := next } } { pass with te := next }
      start limit where
  passing := sweeping.passing.skip cons
  seen := by
    intro other mem
    rcases sweeping.seen other mem with ahead | seen
    · rw [cons] at ahead
      rcases List.mem_cons.mp ahead with rfl | ahead
      · exact .inr skipped
      · exact .inl ahead
    · exact .inr seen
  log := sweeping.log

theorem AeTimeLoop.Sweeping.fired (sweeping : entered.Sweeping loop pass start limit)
    {te : AeTimeEvent} {round : AeRound} (mem : te ∈ loop.el.timeEventHead)
    (old : te.id ≤ pass.maxid) (timeout : te.Timeout round.now) (now : round.now.total ≤ limit)
    (ahead : 0 < round.ret → limit < round.again.total + round.ret)
    (fired : loop.Fired called te round) :
    entered.Sweeping { called with pass := some { pass with te := called.el.timeEventHead } }
      { pass with te := called.el.timeEventHead } start limit where
  passing := sweeping.passing.fired mem old fired
  seen := fun _ mem => .inl mem
  log := by
    obtain ⟨more, log, nodup, behind, kept⟩ := sweeping.log
    obtain ⟨more', log', quiet, -, kept'⟩ := fired.log
    have first : te.id ∉ fires more := fun again =>
      absurd (Int.le_trans timeout.total now) (Int.not_le.mpr (behind te mem again))
    have split : fires (more ++ .fire te.id round.now.total :: more') = fires more ++ [te.id] := by
      rw [fires_append]
      exact congrArg (fires more ++ te.id :: ·) quiet
    refine ⟨more ++ .fire te.id round.now.total :: more', ?_, ?_, ?_, ?_⟩
    · change called.log = _
      rw [log', log, List.append_assoc]
    · rw [split, List.nodup_append]
      refine ⟨nodup, List.nodup_cons.mpr ⟨List.not_mem_nil, List.nodup_nil⟩, ?_⟩
      intro id inside other is same
      rw [same, List.mem_singleton.mp is] at inside
      exact first inside
    · intro other inside was
      rw [split] at was
      rcases fired.old other inside with ⟨inside, ne⟩ | new | ⟨-, positive, due⟩
      · rcases List.mem_append.mp was with was | same
        · exact behind other inside was
        · exact absurd (List.mem_singleton.mp same) ne
      · -- a new event has not been called
        have old' : other.id < loop.el.timeEventNextId := by
          rcases List.mem_append.mp was with was | same
          · obtain ⟨now, mem⟩ := mem_fires.mp was
            have known := sweeping.passing.kept.sound.fired
              (log ▸ List.mem_append_right entered.log mem)
            exact sweeping.passing.kept.known _ known
          · rw [List.mem_singleton.mp same]
            exact sweeping.passing.kept.below te mem
        exact absurd new (Int.not_le.mpr old')
      · rw [due]
        exact ahead positive
    · intro other inside
      rw [split]
      rcases kept other inside with inside | was | dropped
      · rcases kept' other inside with inside | dropped | same
        · exact .inl inside
        · exact .inr (.inr (List.mem_append_right _ (List.mem_cons_of_mem _ dropped)))
        · exact .inr (.inl (List.mem_append_right _ (List.mem_singleton.mpr same)))
      · exact .inr (.inl (List.mem_append_left _ was))
      · exact .inr (.inr (List.mem_append_left _ dropped))

/-- Every callback leaves fewer events that may be called. -/
theorem AeTimeLoop.Fired.waiting {te : AeTimeEvent} {round : AeRound}
    (fired : loop.Fired called te round) (mem : te ∈ loop.el.timeEventHead)
    (old : te.id ≤ pass.maxid) (low : pass.maxid < loop.el.timeEventNextId)
    (due : te.total ≤ limit) (ahead : 0 < round.ret → limit < round.again.total + round.ret) :
    (called.waiting pass limit).length < (loop.waiting pass limit).length := by
  have here : te.id ∈ loop.waiting pass limit :=
    AeTimeLoop.mem_waiting.mpr ⟨te, mem, rfl, old, due⟩
  have nodup : (called.waiting pass limit).Nodup := by
    have nodup := (fired.kept.descending.filter fun te =>
      decide (te.id ≤ pass.maxid ∧ te.total ≤ limit)).imp fun later => Int.ne_of_gt later
    exact List.pairwise_map.mpr nodup
  have left : called.waiting pass limit ⊆ (loop.waiting pass limit).erase te.id := by
    intro id inside
    obtain ⟨other, there, rfl, low', due'⟩ := AeTimeLoop.mem_waiting.mp inside
    rcases fired.old other there with ⟨was, ne⟩ | new | ⟨-, positive, again⟩
    · exact (List.mem_erase_of_ne ne).mpr
        (AeTimeLoop.mem_waiting.mpr ⟨other, was, rfl, low', due'⟩)
    · omega
    · have := ahead positive
      omega
  have shorter := (List.subperm_of_subset nodup left).length_le
  rw [List.length_erase_of_mem here] at shorter
  exact Nat.lt_of_le_of_lt shorter (Nat.sub_lt (List.length_pos_of_mem here) Nat.one_pos)

/-! ## The whole loop -/

/-- A callback that asks to be called again has no result if it deleted its own event, and only
then. -/
theorem AeTimeLoop.Kept.timeProc_none (kept : loop.Kept) {te : AeTimeEvent} {round : AeRound}
    (mem : te ∈ loop.el.timeEventHead) (timeout : te.Timeout round.now)
    (freed : loop.timeProc te.id round = none) :
    0 < round.ret ∧ .delete te.id ∈ round.calls := by
  have called := (kept.fire mem timeout).calls round.calls
  unfold AeTimeLoop.timeProc at freed
  generalize List.foldl AeTimeLoop.call _ round.calls = middle at called freed
  simp only at freed
  split at freed
  · next again =>
      rw [Option.map_eq_none_iff, aeRearm_eq_none] at freed
      obtain ⟨more, -, -, -, old⟩ := called.log
      rcases old te mem with inside | ⟨-, deleted⟩
      · rw [called.kept.descending.dueIn inside] at freed
        cases freed
      · exact ⟨again, deleted⟩
  · cases freed

/-- The state in which a round writes to an event that is gone. -/
structure AeTimeLoop.Freed (loop : AeTimeLoop) (round : AeRound) : Prop where
  stuck : loop.step (.round round) = none
  own : ∃ pass te next, loop.pass = some pass ∧ pass.te = te :: next ∧
    te.Timeout round.now ∧ 0 < round.ret ∧ .delete te.id ∈ round.calls

/-- The state behind `process_time_events`. -/
structure AeTimeLoop.Swept (entered loop : AeTimeLoop) (start : AeTime) : Prop where
  outside : loop.pass = none
  log : ∃ more, loop.log = entered.log ++ more ∧ (fires more).Nodup ∧
    ∀ te ∈ entered.el.timeEventHead, te.Timeout start →
      te.id ∈ fires more ∨ .drop te.id ∈ more

theorem AeTimeLoop.Sweeping.swept (sweeping : entered.Sweeping loop pass start limit)
    (empty : pass.te = []) : entered.Swept { loop with pass := none } start where
  outside := rfl
  log := by
    obtain ⟨more, log, nodup, -, kept⟩ := sweeping.log
    refine ⟨more, log, nodup, fun te mem timeout => ?_⟩
    rcases kept te mem with still | gone
    · rcases sweeping.seen te still with ahead | new | early
      · rw [empty] at ahead
        cases ahead
      · -- it was there when the loop was entered
        have maxid := sweeping.passing.maxid
        have below := sweeping.passing.below te mem
        omega
      · exact absurd timeout early
    · exact gone

/-- From any round on the loop ends. -/
theorem AeTimeLoop.Sweeping.ends {rounds : Nat → AeRound}
    (clock : ∀ k, start.total ≤ (rounds k).now.total ∧ (rounds k).now.total ≤ limit)
    (ahead : ∀ k, 0 < (rounds k).ret → limit < (rounds k).again.total + (rounds k).ret)
    {loop : AeTimeLoop} {pass : AePass} (k : Nat) (sweeping : entered.Sweeping loop pass start limit) :
    ∃ n loop', run AeTimeLoop.step loop ((List.range' k n).map (.round <| rounds ·)) = some loop' ∧
      (entered.Swept loop' start ∨ loop'.Freed (rounds (k + n))) := by
  have step := AeTimeLoop.step_round sweeping.passing.here
  cases ran : loop.round pass (rounds k) with
  | none =>
      refine ⟨0, loop, rfl, .inr ⟨(step _).trans ran, pass, ?_⟩⟩
      unfold AeTimeLoop.round at ran
      split at ran
      · cases ran
      · next te next cons =>
          have mem : te ∈ loop.el.timeEventHead :=
            sweeping.passing.te.subset (by rw [cons]; exact .head next)
          split at ran
          · cases ran
          · split at ran
            · next timeout =>
                rw [Option.map_eq_none_iff] at ran
                exact ⟨te, next, sweeping.passing.here, cons, timeout,
                  sweeping.passing.kept.timeProc_none mem timeout ran⟩
            · cases ran
  | some loop' =>
      have on : ∀ pass', entered.Sweeping loop' pass' start limit →
          (loop'.waiting pass' limit).length < (loop.waiting pass limit).length ∨
            ((loop'.waiting pass' limit).length = (loop.waiting pass limit).length ∧
              pass'.te.length < pass.te.length) →
          ∃ n final,
            run AeTimeLoop.step loop ((List.range' k n).map (.round <| rounds ·)) = some final ∧
              (entered.Swept final start ∨ final.Freed (rounds (k + n))) := by
        intro pass' sweeping' less
        obtain ⟨n, final, rest, ends⟩ := sweeping'.ends clock ahead (k + 1)
        refine ⟨n + 1, final, run_cons ((step _).trans ran) rest, ?_⟩
        rwa [Nat.add_right_comm, Nat.add_assoc] at ends
      rcases AeTimeLoop.round_cases ran with ⟨empty, rfl⟩ |
        ⟨te, next, cons, ⟨skipped, rfl⟩ | ⟨old, timeout, called, proc, rfl⟩⟩
      · exact ⟨1, _, run_cons ((step _).trans ran) rfl, .inl (sweeping.swept empty)⟩
      · have skipped : pass.maxid < te.id ∨ ¬ te.Timeout start :=
          skipped.imp_right fun early timeout => early (timeout.later (clock k).1)
        refine on _ (sweeping.skip cons skipped) (.inr ⟨rfl, ?_⟩)
        rw [cons]
        exact Nat.lt_succ_self _
      · have mem : te ∈ loop.el.timeEventHead :=
          sweeping.passing.te.subset (by rw [cons]; exact .head next)
        have fired := sweeping.passing.kept.timeProc mem timeout proc
        have low : pass.maxid < loop.el.timeEventNextId := by
          have maxid := sweeping.passing.maxid
          have next := sweeping.passing.next
          omega
        refine on _ (sweeping.fired mem old timeout (clock k).2 (ahead k) fired) (.inl ?_)
        exact fired.waiting mem old low (Int.le_trans timeout.total (clock k).2) (ahead k)
termination_by ((loop.waiting pass limit).length, pass.te.length)
decreasing_by
  rcases less with fewer | ⟨same, shorter⟩
  · exact Prod.Lex.left _ _ fewer
  · rw [same]
    exact Prod.Lex.right _ shorter

/-- `process_time_events` ends if no callback asks for a time before the last round. Then it has
called every event that was due at the start or deleted it, and none twice. Else a callback has
deleted its own event and asks to be called again: the code writes to freed memory. -/
theorem ae_pass_ends {acts : List AeTimeAct} (ran : run AeTimeLoop.step .create acts = some entered)
    (outside : entered.pass = none) {rounds : Nat → AeRound}
    (clock : ∀ k, start.total ≤ (rounds k).now.total ∧ (rounds k).now.total ≤ limit)
    (ahead : ∀ k, 0 < (rounds k).ret → limit < (rounds k).again.total + (rounds k).ret) :
    ∃ n loop, run AeTimeLoop.step entered
        (.enter :: (List.range n).map (.round <| rounds ·)) = some loop ∧
      (entered.Swept loop start ∨ loop.Freed (rounds n)) := by
  have kept := (AeTimeLoop.running_of_run ran).kept
  obtain ⟨n, loop, rest, ends⟩ := (kept.enter_sweeping start limit).ends clock ahead 0
  rw [Nat.zero_add] at ends
  rw [← List.range_eq_range'] at rest
  refine ⟨n, loop, run_cons ?_ rest, ends⟩
  unfold AeTimeLoop.step
  rw [outside]

theorem zero_ms_range : (0 : Int) ≤ 0 ∧ (0 : Int) < 1000 := by decide

/-- A time event that is called once a second, and the loop with it. -/
def cronTimesRound : AeRound := ⟨⟨1, 0, zero_ms_range⟩, [], 1000, ⟨1, 0, zero_ms_range⟩⟩
def cronTimes : AeTimeLoop := ⟨⟨1, [⟨0, 0, 1, by decide⟩]⟩, none, [.arm 0 1]⟩

theorem ae_pass_ends_cron :
    ∃ n loop, run AeTimeLoop.step cronTimes
        (.enter :: (List.range n).map fun _ => .round cronTimesRound) = some loop ∧
      (cronTimes.Swept loop ⟨1, 0, by decide⟩ ∨ loop.Freed cronTimesRound) := by
  have ran : run AeTimeLoop.step .create [.call (.create 1 ⟨0, 0, by decide⟩ true)] =
      some cronTimes := rfl
  have clock : 1000 ≤ cronTimesRound.now.total ∧ cronTimesRound.now.total ≤ 1000 := by decide
  have ahead : 0 < cronTimesRound.ret → 1000 < cronTimesRound.again.total + cronTimesRound.ret := by decide
  exact ae_pass_ends ran rfl (fun _ => clock) (fun _ => ahead)

end Verben
