import Verben.Ae.Process

/-!
# Time events over a run

Over any run the list of time events is what the log says is armed (`AeTimeLoop.Kept`). A
callback is never called early, and never for an event that was deleted.
`process_time_events` calls none for an event that was created since it was entered.
-/

namespace Verben

open Alarms Transition

/-- The list, the identifiers and the log of a loop. -/
structure AeTimeLoop.Kept (loop : AeTimeLoop) : Prop where
  descending : Descending loop.el.timeEventHead
  below : ∀ te ∈ loop.el.timeEventHead, te.id < loop.el.timeEventNextId
  known : ∀ id, Known loop.log id → id < loop.el.timeEventNextId
  armed : armed loop.log = dueIn loop.el.timeEventHead
  sound : Sound loop.log

variable {loop loop' : AeTimeLoop} {id : Int}

theorem AeTimeLoop.create_kept : AeTimeLoop.create.Kept where
  descending := .nil
  below := fun te mem => by cases mem
  known := fun id known => by
    obtain ⟨due, mem⟩ := known
    cases mem
  armed := rfl
  sound := sound_nil

/-- An entry that arms nothing new. -/
theorem known_concat {log : List (Entry Int Int)} {entry : Entry Int Int}
    (old : ∀ due, entry ≠ .arm id due) (known : Known (log ++ [entry]) id) : Known log id := by
  obtain ⟨due, mem⟩ := known
  rcases List.mem_append.mp mem with mem | mem
  · exact ⟨due, mem⟩
  · exact absurd (List.mem_singleton.mp mem).symm (old due)

/-! ## One call -/

/-- What calls leave of the events, and how the log grows. -/
structure AeTimeLoop.Called (loop loop' : AeTimeLoop) (deleted : Int → Prop) : Prop where
  kept : loop'.Kept
  next : loop.el.timeEventNextId ≤ loop'.el.timeEventNextId
  pass : loop'.pass = loop.pass
  old : ∀ te ∈ loop'.el.timeEventHead,
    te ∈ loop.el.timeEventHead ∨ loop.el.timeEventNextId ≤ te.id
  log : ∃ more, loop'.log = loop.log ++ more ∧ fires more = [] ∧
    (∀ id due, .arm id due ∈ more → loop.el.timeEventNextId ≤ id) ∧
    ∀ te ∈ loop.el.timeEventHead,
      te ∈ loop'.el.timeEventHead ∨ (.drop te.id ∈ more ∧ deleted te.id)

theorem AeTimeLoop.Kept.called_self (kept : loop.Kept) (deleted : Int → Prop) :
    loop.Called loop deleted where
  kept := kept
  next := Int.le_refl _
  pass := rfl
  old := fun _ mem => .inl mem
  log := ⟨[], (List.append_nil _).symm, rfl, nofun, fun _ mem => .inl mem⟩

theorem AeTimeLoop.Called.trans {middle : AeTimeLoop} {deleted : Int → Prop}
    (first : loop.Called middle deleted) (second : middle.Called loop' deleted) :
    loop.Called loop' deleted where
  kept := second.kept
  next := Int.le_trans first.next second.next
  pass := second.pass.trans first.pass
  old := by
    intro te mem
    rcases second.old te mem with mem | new
    · exact first.old te mem
    · exact .inr (Int.le_trans first.next new)
  log := by
    obtain ⟨more, log, quiet, new, old⟩ := first.log
    obtain ⟨more', log', quiet', new', old'⟩ := second.log
    refine ⟨more ++ more', ?_, ?_, ?_, ?_⟩
    · rw [log', log, List.append_assoc]
    · rw [fires_append, quiet, quiet']
      rfl
    · intro id due mem
      rcases List.mem_append.mp mem with mem | mem
      · exact new id due mem
      · exact Int.le_trans first.next (new' id due mem)
    · intro te mem
      rcases old te mem with mem | ⟨dropped, by'⟩
      · rcases old' te mem with mem | ⟨dropped, by'⟩
        · exact .inl mem
        · exact .inr ⟨List.mem_append_right _ dropped, by'⟩
      · exact .inr ⟨List.mem_append_left _ dropped, by'⟩

/-- `ae_create_time_event`. -/
theorem AeTimeLoop.Kept.create (kept : loop.Kept) (ms : Int) (now : AeTime) (alloc : Bool)
    (deleted : Int → Prop) : loop.Called (loop.call (.create ms now alloc)) deleted := by
  have unknown : ¬ Known loop.log loop.el.timeEventNextId := fun known =>
    Int.lt_irrefl _ (kept.known _ known)
  cases alloc with
  | false =>
      refine ⟨⟨kept.descending, ?_, ?_, kept.armed, kept.sound⟩, ?_, rfl, fun te mem => .inl mem,
        [], (List.append_nil _).symm, rfl, nofun, fun _ mem => .inl mem⟩
      · exact fun te mem => Int.lt_add_one_of_le (Int.le_of_lt <| kept.below te mem)
      · exact fun id known => Int.lt_add_one_of_le (Int.le_of_lt <| kept.known id known)
      · exact Int.le_add_one (Int.le_refl _)
  | true =>
      refine ⟨⟨?_, ?_, ?_, ?_, ?_⟩, ?_, rfl, ?_, [.arm loop.el.timeEventNextId (now.total + ms)],
        rfl, rfl, ?_, ?_⟩
      · exact List.pairwise_cons.mpr ⟨kept.below, kept.descending⟩
      · intro te mem
        rcases List.mem_cons.mp mem with rfl | mem
        · exact Int.lt_succ _
        · exact Int.lt_add_one_of_le (Int.le_of_lt <| kept.below te mem)
      · intro id known
        obtain ⟨due, mem⟩ := known
        rcases List.mem_append.mp mem with mem | mem
        · exact Int.lt_add_one_of_le (Int.le_of_lt <| kept.known id ⟨due, mem⟩)
        · cases List.mem_singleton.mp mem
          exact Int.lt_succ _
      · change Alarms.armed (loop.log ++ [_]) = dueIn (_ :: _)
        have due := (aeAddMillisecondsToNow_spec ms now).2.2
        rw [armed_concat, dueIn_cons, kept.armed]
        exact congrArg _ (congrArg _ due.symm)
      · exact kept.sound.concat unknown
      · exact Int.le_add_one (Int.le_refl _)
      · intro te mem
        rcases List.mem_cons.mp mem with rfl | mem
        · exact .inr (Int.le_refl _)
        · exact .inl mem
      · intro id due mem
        cases List.mem_singleton.mp mem
        exact Int.le_refl _
      · exact fun te mem => .inl (List.mem_cons_of_mem _ mem)

theorem mem_aeUnlink {events left : List AeTimeEvent} (unlinked : aeUnlink id events = some left)
    {te : AeTimeEvent} (mem : te ∈ events) : te.id = id ∨ te ∈ left := by
  induction events generalizing left with
  | nil => cases mem
  | cons first next ih =>
      unfold aeUnlink at unlinked
      split at unlinked
      · next same =>
          cases unlinked
          rcases List.mem_cons.mp mem with rfl | mem
          · exact .inl same
          · exact .inr mem
      · obtain ⟨rest, found, rfl⟩ := Option.map_eq_some_iff.mp unlinked
        rcases List.mem_cons.mp mem with rfl | mem
        · exact .inr List.mem_cons_self
        · exact (ih found mem).imp_right (List.mem_cons_of_mem _)

/-- `ae_delete_time_event`. -/
theorem AeTimeLoop.Kept.delete (kept : loop.Kept) {deleted : Int → Prop} (by' : deleted id) :
    loop.Called (loop.call (.delete id)) deleted := by
  cases unlinked : aeUnlink id loop.el.timeEventHead with
  | none =>
      have same : loop.call (.delete id) = loop := by
        simp only [AeTimeLoop.call, aeDeleteTimeEvent, unlinked, Option.map_none]
      rw [same]
      exact kept.called_self deleted
  | some left =>
      have gone : loop.call (.delete id) =
          { loop with
            el := { loop.el with timeEventHead := left }, log := loop.log ++ [.drop id] } := by
        simp only [AeTimeLoop.call, aeDeleteTimeEvent, unlinked, Option.map_some]
      rw [gone]
      have sub := aeUnlink_sublist unlinked
      have isSome : (dueIn loop.el.timeEventHead id).isSome := by
        rw [Option.isSome_iff_ne_none, Ne, ← aeUnlink_eq_none, unlinked]
        exact Option.some_ne_none left
      refine ⟨⟨kept.descending.sublist sub, ?_, ?_, ?_, ?_⟩, Int.le_refl _, rfl, ?_, [.drop id], rfl,
        rfl, ?_, ?_⟩
      · exact fun te mem => kept.below te (sub.subset mem)
      · exact fun id' known => kept.known id' (known_concat (fun due same => by cases same) known)
      · change Alarms.armed (loop.log ++ [_]) = dueIn left
        rw [armed_concat, kept.armed, dueIn_aeUnlink kept.descending unlinked]
        rfl
      · refine kept.sound.concat ?_
        change (Alarms.armed loop.log id).isSome
        rw [kept.armed]
        exact isSome
      · exact fun te mem => .inl (sub.subset mem)
      · intro id due mem
        cases List.mem_singleton.mp mem
      · intro te mem
        rcases mem_aeUnlink unlinked mem with rfl | mem
        · exact .inr ⟨List.mem_singleton_self _, by'⟩
        · exact .inl mem

/-- A deleted event is gone, if there was one or not. -/
theorem dueIn_delete (kept : loop.Kept) :
    dueIn (loop.call (.delete id)).el.timeEventHead id = none := by
  simp only [AeTimeLoop.call, aeDeleteTimeEvent]
  cases unlinked : aeUnlink id loop.el.timeEventHead with
  | none => exact aeUnlink_eq_none.mp unlinked
  | some left =>
      change dueIn left id = none
      rw [dueIn_aeUnlink kept.descending unlinked, Function.update_self]

theorem AeTimeLoop.Kept.calls (kept : loop.Kept) (calls : List AeTimeCall) :
    loop.Called (calls.foldl AeTimeLoop.call loop) (.delete · ∈ calls) := by
  have all : ∀ rest : List AeTimeCall, rest ⊆ calls → ∀ loop : AeTimeLoop, loop.Kept →
      loop.Called (rest.foldl AeTimeLoop.call loop) (.delete · ∈ calls) := by
    intro rest
    induction rest with
    | nil => exact fun _ loop kept => kept.called_self _
    | cons call rest ih =>
        intro sub loop kept
        have one : loop.Called (loop.call call) (.delete · ∈ calls) := by
          cases call with
          | create ms now alloc => exact kept.create ms now alloc _
          | delete id => exact kept.delete (sub List.mem_cons_self)
        exact one.trans (ih (List.subset_of_cons_subset sub) _ one.kept)
  exact all calls (List.Subset.refl _) loop kept

/-! ## A callback -/

/-- The log is longer by a callback. -/
theorem AeTimeLoop.Kept.fire (kept : loop.Kept) {te : AeTimeEvent} {now : AeTime}
    (mem : te ∈ loop.el.timeEventHead) (timeout : te.Timeout now) :
    AeTimeLoop.Kept { loop with log := loop.log ++ [.fire te.id now.total] } where
  descending := kept.descending
  below := kept.below
  known := fun id known => kept.known id (known_concat (fun due same => by cases same) known)
  armed := by
    rw [armed_concat, kept.armed, Entry.apply]
  sound := by
    refine kept.sound.concat ⟨te.total, ?_, timeout.total⟩
    rw [kept.armed]
    exact kept.descending.dueIn mem

theorem mem_aeRearm {events left : List AeTimeEvent} {ms : Int} {now : AeTime}
    (rearmed : aeRearm id ms now events = some left) {te : AeTimeEvent} (other : te.id ≠ id) :
    te ∈ left ↔ te ∈ events := by
  induction events generalizing left with
  | nil => cases rearmed
  | cons first next ih =>
      unfold aeRearm at rearmed
      split at rearmed
      · next same =>
          cases rearmed
          rw [List.mem_cons, List.mem_cons]
          refine or_congr_left ⟨?_, ?_⟩
          · rintro rfl
            exact absurd rfl other
          · rintro rfl
            exact absurd same other
      · obtain ⟨rest, found, rfl⟩ := Option.map_eq_some_iff.mp rearmed
        rw [List.mem_cons, List.mem_cons, ih found]

/-- What a callback, and what is done with its event then, leave. -/
structure AeTimeLoop.Fired (loop loop' : AeTimeLoop) (te : AeTimeEvent) (round : AeRound) :
    Prop where
  kept : loop'.Kept
  next : loop.el.timeEventNextId ≤ loop'.el.timeEventNextId
  pass : loop'.pass = loop.pass
  old : ∀ other ∈ loop'.el.timeEventHead,
    (other ∈ loop.el.timeEventHead ∧ other.id ≠ te.id) ∨ loop.el.timeEventNextId ≤ other.id ∨
      (other.id = te.id ∧ 0 < round.ret ∧ other.total = round.again.total + round.ret)
  log : ∃ more, loop'.log = loop.log ++ .fire te.id round.now.total :: more ∧ fires more = [] ∧
    (∀ id due, .arm id due ∈ more → loop.el.timeEventNextId ≤ id) ∧
    ∀ other ∈ loop.el.timeEventHead,
      other ∈ loop'.el.timeEventHead ∨ .drop other.id ∈ more ∨ other.id = te.id

theorem AeTimeLoop.Kept.timeProc (kept : loop.Kept) {te : AeTimeEvent} {round : AeRound}
    (mem : te ∈ loop.el.timeEventHead) (timeout : te.Timeout round.now)
    (ran : loop.timeProc te.id round = some loop') : loop.Fired loop' te round := by
  have called := (kept.fire mem timeout).calls round.calls
  unfold AeTimeLoop.timeProc at ran
  generalize List.foldl AeTimeLoop.call _ round.calls = middle at called ran
  simp only at ran
  obtain ⟨more, log, quiet, new, old⟩ := called.log
  rw [List.append_assoc] at log
  split at ran
  · next again =>
      obtain ⟨head, rearmed, rfl⟩ := Option.map_eq_some_iff.mp ran
      have ids := aeRearm_ids rearmed
      have due := dueIn_aeRearm rearmed
      have isSome : (dueIn middle.el.timeEventHead te.id).isSome := by
        rw [Option.isSome_iff_ne_none, Ne, ← aeRearm_eq_none, rearmed]
        exact Option.some_ne_none head
      have descending : Descending head := by
        have descending := List.pairwise_map.mpr called.kept.descending
        rw [← ids] at descending
        exact List.pairwise_map.mp descending
      refine ⟨⟨descending, ?_, ?_, ?_, ?_⟩, called.next, called.pass, ?_,
        more ++ [.rearm te.id (round.again.total + round.ret)], ?_, ?_, ?_, ?_⟩
      · intro other inside
        have known : other.id ∈ middle.el.timeEventHead.map AeTimeEvent.id :=
          ids ▸ List.mem_map_of_mem inside
        obtain ⟨was, inside, same⟩ := List.mem_map.mp known
        exact same ▸ called.kept.below was inside
      · exact fun id known =>
          called.kept.known id (known_concat (fun due same => by cases same) known)
      · rw [armed_concat, called.kept.armed, due, Entry.apply]
      · refine called.kept.sound.concat ?_
        change (Alarms.armed middle.log te.id).isSome
        rw [called.kept.armed]
        exact isSome
      · intro other inside
        by_cases same : other.id = te.id
        · have total := descending.dueIn inside
          rw [due, same, Function.update_self] at total
          exact .inr (.inr ⟨same, again, (Option.some.inj total).symm⟩)
        · have inside := (mem_aeRearm rearmed same).mp inside
          exact (called.old other inside).imp (⟨·, same⟩) .inl
      · simp [log]
      · rw [fires_append, quiet]
        rfl
      · intro id due inside
        rcases List.mem_append.mp inside with inside | inside
        · exact new id due inside
        · cases List.mem_singleton.mp inside
      · intro other inside
        by_cases same : other.id = te.id
        · exact .inr (.inr same)
        · rcases old other inside with inside | ⟨dropped, -⟩
          · exact .inl ((mem_aeRearm rearmed same).mpr inside)
          · exact .inr (.inl (List.mem_append_left _ dropped))
  · cases ran
    have deleted : middle.Called (middle.call (.delete te.id)) fun _ => True :=
      called.kept.delete trivial
    have gone : ∀ other ∈ (middle.call (.delete te.id)).el.timeEventHead, other.id ≠ te.id := by
      intro other inside same
      have total := deleted.kept.descending.dueIn inside
      rw [same, dueIn_delete called.kept] at total
      cases total
    obtain ⟨more', log', quiet', new', old'⟩ := deleted.log
    refine ⟨deleted.kept, Int.le_trans called.next deleted.next, deleted.pass.trans called.pass, ?_,
      more ++ more', ?_, ?_, ?_, ?_⟩
    · intro other inside
      have ne := gone other inside
      rcases deleted.old other inside with inside | new
      · exact (called.old other inside).imp (⟨·, ne⟩) .inl
      · exact .inr (.inl (Int.le_trans called.next new))
    · simp [log', log]
    · rw [fires_append, quiet, quiet']
      rfl
    · intro id due inside
      rcases List.mem_append.mp inside with inside | inside
      · exact new id due inside
      · exact Int.le_trans called.next (new' id due inside)
    · intro other inside
      rcases old other inside with inside | ⟨dropped, -⟩
      · rcases old' other inside with inside | ⟨dropped, -⟩
        · exact .inl inside
        · exact .inr (.inl (List.mem_append_right _ dropped))
      · exact .inr (.inl (List.mem_append_left _ dropped))

/-! ## A round -/

theorem AeTimeLoop.step_round {pass : AePass} (here : loop.pass = some pass) (round : AeRound) :
    loop.step (.round round) = loop.round pass round := by
  unfold AeTimeLoop.step
  rw [here]

/-- What a round is: the end, an event that is not called, or a callback. -/
theorem AeTimeLoop.round_cases {pass : AePass} {round : AeRound}
    (ran : loop.round pass round = some loop') :
    (pass.te = [] ∧ loop' = { loop with pass := none }) ∨
    ∃ te next, pass.te = te :: next ∧
      (((pass.maxid < te.id ∨ ¬ te.Timeout round.now) ∧
        loop' = { loop with pass := some { pass with te := next } }) ∨
      (te.id ≤ pass.maxid ∧ te.Timeout round.now ∧
        ∃ called, loop.timeProc te.id round = some called ∧
          loop' = { called with pass := some { pass with te := called.el.timeEventHead } })) := by
  unfold AeTimeLoop.round at ran
  split at ran
  · next empty =>
      cases ran
      exact .inl ⟨empty, rfl⟩
  · next te next cons =>
      refine .inr ⟨te, next, cons, ?_⟩
      split at ran
      · next new =>
          cases ran
          exact .inl ⟨.inl new, rfl⟩
      · next old =>
          split at ran
          · next timeout =>
              obtain ⟨called, proc, rfl⟩ := Option.map_eq_some_iff.mp ran
              exact .inr ⟨Int.not_lt.mp old, timeout, called, proc, rfl⟩
          · next early =>
              cases ran
              exact .inl ⟨.inr early, rfl⟩

/-- A loop in `process_time_events`, and the loop that entered it. -/
structure AeTimeLoop.Passing (entered loop : AeTimeLoop) (pass : AePass) : Prop where
  here : loop.pass = some pass
  kept : loop.Kept
  maxid : pass.maxid = entered.el.timeEventNextId - 1
  next : entered.el.timeEventNextId ≤ loop.el.timeEventNextId
  below : ∀ te ∈ entered.el.timeEventHead, te.id < entered.el.timeEventNextId
  te : pass.te <:+ loop.el.timeEventHead
  old : ∀ te ∈ loop.el.timeEventHead, te.id ≤ pass.maxid →
    (dueIn entered.el.timeEventHead te.id).isSome
  log : ∃ more, loop.log = entered.log ++ more ∧
    ∀ id ∈ fires more, (dueIn entered.el.timeEventHead id).isSome

theorem AeTimeLoop.Kept.enter (kept : loop.Kept) :
    loop.Passing { loop with pass := some ⟨loop.el.timeEventNextId - 1, loop.el.timeEventHead⟩ }
      ⟨loop.el.timeEventNextId - 1, loop.el.timeEventHead⟩ where
  here := rfl
  kept := ⟨kept.descending, kept.below, kept.known, kept.armed, kept.sound⟩
  maxid := rfl
  next := Int.le_refl _
  below := kept.below
  te := List.suffix_refl _
  old := fun te mem _ => dueIn_isSome.mpr ⟨te, mem, rfl⟩
  log := ⟨[], (List.append_nil _).symm, nofun⟩

variable {entered : AeTimeLoop} {pass : AePass} {round : AeRound}

/-- The next event of the list. -/
theorem AeTimeLoop.Passing.skip (passing : entered.Passing loop pass) {te : AeTimeEvent}
    {next : List AeTimeEvent} (cons : pass.te = te :: next) :
    entered.Passing { loop with pass := some { pass with te := next } } { pass with te := next } where
  here := rfl
  kept := ⟨passing.kept.descending, passing.kept.below, passing.kept.known, passing.kept.armed,
    passing.kept.sound⟩
  maxid := passing.maxid
  next := passing.next
  below := passing.below
  te := List.IsSuffix.trans (List.suffix_cons te next) (cons ▸ passing.te)
  old := passing.old
  log := passing.log

/-- A callback, and the head of the list. -/
theorem AeTimeLoop.Passing.fired (passing : entered.Passing loop pass) {te : AeTimeEvent}
    (mem : te ∈ loop.el.timeEventHead) (old : te.id ≤ pass.maxid) {called : AeTimeLoop}
    (fired : loop.Fired called te round) :
    entered.Passing { called with pass := some { pass with te := called.el.timeEventHead } }
      { pass with te := called.el.timeEventHead } where
  here := rfl
  kept := ⟨fired.kept.descending, fired.kept.below, fired.kept.known, fired.kept.armed,
    fired.kept.sound⟩
  maxid := passing.maxid
  next := Int.le_trans passing.next fired.next
  below := passing.below
  te := List.suffix_refl _
  old := by
    intro other inside low
    rcases fired.old other inside with ⟨inside, -⟩ | new | ⟨same, -⟩
    · exact passing.old other inside low
    · have := passing.next
      have := passing.maxid
      have : other.id ≤ pass.maxid := low
      omega
    · rw [same]
      exact passing.old te mem old
  log := by
    obtain ⟨more, log, known⟩ := passing.log
    obtain ⟨more', log', quiet, -⟩ := fired.log
    refine ⟨more ++ .fire te.id round.now.total :: more', ?_, ?_⟩
    · change called.log = _
      rw [log', log, List.append_assoc]
    · intro id inside
      rw [fires_append] at inside
      rcases List.mem_append.mp inside with inside | inside
      · exact known id inside
      · change id ∈ te.id :: fires more' at inside
        rw [quiet] at inside
        rw [List.mem_singleton.mp inside]
        exact passing.old te mem old

/-- A round goes on, or ends with the list. -/
theorem AeTimeLoop.Passing.after (passing : entered.Passing loop pass)
    (ran : loop.round pass round = some loop') :
    (pass.te = [] ∧ loop' = { loop with pass := none }) ∨ ∃ pass', entered.Passing loop' pass' := by
  rcases AeTimeLoop.round_cases ran with done | ⟨te, next, cons, ⟨-, rfl⟩ |
    ⟨old, timeout, called, proc, rfl⟩⟩
  · exact .inl done
  · exact .inr ⟨_, passing.skip cons⟩
  · have mem : te ∈ loop.el.timeEventHead := passing.te.subset (by rw [cons]; exact .head next)
    exact .inr ⟨_, passing.fired mem old (passing.kept.timeProc mem timeout proc)⟩

/-! ## A run -/

/-- Outside of `process_time_events`, or in it since some loop entered it. -/
structure AeTimeLoop.Running (loop : AeTimeLoop) : Prop where
  kept : loop.Kept
  inside : ∀ pass, loop.pass = some pass → ∃ entered : AeTimeLoop, entered.Passing loop pass

theorem AeTimeLoop.Kept.running (kept : loop.Kept) (outside : loop.pass = none) : loop.Running :=
  ⟨kept, fun pass inside => by rw [outside] at inside; cases inside⟩

theorem AeTimeLoop.Running.step (running : loop.Running) {act : AeTimeAct}
    (stepped : loop.step act = some loop') : loop'.Running := by
  unfold AeTimeLoop.step at stepped
  cases act with
  | call call =>
      simp only at stepped
      split at stepped
      · next outside =>
          cases stepped
          have called := running.kept.calls [call]
          exact called.kept.running (called.pass.trans outside)
      · cases stepped
  | enter =>
      simp only at stepped
      split at stepped
      · cases stepped
        have passing := running.kept.enter
        refine ⟨passing.kept, fun pass inside => ⟨loop, ?_⟩⟩
        cases inside
        exact passing
      · cases stepped
  | round round =>
      simp only at stepped
      split at stepped
      · cases stepped
      · next pass inside =>
          obtain ⟨entered, passing⟩ := running.inside pass inside
          rcases passing.after stepped with ⟨-, rfl⟩ | ⟨pass', passing'⟩
          · refine AeTimeLoop.Kept.running ?_ rfl
            exact ⟨passing.kept.descending, passing.kept.below, passing.kept.known,
              passing.kept.armed, passing.kept.sound⟩
          · refine ⟨passing'.kept, fun other inside => ⟨entered, ?_⟩⟩
            cases passing'.here.symm.trans inside
            exact passing'

theorem AeTimeLoop.running_of_run {acts : List AeTimeAct}
    (ran : run AeTimeLoop.step .create acts = some loop) : loop.Running :=
  (reach_of_run ran).invariant (AeTimeLoop.create_kept.running rfl)
    fun running _ stepped => running.step stepped

/-- What `process_time_events` calls was in the list when it was entered. -/
theorem AeTimeLoop.Running.fires_rounds (running : entered.Running) {rounds : List AeRound}
    (entry : run AeTimeLoop.step entered (.enter :: rounds.map .round) = some loop) :
    ∃ more, loop.log = entered.log ++ more ∧
      ∀ id ∈ fires more, (dueIn entered.el.timeEventHead id).isSome := by
  obtain ⟨first, stepped, ran⟩ := Option.bind_eq_some_iff.mp entry
  clear entry
  have start : ∃ pass, entered.Passing first pass := by
    unfold AeTimeLoop.step at stepped
    simp only at stepped
    split at stepped
    · cases stepped
      exact ⟨_, running.kept.enter⟩
    · cases stepped
  clear stepped
  induction rounds generalizing first with
  | nil =>
      cases ran
      obtain ⟨pass, passing⟩ := start
      exact passing.log
  | cons round rounds ih =>
      obtain ⟨pass, passing⟩ := start
      obtain ⟨second, stepped, ran⟩ := Option.bind_eq_some_iff.mp ran
      rw [AeTimeLoop.step_round passing.here] at stepped
      rcases passing.after stepped with ⟨-, rfl⟩ | next
      · cases rounds with
        | nil =>
            cases ran
            exact passing.log
        | cons round rounds => cases ran
      · exact ih second ran next

/-- Over every run, the list holds what was created and not deleted since, each with the time it
is due, a callback is only called for an event that is in the list and due, and
`process_time_events` only for those that were in the list when it was entered. -/
theorem ae_time_events_sound {acts : List AeTimeAct}
    (ran : run AeTimeLoop.step .create acts = some loop) :
    Sound loop.log ∧ armed loop.log = dueIn loop.el.timeEventHead ∧
      Descending loop.el.timeEventHead ∧
      ∀ (before : List AeTimeAct) (rounds : List AeRound),
        acts = before ++ .enter :: rounds.map .round →
        ∃ entered more, run AeTimeLoop.step .create before = some entered ∧
          loop.log = entered.log ++ more ∧ ∀ id ∈ fires more, (armed entered.log id).isSome := by
  have running := AeTimeLoop.running_of_run ran
  refine ⟨running.kept.sound, running.kept.armed, running.kept.descending, ?_⟩
  rintro before rounds rfl
  rw [run_append] at ran
  obtain ⟨entered, first, ran⟩ := Option.bind_eq_some_iff.mp ran
  have running' := AeTimeLoop.running_of_run first
  obtain ⟨more, log, known⟩ := running'.fires_rounds ran
  refine ⟨entered, more, first, log, ?_⟩
  rw [running'.kept.armed]
  exact known

/-- One timer that is called and has to be called again, and creates another one. -/
def timerActs : List AeTimeAct :=
  let second : AeTime := ⟨1, 0, by decide⟩
  [.call (.create 1 ⟨0, 0, by decide⟩ true), .enter,
    .round ⟨second, [.create 0 second true], 1000, second⟩, .round ⟨second, [], 0, second⟩]

theorem ae_time_events_sound_timer :
    ∃ loop, run AeTimeLoop.step .create timerActs = some loop ∧ Sound loop.log := by
  have ran : run AeTimeLoop.step .create timerActs = some _ := rfl
  exact ⟨_, ran, (ae_time_events_sound ran).1⟩

end Verben
