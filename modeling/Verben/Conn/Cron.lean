import Verben.Conn.Tables

/-!
# The timer and the clock it caches

`access_time` is stamped with `unix_clock`, which only `server_cron` sets: before its first
run the clock is 0. `create_client` looks for that and takes the real time instead;
`read_from_client` and `write_to_client` do not, and stamp a connection with the year 1970.
A run carries the real time, and which connections were used since the last run of
`server_cron`. None of these is closed by the next one, except in the first if a connection
was read from or written to before it (`cron_spares_active_iff`).
-/

namespace Verben

open Transition

/-- The client an action is about, if it stamps the client's `access_time`. -/
def ConnProc.userOf (p : ConnProc) : ConnAct → Option Nat
  | .accept _ _ _ env => env.addr
  | .readable fd _ => (p.ael.events fd).clientData
  | .writable fd _ => (p.ael.events fd).clientData
  | .message _ _ => none
  | .cron _ => none

/-- The stamp. -/
def ConnProc.stamp (p : ConnProc) : ConnAct → Int
  | .accept _ _ _ env => if p.unixClock ≠ 0 then p.unixClock else env.time
  | _ => p.unixClock

/-- `b` at the client, if there is one. -/
def mark (flags : Nat → Bool) (cli : Option Nat) (b : Bool) : Nat → Bool :=
  match cli with
  | none => flags
  | some cli => Function.update flags cli b

@[simp] theorem mark_some (flags : Nat → Bool) (cli : Nat) (b : Bool) :
    mark flags (some cli) b cli = b := Function.update_self ..

theorem mark_of_ne (flags : Nat → Bool) {user : Option Nat} {cli : Nat} (b : Bool)
    (ne : user ≠ some cli) : mark flags user b cli = flags cli := by
  cases user with
  | none => rfl
  | some other => exact Function.update_of_ne (fun same => ne (congrArg some same.symm)) ..

/-- The process in time: when it started, what time it is, when `server_cron` ran last, which
connections were accepted, read from or written to since, and which were read from or
written to since they were accepted. -/
structure ClockRun : Type where
  proc : ConnProc
  start : Int
  clock : Int
  lastCron : Option Int
  active : Nat → Bool
  used : Nat → Bool

def ClockRun.init (boot : ConnBoot) (start : Int) : ClockRun :=
  ⟨.init boot, start, start, none, fun _ => false, fun _ => false⟩

/-- A step of the process at the time `now`. -/
def ClockRun.step (s : ClockRun) (timed : Int × ConnAct) : Option ClockRun :=
  (s.proc.step timed.2).map fun done =>
    { s with
      proc := done.1
      clock := timed.1
      lastCron := match timed.2 with
        | .cron now => some now
        | _ => s.lastCron
      active := match timed.2 with
        | .cron _ => fun _ => false
        | act => mark s.active (s.proc.userOf act) true
      used := match timed.2 with
        | .accept _ _ _ env => mark s.used env.addr false
        | act => mark s.used (s.proc.userOf act) true }

/-- The clock does not go back, `time(NULL)` reads it, and `server_cron` runs at most
`client_timeout` seconds after its last run or the start. -/
def Timely (s : ClockRun) (timed : Int × ConnAct) : Prop :=
  s.clock ≤ timed.1 ∧
    match timed.2 with
    | .accept _ _ _ env => env.time = timed.1
    | .cron now => now = timed.1 ∧ now ≤ s.lastCron.getD s.start + s.proc.clientTimeout
    | _ => True

instance (s : ClockRun) : (timed : Int × ConnAct) → Decidable (Timely s timed)
  | (_, .accept _ _ _ _) => inferInstanceAs (Decidable (_ ∧ _ = _))
  | (_, .readable _ _) => inferInstanceAs (Decidable (_ ∧ True))
  | (_, .writable _ _) => inferInstanceAs (Decidable (_ ∧ True))
  | (_, .message _ _) => inferInstanceAs (Decidable (_ ∧ True))
  | (_, .cron _) => inferInstanceAs (Decidable (_ ∧ _ = _ ∧ _))

/-- `server_cron` closes no connection that was used since its last run. -/
def ClockRun.SparesActive (s : ClockRun) (now : Int) : Prop :=
  ∃ s', s.step (now, .cron now) = some s' ∧
    ∀ cli, s.active cli = true → s.proc.heap cli ≠ none → s'.proc.heap cli ≠ none

section Stamps

variable {p p' : ConnProc} {act : ConnAct} {events : List ConnEvent} {cli : Nat}
  {c c' : ClientConn}

theorem receive_accessTime {bytes : List UInt8} {handleInput : List UInt8 → Int}
    (received : c.receive bytes handleInput = some c') : c'.accessTime = c.accessTime := by
  obtain ⟨recvbuf, _, same⟩ := Option.map_eq_some_iff.mp received
  cases same
  rfl

theorem consume_accessTime (consumed : c.consume = some c') : c'.accessTime = c.accessTime := by
  obtain ⟨recvbuf, _, same⟩ := Option.map_eq_some_iff.mp consumed
  cases same
  rfl

/-- A read or a write stamps the connection; a response does not. -/
theorem Effect.accessTime {fe fe' : AeFileEvent FileProc Nat} (wf : p.Wf)
    (live : p.heap cli = some c) (effect : Effect p cli c fe act events c' fe') :
    (p.userOf act = some cli ∧ c'.accessTime = p.stamp act) ∨
      (p.userOf act = none ∧ c'.accessTime = c.accessTime) := by
  have user := (wf.live live).data
  cases effect with
  | again result => exact Or.inl ⟨user, rfl⟩
  | wait result nonempty fits receive verdict =>
      exact Or.inl ⟨user, receive_accessTime receive⟩
  | frame result nonempty fits receive verdict consume =>
      exact Or.inl ⟨user, (consume_accessTime consume).trans (receive_accessTime receive)⟩
  | drained took all clear stay unset => exact Or.inl ⟨user, rfl⟩
  | shifted took part range => exact Or.inl ⟨user, rfl⟩
  | responded pid vec fd target flag cat set => exact Or.inr ⟨rfl, rfl⟩

theorem Effect.stamped {fe fe' : AeFileEvent FileProc Nat} (wf : p.Wf)
    (live : p.heap cli = some c) (effect : Effect p cli c fe act events c' fe')
    (user : p.userOf act = some cli) : c'.accessTime = p.stamp act := by
  rcases effect.accessTime wf live with ⟨_, stamped⟩ | ⟨noUser, _⟩
  · exact stamped
  · cases noUser.symm.trans user

/-- A new connection is stamped, with the real time as long as the clock is 0. -/
theorem Opened.accessTime {fe : AeFileEvent FileProc Nat}
    (opened : Opened p cli act events c' fe) :
    p.userOf act = some cli ∧ c'.accessTime = p.stamp act := by
  cases opened with
  | silent addr handleOpen => exact ⟨addr, rfl⟩
  | quiet addr handleOpen retbuf => exact ⟨addr, rfl⟩
  | welcomed addr handleOpen retbuf cat set => exact ⟨addr, rfl⟩

/-- A connection that an action is about is not left as it was. -/
theorem ConnProc.stamped_of_user (wf : p.Wf) (stepped : p.step act = some (p', events))
    (user : p.userOf act = some cli) (live' : p'.heap cli = some c') :
    c'.accessTime = p.stamp act := by
  cases act with
  | accept fd ip port env =>
      simp only [ConnProc.step] at stepped
      split at stepped
      · next allowed =>
          have addr : env.addr = some cli := user
          have fresh := allowed.2
          rw [addr] at fresh
          have gone : p.heap cli ≠ some c' := by
            rw [fresh.2]
            exact (Option.some_ne_none c').symm
          have unused := wf.unused allowed.1
          rcases acceptCommonHandler_cases (wf.setFdOpen unused true)
              ⟨unused.quiet, unused.noClient⟩ (Function.update_self ..) allowed.2 stepped with
            ⟨_, _, same⟩ | ⟨other, _, callback, outcome⟩
          · exact absurd (same live').1 gone
          · by_cases same : cli = other
            · subst same
              rcases outcome with none | ⟨c, there, opened⟩
              · rw [none] at live'
                cases live'
              · cases there.symm.trans live'
                exact opened.accessTime.2
            · exact absurd (callback.apart cli c' same live').1 gone
      · cases stepped
  | readable fd env =>
      simp only [ConnProc.step] at stepped
      split at stepped
      · next fired =>
          obtain ⟨cli', data, read⟩ := Option.bind_eq_some_iff.mp stepped
          cases (data.symm.trans user : some cli' = some cli)
          obtain ⟨_, c, data', live, rfl⟩ := wf.entry (Or.inl fired)
          cases data.symm.trans data'
          rcases (readFromClient_cases wf live read).2 with none | ⟨c'', there, _, effect⟩
          · rw [none] at live'
            cases live'
          · cases there.symm.trans live'
            exact effect.stamped wf live user
      · cases stepped
  | writable fd result =>
      simp only [ConnProc.step] at stepped
      split at stepped
      · next fired =>
          obtain ⟨cli', data, written⟩ := Option.bind_eq_some_iff.mp stepped
          cases (data.symm.trans user : some cli' = some cli)
          obtain ⟨_, c, data', live, rfl⟩ := wf.entry (Or.inr fired.1)
          cases data.symm.trans data'
          rcases (writeToClient_cases wf live written).2 with none | ⟨c'', there, _, effect⟩
          · rw [none] at live'
            cases live'
          · cases there.symm.trans live'
            exact effect.stamped wf live user
      · cases stepped
  | message msg addOk => cases user
  | cron now => cases user

/-- The others keep their stamps. -/
theorem ConnProc.stamp_kept (wf : p.Wf) (stepped : p.step act = some (p', events))
    (user : p.userOf act ≠ some cli) (live' : p'.heap cli = some c') :
    ∃ c, p.heap cli = some c ∧ c'.accessTime = c.accessTime := by
  cases (ConnProc.step_cases wf stepped).2 cli c' live' with
  | same live entry quiet => exact ⟨c', live, rfl⟩
  | changed live about effect =>
      rcases effect.accessTime wf live with ⟨isUser, _⟩ | ⟨_, same⟩
      · exact absurd isUser user
      · exact ⟨_, live, same⟩
  | opened absent about opened => exact absurd opened.accessTime.1 user

end Stamps

/-! ## Which connections the timer closes -/

/-- `server_cron` runs to the end, and closes the idle connections of the list. -/
theorem cronLoop_closes {p : ConnProc} {nodes : List Nat} (wf : p.Wf) (nodup : nodes.Nodup)
    (listed : ∀ cli ∈ nodes, ∃ c, p.heap cli = some c) :
    ∃ p' events, cronLoop p nodes = some (p', events) ∧
      ∀ {cli c}, p.heap cli = some c → (p'.heap cli = none ↔ cli ∈ nodes ∧ p.TimedOut c) := by
  induction nodes generalizing p with
  | nil =>
      refine ⟨p, [], rfl, ?_⟩
      intro cli c live
      rw [live]
      simp
  | cons node rest ih =>
      obtain ⟨apart, nodup⟩ := List.nodup_cons.mp nodup
      obtain ⟨o, there⟩ := listed node List.mem_cons_self
      unfold cronLoop
      rw [there, Option.bind_some]
      by_cases idle : p.TimedOut o
      · rw [if_pos idle, closeClient_of_live wf there, Option.bind_some]
        have others : ∀ cli ∈ rest, ∃ c, (p.drop node o.fd).heap cli = some c := by
          intro cli mem
          have ne : cli ≠ node := fun same => apart (same ▸ mem)
          rw [heap_drop_ne p o.fd ne]
          exact listed cli (List.mem_cons_of_mem _ mem)
        obtain ⟨p', events, looped, closes⟩ := ih (wf.drop there) nodup others
        refine ⟨p', .closed node :: events, by rw [looped]; rfl, ?_⟩
        intro cli c live
        by_cases same : cli = node
        · subst same
          cases there.symm.trans live
          refine ⟨fun _ => ⟨List.mem_cons_self, idle⟩, fun _ => ?_⟩
          cases after : p'.heap cli with
          | none => rfl
          | some c' =>
              have before := ((cronLoop_cases (wf.drop there) looped).2 cli c' after).1
              rw [heap_drop_self] at before
              cases before
        · rw [closes ((heap_drop_ne p o.fd same).trans live), List.mem_cons]
          exact and_congr_left fun _ => (or_iff_right same).symm
      · rw [if_neg idle]
        obtain ⟨p', events, looped, closes⟩ :=
          ih wf nodup fun cli mem => listed cli (List.mem_cons_of_mem _ mem)
        refine ⟨p', events, looped, ?_⟩
        intro cli c live
        rw [closes live, List.mem_cons]
        by_cases same : cli = node
        · subst same
          cases there.symm.trans live
          exact ⟨fun both => absurd both.2 idle, fun both => absurd both.2 idle⟩
        · exact and_congr_left fun _ => (or_iff_right same).symm

/-- The timer at the time `now`. -/
theorem serverCron_closes {p : ConnProc} (wf : p.Wf) (now : Int) :
    ∃ p' events, p.step (.cron now) = some (p', events) ∧
      ∀ {cli c}, p.heap cli = some c →
        (p'.heap cli = none ↔ p.clientTimeout ≠ 0 ∧ p.clientTimeout < now - c.accessTime) := by
  obtain ⟨p', events, looped, closes⟩ :=
    cronLoop_closes (wf.setClock now) wf.nodup fun cli mem => wf.listed mem
  refine ⟨p', events, looped, ?_⟩
  intro cli c live
  exact (closes live).trans (and_iff_right (wf.live live).listed)

/-! ## Stamps along a run -/

/-- The stamps before the first run of `server_cron`, and behind one. -/
structure ClockRun.Inv (s : ClockRun) : Prop where
  tables : s.proc.Tables
  order : s.start ≤ s.clock
  early : s.lastCron = none → s.proc.unixClock = 0 ∧ ∀ {cli c}, s.proc.heap cli = some c →
    s.active cli = true ∧
      if s.used cli = true then c.accessTime = 0 else s.start ≤ c.accessTime
  late : ∀ {last}, s.lastCron = some last → s.proc.unixClock = last ∧ last ≤ s.clock ∧
    ∀ {cli c}, s.proc.heap cli = some c → s.active cli = true → last ≤ c.accessTime

section Clock

variable {s s' : ClockRun} {p' : ConnProc} {act : ConnAct} {events : List ConnEvent} {now : Int}

/-- Every action but a run of the timer. -/
theorem ClockRun.Inv.use (inv : s.Inv) (later : s.clock ≤ now)
    (stepped : s.proc.step act = some (p', events)) (clock : p'.unixClock = s.proc.unixClock)
    {used' : Nat → Bool}
    (others : ∀ cli, s.proc.userOf act ≠ some cli → used' cli = s.used cli)
    (early : ∀ cli, s.proc.userOf act = some cli → s.proc.unixClock = 0 →
      if used' cli = true then s.proc.stamp act = 0 else s.start ≤ s.proc.stamp act)
    (late : ∀ cli, s.proc.userOf act = some cli → s.proc.unixClock ≤ s.clock →
      s.proc.unixClock ≤ s.proc.stamp act) :
    ClockRun.Inv { s with
      proc := p', clock := now, active := mark s.active (s.proc.userOf act) true,
      used := used' } := by
  have wf := inv.tables.wf
  refine ⟨(inv.tables.step stepped).1, Int.le_trans inv.order later, ?_, ?_⟩
  · intro first
    obtain ⟨zero, stamps⟩ := inv.early first
    refine ⟨clock.trans zero, ?_⟩
    intro cli c live
    by_cases user : s.proc.userOf act = some cli
    · have stamped : c.accessTime = s.proc.stamp act :=
        ConnProc.stamped_of_user wf stepped user live
      change mark s.active (s.proc.userOf act) true cli = true ∧
        if used' cli = true then c.accessTime = 0 else s.start ≤ c.accessTime
      rw [stamped]
      exact ⟨by rw [user, mark_some], early cli user zero⟩
    · obtain ⟨o, before, same⟩ := ConnProc.stamp_kept wf stepped user live
      simp only [mark_of_ne s.active true user, others cli user, same]
      exact stamps before
  · intro last there
    obtain ⟨set, order, stamps⟩ := inv.late there
    refine ⟨clock.trans set, Int.le_trans order later, ?_⟩
    intro cli c live active
    by_cases user : s.proc.userOf act = some cli
    · have stamped : c.accessTime = s.proc.stamp act :=
        ConnProc.stamped_of_user wf stepped user live
      rw [stamped, ← set]
      exact late cli user (set ▸ order)
    · obtain ⟨o, before, same⟩ := ConnProc.stamp_kept wf stepped user live
      simp only [mark_of_ne s.active true user] at active
      rw [same]
      exact stamps before active

/-- The actions that stamp with the clock, if with anything. -/
theorem ClockRun.Inv.touch (inv : s.Inv) (later : s.clock ≤ now)
    (stepped : s.proc.step act = some (p', events)) (clock : p'.unixClock = s.proc.unixClock)
    (stamp : s.proc.stamp act = s.proc.unixClock) :
    ClockRun.Inv { s with
      proc := p', clock := now, active := mark s.active (s.proc.userOf act) true,
      used := mark s.used (s.proc.userOf act) true } := by
  refine inv.use later stepped clock (fun cli other => mark_of_ne _ _ other) ?_ ?_
  · intro cli user zero
    rw [user, mark_some, if_pos rfl, stamp]
    exact zero
  · intro _ _ _
    exact Int.le_of_eq stamp.symm

theorem ClockRun.Inv.step (inv : s.Inv) (timely : Timely s (now, act))
    (stepped : s.step (now, act) = some s') : s'.Inv := by
  rcases timely with ⟨later, timely⟩
  obtain ⟨⟨p', events⟩, step, same⟩ := Option.map_eq_some_iff.mp stepped
  obtain ⟨tables, _, clock⟩ := inv.tables.step step
  cases act with
  | accept fd ip port env =>
      have time : env.time = now := timely
      subst same
      refine inv.use later step clock (fun cli other => mark_of_ne _ _ other) ?_ ?_
      · intro cli user zero
        have addr : env.addr = some cli := user
        have stamp : s.proc.stamp (.accept fd ip port env) = env.time :=
          if_neg (not_not_intro zero)
        simp only [addr, mark_some, stamp, time, Bool.false_eq_true, if_false]
        exact Int.le_trans inv.order later
      · intro cli user order
        simp only [ConnProc.stamp, time]
        split <;> omega
  | readable fd env =>
      subst same
      exact inv.touch later step clock rfl
  | writable fd result =>
      subst same
      exact inv.touch later step clock rfl
  | message msg addOk =>
      subst same
      exact inv.touch later step clock rfl
  | cron t =>
      have time : t = now := timely.1
      subst same time
      refine ⟨tables, Int.le_trans inv.order later, nofun, ?_⟩
      intro last there
      cases there
      exact ⟨clock, Int.le_refl _, nofun⟩

theorem ClockRun.inv_init (boot : ConnBoot) (start : Int) : (ClockRun.init boot start).Inv := by
  refine ⟨ConnProc.tables_init boot, Int.le_refl _, fun _ => ⟨rfl, ?_⟩, nofun⟩
  intro cli c live
  cases live

/-- In every state of a timely run; the timeout is the configured one. -/
theorem ClockRun.inv_of_reach {boot : ConnBoot} {start : Int}
    (reach : Reach ClockRun.step Timely (ClockRun.init boot start) s) :
    s.Inv ∧ s.proc.clientTimeout = boot.clientTimeout := by
  apply reach.invariant (P := fun s => s.Inv ∧ s.proc.clientTimeout = boot.clientTimeout)
    ⟨ClockRun.inv_init boot start, rfl⟩
  intro s timed s' both timely stepped
  rcases both with ⟨inv, timeout⟩
  refine ⟨inv.step timely stepped, ?_⟩
  obtain ⟨⟨p', events⟩, step, same⟩ := Option.map_eq_some_iff.mp stepped
  subst same
  exact (inv.tables.step step).2.1.trans timeout

end Clock

/-- **Which used connections `server_cron` closes.** In every state that a timely run
reaches, with a timeout of at least a second: a timely run of `server_cron` closes no
connection used since its last run, if and only if it is not the first run, or no open
connection was read from or written to since it was accepted, or the time is no more
than the timeout. -/
theorem cron_spares_active_iff {boot : ConnBoot} {start : Int} {s : ClockRun}
    (timeout : 1 ≤ boot.clientTimeout)
    (reach : Reach ClockRun.step Timely (ClockRun.init boot start) s) {now : Int}
    (timely : Timely s (now, .cron now)) :
    s.SparesActive now ↔ (s.lastCron = none → ∀ cli c, s.proc.heap cli = some c →
      s.used cli = true → now ≤ s.proc.clientTimeout) := by
  obtain ⟨inv, configured⟩ := ClockRun.inv_of_reach reach
  rcases timely with ⟨later, _, due⟩
  obtain ⟨p', events, step, closes⟩ := serverCron_closes inv.tables.wf now
  have stepped : s.step (now, .cron now) = some
      ⟨p', s.start, now, some now, fun _ => false, mark s.used none true⟩ := by
    unfold ClockRun.step
    rw [step]
    rfl
  constructor
  · intro spares first cli c live used
    obtain ⟨s', same, spared⟩ := spares
    cases same.symm.trans stepped
    obtain ⟨active, stamp⟩ := (inv.early first).2 live
    rw [if_pos used] at stamp
    have stays := spared cli active (by rw [live]; nofun)
    simp only [ne_eq, closes live, stamp] at stays
    omega
  · intro condition
    refine ⟨_, stepped, ?_⟩
    intro cli active there
    obtain ⟨c, live⟩ := Option.ne_none_iff_exists'.mp there
    simp only [ne_eq, closes live]
    intro idle
    cases last : s.lastCron with
    | none =>
        rw [last] at due
        obtain ⟨_, stamp⟩ := (inv.early last).2 live
        simp only [Option.getD_none] at due
        split at stamp
        · next used =>
            have := condition last cli c live used
            omega
        · omega
    | some last' =>
        rw [last] at due
        have stamp := (inv.late last).2.2 live active
        simp only [Option.getD_some] at due
        omega

/-- The first connection, accepted before a run of `server_cron` and read from behind it. -/
def readBehindCron : List (Int × ConnAct) :=
  [(1700000000, .accept 7 "10.0.0.1" 80 { acceptOk 1 none with time := 1700000000 }),
    (1700000010, .cron 1700000010),
    (1700000011, .readable 7 { readOk [] (fun _ => 0) with result := .again })]

/-- The next run of `server_cron` spares it. -/
theorem cron_spares_active_iff_behind :
    ∃ s, Reach ClockRun.step Timely (ClockRun.init defaultBoot 1700000000) s ∧
      s.active 1 = true ∧ s.used 1 = true ∧ (s.proc.heap 1).isSome = true ∧
      s.SparesActive 1700000020 := by
  have ran : (runGuarded ClockRun.step Timely (ClockRun.init defaultBoot 1700000000)
      readBehindCron).map (fun s => (s.active 1, s.used 1, (s.proc.heap 1).isSome, s.lastCron,
        decide (Timely s (1700000020, .cron 1700000020)))) =
      some (true, true, true, some 1700000010, true) := by decide +kernel
  obtain ⟨s, same, seen⟩ := Option.map_eq_some_iff.mp ran
  simp only [Prod.mk.injEq] at seen
  obtain ⟨active, used, live, last, timely⟩ := seen
  have reach := reach_of_runGuarded same
  exact ⟨s, reach, active, used, live, (cron_spares_active_iff (by decide) reach
    (of_decide_eq_true timely)).mpr fun first => absurd (last.symm.trans first) nofun⟩

/-- The first connection, accepted and read from as the process starts. -/
def readBeforeCron : List (Int × ConnAct) :=
  [(1700000000, .accept 7 "10.0.0.1" 80 { acceptOk 1 none with time := 1700000000 }),
    (1700000000, .readable 7 { readOk [] (fun _ => 0) with result := .again })]

/-- It is closed ten seconds later, by the first run of `server_cron`. -/
theorem cron_closes_active :
    ∃ s, Reach ClockRun.step Timely (ClockRun.init defaultBoot 1700000000) s ∧
      Timely s (1700000010, .cron 1700000010) ∧ ¬ s.SparesActive 1700000010 := by
  have ran : (runGuarded ClockRun.step Timely (ClockRun.init defaultBoot 1700000000)
      readBeforeCron).isSome = true := by decide +kernel
  obtain ⟨s, same⟩ := Option.isSome_iff_exists.mp ran
  have closed : ((runGuarded ClockRun.step Timely (ClockRun.init defaultBoot 1700000000)
      readBeforeCron).bind fun s => (s.step (1700000010, .cron 1700000010)).map fun s' =>
        (s.active 1, (s.proc.heap 1).isSome, s'.proc.heap 1)) = some (true, true, none) := by
    decide +kernel
  have timely : (runGuarded ClockRun.step Timely (ClockRun.init defaultBoot 1700000000)
      readBeforeCron).map (fun s => decide (Timely s (1700000010, .cron 1700000010))) =
        some true := by
    decide +kernel
  rw [same] at closed timely
  refine ⟨s, reach_of_runGuarded same, of_decide_eq_true (Option.some_inj.mp timely), ?_⟩
  intro spares
  obtain ⟨s', stepped, spared⟩ := spares
  rw [Option.bind_some, stepped, Option.map_some, Option.some_inj, Prod.mk.injEq,
    Prod.mk.injEq] at closed
  obtain ⟨active, live, gone⟩ := closed
  exact spared 1 active (Option.isSome_iff_ne_none.mp live) gone

end Verben
