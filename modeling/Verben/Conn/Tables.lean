import Mathlib.Data.List.Nodup
import Verben.Conn.History

/-!
# One set of connections in three tables

`clients`, `conn_vec` and the read events of the event table describe the same live
connections, between all callbacks (`conn_tables_agree`). What `ConnProc.Wf` says of the
live connections is read here from the side of each table. The other direction needs that
a read event belongs to a client or to one of the process's own fds (`Reads`), and the
limit needs that only `accept` adds a node (`NoOpening`).
-/

namespace Verben

open Transition

/-- A callback of the process's own fds. -/
def FileProc.Own : FileProc → Prop
  | .acceptHandler => True
  | .notifierHandler => True
  | .readFromClient => False
  | .writeToClient => False

/-- A read event calls back for a client, or is one of the process's own. -/
def ConnProc.Reads (p : ConnProc) : Prop :=
  ∀ fd, (p.ael.events fd).mask.readable = true →
    (p.ael.events fd).rFileProc = some .readFromClient ∨
      ∃ proc : FileProc, (p.ael.events fd).rFileProc = some proc ∧ proc.Own ∧
        (p.ael.events fd).clientData = some 0

/-- The list holds no more connections than the limit, which is compared as an
`unsigned int`. -/
def ConnProc.Limited (p : ConnProc) : Prop :=
  p.clientLimit ≠ 0 → (p.clients.length : Int) ≤ CInt.toUInt32 p.clientLimit

/-- The table calls back for no fd that it did not call back for before, and for no other
client than before on the process's own fds. -/
def AeNarrows (el el' : AeEventLoop FileProc Nat) : Prop :=
  ∀ fd, (el'.events fd).mask.readable = true →
    (el.events fd).mask.readable = true ∧
      (el'.events fd).rFileProc = (el.events fd).rFileProc ∧
      ((el'.events fd).clientData = (el.events fd).clientData ∨
        (el.events fd).rFileProc = some .readFromClient)

/-- Between the two states no connection is opened, and the settings and the clock stay. -/
structure NoOpening (p p' : ConnProc) : Prop where
  clients : p'.clients.Sublist p.clients
  entries : AeNarrows p.ael p'.ael
  limit : p'.clientLimit = p.clientLimit
  timeout : p'.clientTimeout = p.clientTimeout
  clock : p'.unixClock = p.unixClock

theorem AeNarrows.refl (el : AeEventLoop FileProc Nat) : AeNarrows el el :=
  fun _ set => ⟨set, rfl, Or.inl rfl⟩

theorem AeNarrows.trans {el el' el'' : AeEventLoop FileProc Nat} (first : AeNarrows el el')
    (second : AeNarrows el' el'') : AeNarrows el el'' := by
  intro fd set
  obtain ⟨set', proc', data'⟩ := second fd set
  obtain ⟨set, proc, data⟩ := first fd set'
  refine ⟨set, proc'.trans proc, ?_⟩
  rcases data' with same | reader
  · exact data.imp_left same.trans
  · exact Or.inr (proc.symm.trans reader)

theorem narrows_delete (el : AeEventLoop FileProc Nat) (fd : Nat) (mask : AeMask) :
    AeNarrows el (aeDeleteFileEvent el fd mask) := by
  by_cases inside : fd < aeSetsize
  · intro other set
    by_cases same : other = fd
    · subst same
      rw [mask_aeDeleteFileEvent el inside] at set ⊢
      simp only [AeMask.andNot, Bool.and_eq_true] at set
      exact ⟨set.1, rfl, Or.inl rfl⟩
    · rw [events_aeDeleteFileEvent_ne el mask same] at set ⊢
      exact ⟨set, rfl, Or.inl rfl⟩
  · unfold aeDeleteFileEvent
    rw [if_pos (Nat.le_of_not_lt inside)]
    exact .refl el

/-- Registering `write_to_client` for a client that is read from. -/
theorem narrows_register {el el' : AeEventLoop FileProc Nat} {fd cli : Nat} {addOk : Bool}
    (reader : (el.events fd).rFileProc = some .readFromClient)
    (created : aeCreateFileEvent el fd aeWritable .writeToClient cli addOk = some el') :
    AeNarrows el el' := by
  intro other set
  by_cases same : other = fd
  · subst same
    rw [(events_of_aeCreateFileEvent created).2, Function.update_self] at set ⊢
    simp only [AeFileEvent.register, AeMask.or, aeWritable, Bool.or_false] at set
    exact ⟨set, rfl, Or.inr reader⟩
  · rw [events_of_aeCreateFileEvent_ne created same] at set ⊢
    exact ⟨set, rfl, Or.inl rfl⟩

section Steps

variable {p p' p'' : ConnProc} {cli : Nat} {c : ClientConn} {events : List ConnEvent}

theorem NoOpening.refl (p : ConnProc) : NoOpening p p := ⟨.refl _, .refl _, rfl, rfl, rfl⟩

theorem NoOpening.trans (first : NoOpening p p') (second : NoOpening p' p'') :
    NoOpening p p'' where
  clients := second.clients.trans first.clients
  entries := first.entries.trans second.entries
  limit := second.limit.trans first.limit
  timeout := second.timeout.trans first.timeout
  clock := second.clock.trans first.clock

theorem NoOpening.reads (none : NoOpening p p') (reads : p.Reads) : p'.Reads := by
  intro fd set
  obtain ⟨set, proc, data⟩ := none.entries fd set
  rcases reads fd set with reader | ⟨own, reader, isOwn, null⟩
  · exact Or.inl (proc.trans reader)
  · rcases data with same | reader'
    · exact Or.inr ⟨own, proc.trans reader, isOwn, same.trans null⟩
    · exact Or.inl (proc.trans reader')

theorem NoOpening.limited (none : NoOpening p p') (limited : p.Limited) : p'.Limited := by
  unfold ConnProc.Limited at limited ⊢
  rw [none.limit]
  intro limit
  have shorter := none.clients.length_le
  have := limited limit
  omega

/-! ## What the callbacks open -/

theorem noOpening_setClient (p : ConnProc) (cli : Nat) (c : ClientConn) :
    NoOpening p (p.setClient cli c) := ⟨.refl _, .refl _, rfl, rfl, rfl⟩

theorem noOpening_closeClient (closed : closeClient p cli = some (p', events)) :
    NoOpening p p' := by
  obtain ⟨c, _, rest⟩ := Option.bind_eq_some_iff.mp closed
  split at rest
  · cases rest
    exact ⟨List.erase_sublist .., (narrows_delete _ _ _).trans (narrows_delete _ _ _), rfl, rfl,
      rfl⟩
  · cases rest

theorem noOpening_dispatchFrame {env : ReadEnv}
    (dispatched : dispatchFrame p cli c env = some (p', events)) : NoOpening p p' := by
  have next : NoOpening p p.nextIdentifier := ⟨.refl _, .refl _, rfl, rfl, rfl⟩
  obtain ⟨verdict, _, rest⟩ := Option.bind_eq_some_iff.mp dispatched
  cases verdict with
  | invalid => exact noOpening_closeClient rest
  | wait =>
      cases rest
      exact .refl p
  | frame data =>
      simp only at rest
      split at rest
      · split at rest
        · obtain ⟨c', _, same⟩ := Option.map_eq_some_iff.mp rest
          cases same
          exact next.trans (noOpening_setClient ..)
        · exact next.trans (noOpening_closeClient rest)
      · exact noOpening_closeClient rest

theorem noOpening_readFromClient {env : ReadEnv}
    (read : readFromClient p cli env = some (p', events)) : NoOpening p p' := by
  obtain ⟨c, _, rest⟩ := Option.bind_eq_some_iff.mp read
  have touched := noOpening_setClient p cli (c.touch p.unixClock)
  simp only at rest
  split at rest
  · cases rest
    exact touched
  · exact touched.trans (noOpening_closeClient rest)
  · exact touched.trans (noOpening_closeClient rest)
  · split at rest
    · cases rest
    · obtain ⟨c', _, rest⟩ := Option.bind_eq_some_iff.mp rest
      obtain ⟨tail, dispatched, rfl⟩ := ConnResult.of_after rest
      exact (noOpening_setClient p cli c').trans (noOpening_dispatchFrame dispatched)

theorem noOpening_finishWrite {n : Nat} (finished : finishWrite p cli c n = some (p', events)) :
    NoOpening p p' := by
  unfold finishWrite at finished
  split at finished
  · obtain ⟨sendbuf, _, rest⟩ := Option.bind_eq_some_iff.mp finished
    have unset : NoOpening p (p.setAel (aeDeleteFileEvent p.ael c.fd aeWritable)) :=
      ⟨.refl _, narrows_delete _ _ _, rfl, rfl, rfl⟩
    have stored := unset.trans (noOpening_setClient _ cli { c with sendbuf := sendbuf })
    simp only at rest
    split at rest
    · exact stored.trans (noOpening_closeClient rest)
    · cases rest
      exact stored
  · obtain ⟨sendbuf, _, same⟩ := Option.map_eq_some_iff.mp finished
    cases same
    exact noOpening_setClient ..

theorem noOpening_writeToClient {result : WriteResult}
    (written : writeToClient p cli result = some (p', events)) : NoOpening p p' := by
  obtain ⟨c, _, rest⟩ := Option.bind_eq_some_iff.mp written
  have touched := noOpening_setClient p cli (c.touch p.unixClock)
  cases result with
  | error => exact touched.trans (noOpening_closeClient rest)
  | again => exact touched.trans (noOpening_finishWrite rest)
  | wrote n =>
      simp only at rest
      split at rest
      · obtain ⟨bytes, _, rest⟩ := Option.bind_eq_some_iff.mp rest
        obtain ⟨tail, finished, rfl⟩ := ConnResult.of_after rest
        exact touched.trans (noOpening_finishWrite finished)
      · cases rest

theorem noOpening_appendSendbuf (wf : p.Wf) {data : List UInt8} {addOk : Bool}
    (appended : appendSendbuf p cli data addOk = some (p', events)) : NoOpening p p' := by
  obtain ⟨c, live, rest⟩ := Option.bind_eq_some_iff.mp appended
  obtain ⟨sendbuf, _, rest⟩ := Option.bind_eq_some_iff.mp rest
  obtain ⟨tail, registered, rfl⟩ := ConnResult.of_after rest
  have filled := noOpening_setClient p cli { c with sendbuf := sendbuf }
  split at registered
  · exact filled.trans (noOpening_closeClient registered)
  · next ael created =>
      cases registered
      exact filled.trans ⟨.refl _, narrows_register (wf.live live).reader created, rfl, rfl, rfl⟩

theorem noOpening_openAnswered (wf : p.Wf) {answer : OpenAnswer} {writeOk : Bool}
    (opened : openAnswered p cli answer writeOk = some (p', events)) : NoOpening p p' := by
  unfold openAnswered at opened
  split at opened
  · exact noOpening_closeClient opened
  · obtain ⟨c, live, rest⟩ := Option.bind_eq_some_iff.mp opened
    obtain ⟨tail, answered, rfl⟩ := ConnResult.of_after rest
    have flagged : (p.setCloseConn cli c (answer.ret = verbenConnClose)).Wf :=
      wf.setClient live rfl rfl
    have set : NoOpening p (p.setCloseConn cli c (answer.ret = verbenConnClose)) :=
      noOpening_setClient ..
    split at answered
    · cases answered
      exact set
    · exact set.trans (noOpening_appendSendbuf flagged answered)

theorem noOpening_notifierMessage (wf : p.Wf) {msg : ShmMsg} {addOk : Bool}
    (handled : notifierMessage p msg addOk = some (p', events)) : NoOpening p p' := by
  unfold notifierMessage at handled
  split at handled
  · cases handled
  · split at handled
    · cases handled
      exact .refl p
    · split at handled
      · cases handled
        exact .refl p
      · obtain ⟨c, live, rest⟩ := Option.bind_eq_some_iff.mp handled
        split at rest
        · cases rest
        · obtain ⟨closeConn, _, rest⟩ := Option.bind_eq_some_iff.mp rest
          obtain ⟨tail, appended, rfl⟩ := ConnResult.of_after rest
          have flagged : (p.setCloseConn msg.cli c closeConn).Wf := wf.setClient live rfl rfl
          exact (noOpening_setClient ..).trans (noOpening_appendSendbuf flagged appended)

theorem noOpening_cronLoop {nodes : List Nat} (looped : cronLoop p nodes = some (p', events)) :
    NoOpening p p' := by
  induction nodes generalizing p events with
  | nil =>
      cases looped
      exact .refl _
  | cons node rest ih =>
      obtain ⟨c, _, body⟩ := Option.bind_eq_some_iff.mp looped
      split at body
      · obtain ⟨⟨q, said⟩, closed, others⟩ := Option.bind_eq_some_iff.mp body
        obtain ⟨tail, later, rfl⟩ := ConnResult.of_after others
        exact (noOpening_closeClient closed).trans (ih later)
      · exact ih body

/-! ## Accepting -/

/-- `create_client` fails, or adds a node and a read event of its own. -/
theorem createClient_opening {fd : Nat} {ip : String} {port : Int} {env : CreateEnv}
    {created : Option Nat} (made : createClient p fd ip port env = (created, p')) :
    (created = none ∧ NoOpening p p') ∨
      ∃ cli, created = some cli ∧ p'.clients = p.clients ++ [cli] ∧ (p.Reads → p'.Reads) ∧
        p'.clientLimit = p.clientLimit ∧ p'.clientTimeout = p.clientTimeout ∧
        p'.unixClock = p.unixClock := by
  unfold createClient at made
  split at made
  · cases made
    exact Or.inl ⟨rfl, .refl _⟩
  · next cli _ =>
      split at made
      · cases made
        exact Or.inl ⟨rfl, ⟨.refl _, .refl _, rfl, rfl, rfl⟩⟩
      · next ael registered =>
          obtain ⟨inside, table⟩ := events_of_aeCreateFileEvent registered
          have entry : ael.events fd =
              (p.ael.events fd).register aeReadable .readFromClient cli := by
            rw [table, Function.update_self]
          have others : ∀ {other}, other ≠ fd → ael.events other = p.ael.events other :=
            fun ne => events_of_aeCreateFileEvent_ne registered ne
          split at made
          · cases made
            refine Or.inr ⟨cli, rfl, rfl, ?_, rfl, rfl, rfl⟩
            intro reads other set
            by_cases same : other = fd
            · subst same
              rw [entry]
              exact Or.inl rfl
            · simp only [others same] at set ⊢
              exact reads other set
          · cases made
            refine Or.inl ⟨rfl, ⟨.refl _, ?_, rfl, rfl, rfl⟩⟩
            intro other set
            by_cases same : other = fd
            · subst same
              have unset : ((aeDeleteFileEvent ael other aeReadable).events other).mask.readable =
                  false := by
                rw [mask_aeDeleteFileEvent ael inside]
                simp [AeMask.andNot, aeReadable]
              exact absurd (unset.symm.trans set) (by simp)
            · have kept : (aeDeleteFileEvent ael fd aeReadable).events other =
                  p.ael.events other :=
                (events_aeDeleteFileEvent_ne ael aeReadable same).trans (others same)
              change ((aeDeleteFileEvent ael fd aeReadable).events other).mask.readable =
                true at set
              change _ ∧ ((aeDeleteFileEvent ael fd aeReadable).events other).rFileProc = _ ∧
                (((aeDeleteFileEvent ael fd aeReadable).events other).clientData = _ ∨ _)
              rw [kept] at set ⊢
              exact ⟨set, rfl, Or.inl rfl⟩

/-- A connection over the limit is closed again. -/
theorem acceptCommonHandler_tables (wf : p.Wf) {fd : Nat} {ip : String} {port : Int}
    {env : AcceptEnv} (unused : p.Unused fd) (isOpen : p.fdOpen fd = true)
    (fresh : p.FreshAddr env.addr) (reads : p.Reads) (limited : p.Limited)
    (accepted : acceptCommonHandler p fd ip port env = some (p', events)) :
    p'.Reads ∧ p'.Limited ∧ p'.clientTimeout = p.clientTimeout ∧ p'.unixClock = p.unixClock := by
  unfold acceptCommonHandler at accepted
  split at accepted
  · next q made =>
      cases accepted
      rcases createClient_opening made with ⟨_, none⟩ | ⟨cli, some, _⟩
      · have closed : NoOpening p (q.closeFd fd) :=
          none.trans ⟨.refl _, .refl _, rfl, rfl, rfl⟩
        exact ⟨closed.reads reads, closed.limited limited, closed.timeout, closed.clock⟩
      · cases some
  · next cli q made =>
      obtain ⟨tail, rest, rfl⟩ := ConnResult.of_after accepted
      have qWf : q.Wf := by
        rcases createClient_cases wf ip port unused isOpen fresh with
          ⟨q', other, _⟩ | ⟨cli', q', same, _, _, callback, _⟩
        · cases other.symm.trans made
        · cases same.symm.trans made
          exact callback.wf
      rcases createClient_opening made with
        ⟨none, _⟩ | ⟨_, same, clients, moved, limit, timeout, clock⟩
      · cases none
      · cases same
        have qReads := moved reads
        -- what runs behind the test of the limit opens nothing
        have settle : NoOpening q p' → p'.Limited →
            p'.Reads ∧ p'.Limited ∧ p'.clientTimeout = p.clientTimeout ∧
              p'.unixClock = p.unixClock :=
          fun none short => ⟨none.reads qReads, short, none.timeout.trans timeout,
            none.clock.trans clock⟩
        split at rest
        · obtain ⟨c, _, body⟩ := Option.bind_eq_some_iff.mp rest
          refine settle (noOpening_closeClient rest) ?_
          split at body
          · next mem =>
              cases body
              intro set
              have before := limited (limit ▸ set)
              have length : (q.drop cli c.fd).clients.length = p.clients.length := by
                have erased : (q.drop cli c.fd).clients = q.clients.erase cli := rfl
                rw [erased, List.length_erase_of_mem mem, clients, List.length_append]
                rfl
              rw [length]
              exact limit ▸ before
          · cases body
        · next within =>
            have qLimited : q.Limited := by
              intro set
              exact Int.not_lt.mp fun more => within ⟨set, more⟩
            split at rest
            · cases rest
              exact settle (.refl _) qLimited
            · have none := noOpening_openAnswered qWf rest
              exact settle none (none.limited qLimited)

end Steps

/-- The clock behind an action: only `server_cron` sets it. -/
def ConnAct.clock (before : Int) : ConnAct → Int
  | .cron now => now
  | _ => before

/-- What every step keeps. -/
structure ConnProc.Tables (p : ConnProc) : Prop where
  wf : p.Wf
  reads : p.Reads
  limited : p.Limited

theorem ConnProc.Tables.step {p p' : ConnProc} {act : ConnAct} {events : List ConnEvent}
    (tables : p.Tables) (stepped : p.step act = some (p', events)) :
    p'.Tables ∧ p'.clientTimeout = p.clientTimeout ∧ p'.unixClock = act.clock p.unixClock := by
  rcases tables with ⟨wf, reads, limited⟩
  have wf' := (ConnProc.step_cases wf stepped).1
  have settle : NoOpening p p' →
      p'.Tables ∧ p'.clientTimeout = p.clientTimeout ∧ p'.unixClock = p.unixClock :=
    fun none => ⟨⟨wf', none.reads reads, none.limited limited⟩, none.timeout, none.clock⟩
  cases act with
  | accept fd ip port env =>
      simp only [ConnProc.step] at stepped
      split at stepped
      · next allowed =>
          have unused := wf.unused allowed.1
          obtain ⟨reads', limited', timeout, clock⟩ := acceptCommonHandler_tables
            (wf.setFdOpen unused true) ⟨unused.quiet, unused.noClient⟩ (Function.update_self ..)
            allowed.2 reads limited stepped
          exact ⟨⟨wf', reads', limited'⟩, timeout, clock⟩
      · cases stepped
  | readable fd env =>
      simp only [ConnProc.step] at stepped
      split at stepped
      · obtain ⟨cli, _, read⟩ := Option.bind_eq_some_iff.mp stepped
        exact settle (noOpening_readFromClient read)
      · cases stepped
  | writable fd result =>
      simp only [ConnProc.step] at stepped
      split at stepped
      · obtain ⟨cli, _, written⟩ := Option.bind_eq_some_iff.mp stepped
        exact settle (noOpening_writeToClient written)
      · cases stepped
  | message msg addOk => exact settle (noOpening_notifierMessage wf stepped)
  | cron now =>
      have looped := noOpening_cronLoop stepped
      exact ⟨⟨wf', looped.reads reads, looped.limited limited⟩, looped.timeout, looped.clock⟩

theorem ConnProc.reads_init (boot : ConnBoot) : (ConnProc.init boot).Reads := by
  intro fd set
  refine Or.inr ?_
  simp only [ConnProc.init] at set ⊢
  by_cases listen : fd = boot.listenFd
  · rw [listen, Function.update_self]
    exact ⟨.acceptHandler, rfl, trivial, rfl⟩
  · rw [Function.update_of_ne listen] at set ⊢
    by_cases notifier : fd = boot.notifierFd
    · rw [notifier, Function.update_self]
      exact ⟨.notifierHandler, rfl, trivial, rfl⟩
    · rw [Function.update_of_ne notifier] at set
      simp [aeNone] at set

theorem ConnProc.tables_init (boot : ConnBoot) : (ConnProc.init boot).Tables :=
  ⟨ConnProc.wf_init boot, ConnProc.reads_init boot, fun _ => Int.emod_nonneg _ (by decide)⟩

/-- In every state of a run. -/
theorem ConnRun.tables_of_reach {boot : ConnBoot} {ok : ConnRun → ConnAct → Prop} {r : ConnRun}
    (reach : Reach ConnRun.step ok (ConnRun.init boot) r) : r.proc.Tables := by
  apply reach.invariant (P := fun r => r.proc.Tables) (ConnProc.tables_init boot)
  intro r act r' tables _ stepped
  obtain ⟨⟨p', events⟩, step, rfl⟩ := Option.map_eq_some_iff.mp stepped
  exact (tables.step step).1

/-! ## The same connections -/

/-- A client is in the list, once, exactly if `conn_vec` has it at its fd, and exactly if
a read event on its fd has it as client data. Clients have different fds, and no more of
them are open than the limit allows. -/
structure ConnProc.Agree (p : ConnProc) : Prop where
  once : ∀ {cli}, cli ∈ p.clients → p.clients.count cli = 1 ∧ ∃ c, p.heap cli = some c
  vec : ∀ {cli fd}, cli ≠ 0 →
    ((p.clients.count cli = 1 ∧ ∃ c, p.heap cli = some c ∧ c.fd = fd) ↔ p.connVec fd = cli)
  reads : ∀ {cli fd}, cli ≠ 0 →
    (p.connVec fd = cli ↔
      (p.ael.events fd).mask.readable = true ∧ (p.ael.events fd).clientData = some cli)
  apart : ∀ {cli other c c'}, p.heap cli = some c → p.heap other = some c' → c.fd = c'.fd →
    cli = other
  limit : 0 < p.clientLimit → (p.clients.length : Int) ≤ p.clientLimit

theorem ConnProc.Tables.agree {p : ConnProc} (tables : p.Tables) : p.Agree := by
  rcases tables with ⟨wf, reads, limited⟩
  constructor
  case once =>
    intro cli mem
    exact ⟨List.count_eq_one_of_mem wf.nodup mem, wf.listed mem⟩
  case vec =>
    intro cli fd nonnull
    constructor
    · intro once
      obtain ⟨_, c, live, rfl⟩ := once
      exact (wf.live live).vec
    · intro vec
      subst vec
      obtain ⟨c, live, fd⟩ := wf.vec nonnull
      exact ⟨List.count_eq_one_of_mem wf.nodup (wf.live live).listed, c, live, fd⟩
  case reads =>
    intro cli fd nonnull
    constructor
    · intro vec
      subst vec
      obtain ⟨c, live, rfl⟩ := wf.vec nonnull
      have l := wf.live live
      exact ⟨l.readable, l.data⟩
    · intro registered
      rcases registered with ⟨set, data⟩
      have reader : (p.ael.events fd).rFileProc = some .readFromClient := by
        rcases reads fd set with reader | ⟨_, _, _, null⟩
        · exact reader
        · exact absurd (Option.some_inj.mp (data.symm.trans null)) nonnull
      obtain ⟨other, c, data', live, rfl⟩ := wf.entry (Or.inl ⟨set, reader⟩)
      cases data.symm.trans data'
      exact (wf.live live).vec
  case apart =>
    intro cli other c c' live live' same
    exact (wf.live live).vec.symm.trans (same ▸ (wf.live live').vec)
  case limit =>
    intro positive
    have bound := limited (by omega)
    unfold CInt.toUInt32 at bound
    omega

theorem ConnRun.agree_of_reach {boot : ConnBoot} {ok : ConnRun → ConnAct → Prop} {r : ConnRun}
    (reach : Reach ConnRun.step ok (ConnRun.init boot) r) : r.proc.Agree :=
  (ConnRun.tables_of_reach reach).agree

end Verben
