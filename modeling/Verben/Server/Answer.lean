import Verben.Server.Run

/-!
# What a connection gets for what it sends

With any number of workers, and a plugin that either returns bytes or says that there are
none: the bytes appended to the `sendbuf` of an open connection are those it was welcomed
with, and then the answers of the plugin to frames of this very connection, no frame
answered twice; and every frame of it is answered, or still in flight
(`responses_answer_requests`).
-/

namespace Verben

open Transition

variable {W : Type}

/-- What `handle_process` answers. It may tell requests with the same bytes apart, as the
plugin has a state of its own. -/
abbrev Plugin : Type := Request → List UInt8 → ProcessAnswer

/-- The plugin never leaves a worker with the length of an earlier response. -/
def Plugin.Stores (plugin : Plugin) : Prop :=
  ∀ q data, (plugin q data).ReturnsData ∨ (plugin q data).sndlen = some 0

/-- The workers ask the plugin. -/
def AnswersBy (plugin : Plugin) (s : Server W) : ServerAct W → Prop
  | .process w answer _ =>
      ∀ m ∈ (s.worker w).phase.datagram, answer = plugin m.req m.msg.data
  | _ => True

def Serves (plugin : Plugin) (r : ServerRun W) (act : ServerAct W) : Prop :=
  NoReuse r.server act ∧ AnswersBy plugin r.server act

instance (plugin : Plugin) (s : Server W) : (act : ServerAct W) → Decidable (AnswersBy plugin s act)
  | .process w answer _ =>
      inferInstanceAs (Decidable (∀ m ∈ (s.worker w).phase.datagram,
        answer = plugin m.req m.msg.data))
  | .conn _ => .isTrue trivial
  | .wake => .isTrue trivial
  | .drain _ => .isTrue trivial
  | .pop _ => .isTrue trivial
  | .push _ => .isTrue trivial
  | .notify _ => .isTrue trivial

instance [Fintype W] (plugin : Plugin) (r : ServerRun W) (act : ServerAct W) :
    Decidable (Serves plugin r act) :=
  inferInstanceAs (Decidable (_ ∧ _))

/-- The bytes are the answer to a frame of the request. -/
def Answer (plugin : Plugin) (framed : List Parcel) (q : Parcel) : Prop :=
  ∃ data, (q.1, data) ∈ framed ∧ q.2 = (plugin q.1 data).returned

theorem Answer.mono {plugin : Plugin} {framed : List Parcel} {q : Parcel}
    (answer : Answer plugin framed q) (more : List Parcel) : Answer plugin (framed ++ more) q := by
  obtain ⟨data, mem, same⟩ := answer
  exact ⟨data, List.mem_append_left _ mem, same⟩

/-! ## Events of one connection -/

section Events

variable {p p' : ConnProc} {cli : Nat} {c c' : ClientConn} {fe fe' : AeFileEvent FileProc Nat}
  {act : ConnAct} {events : List ConnEvent}

theorem Hist.frames_of_plain (h : Hist) (plain : PlainEvents events) :
    (h.addAll events).frames = h.frames := by
  induction events generalizing h with
  | nil => rfl
  | cons e events ih =>
      rw [Hist.addAll_cons, ih _ fun e mem => plain e (List.mem_cons_of_mem _ mem)]
      cases e with
      | opened cli fd => exact absurd (plain _ List.mem_cons_self) id
      | pushed msg => exact absurd (plain _ List.mem_cons_self) id
      | _ => rfl

theorem Hist.frames_of_framed (h : Hist) {said : List ConnEvent} (plain : PlainEvents said)
    (msg : ShmMsg) : (h.addAll (said ++ [.pushed msg])).frames = h.frames ++ [msg.data] := by
  rw [Hist.addAll_append, ← h.frames_of_plain plain]
  rfl

/-- Only a response is appended to a connection that was open. -/
theorem Effect.appended (effect : Effect p cli c fe act events c' fe') (h : Hist)
    (other : ∀ msg addOk, act ≠ .message msg addOk) :
    (h.addAll events).appended = h.appended := by
  cases effect with
  | again result => rfl
  | wait result nonempty fits receive verdict =>
      simp only [Hist.addAll_cons, Hist.addAll_answered, Hist.add]
  | frame result nonempty fits receive verdict consume =>
      simp only [List.cons_append, Hist.addAll_cons, Hist.addAll_append, Hist.addAll_answered,
        Hist.addAll_nil, Hist.add]
  | drained took all clear stay unset =>
      obtain ⟨bytes, same, _⟩ := Hist.addAll_took h cli took
      rw [same]
  | shifted took part range =>
      obtain ⟨bytes, same, _⟩ := Hist.addAll_took h cli took
      rw [same]
  | responded pid vec fd target flag cat set => exact absurd rfl (other _ _)

/-- The history of a connection that was just opened. -/
theorem Opened.hist (opened : Opened p cli act events c fe) (h : Hist) :
    ∃ fd ip port env, act = .accept fd ip port env ∧ env.addr = some cli ∧
      (h.addAll events).frames = [] ∧ (h.addAll events).appended = env.welcome := by
  cases opened with
  | silent addr handleOpen =>
      refine ⟨_, _, _, _, rfl, addr, rfl, ?_⟩
      unfold AcceptEnv.welcome
      rw [handleOpen]
      rfl
  | quiet addr handleOpen retbuf =>
      refine ⟨_, _, _, _, rfl, addr, ?_, ?_⟩
      · simp only [Hist.addAll_cons, Hist.add, Hist.addAll_asked]
        rfl
      · unfold AcceptEnv.welcome
        simp only [Hist.addAll_cons, Hist.add, Hist.addAll_asked, handleOpen, retbuf]
        rfl
  | welcomed addr handleOpen retbuf cat set =>
      refine ⟨_, _, _, _, rfl, addr, ?_, ?_⟩
      · simp only [List.cons_append, Hist.addAll_cons, Hist.addAll_append, Hist.addAll_asked,
          Hist.addAll_nil, Hist.add]
        rfl
      · unfold AcceptEnv.welcome
        simp only [List.cons_append, Hist.addAll_cons, Hist.addAll_append, Hist.addAll_asked,
          Hist.addAll_nil, Hist.add, handleOpen, retbuf]
        rfl

/-- A message that finds its connection is about it. -/
theorem notifierMessage_tells {msg : ShmMsg} {addOk : Bool} (wf : p.Wf)
    (live : p.heap msg.cli = some c) (fd : c.fd = msg.fd) (pid : msg.pid = p.connPid)
    (handled : notifierMessage p msg addOk = some (p', events)) :
    ∃ e ∈ events, e.cli = msg.cli := by
  have vec : p.connVec msg.fd = msg.cli := fd ▸ (wf.live live).vec
  unfold notifierMessage at handled
  split at handled
  · cases handled
  · rw [if_neg (Decidable.not_not.mpr pid.symm), if_neg (Decidable.not_not.mpr vec), live,
      Option.bind_some] at handled
    split at handled
    · cases handled
    · obtain ⟨closeConn, _, rest⟩ := Option.bind_eq_some_iff.mp handled
      obtain ⟨tail, appended, rfl⟩ := ConnResult.of_after rest
      obtain ⟨c', _, rest⟩ := Option.bind_eq_some_iff.mp appended
      obtain ⟨sendbuf, _, rest⟩ := Option.bind_eq_some_iff.mp rest
      obtain ⟨last, _, rfl⟩ := ConnResult.of_after rest
      exact ⟨.appended msg.cli msg.data, by simp, rfl⟩

end Events

/-! ## One connection -/

/-- The history of the connection with number `n`, by the requests and the responses. -/
structure Hist.Told (h : Hist) (welcome : List UInt8) (framed taken : List Parcel) (n : Nat) :
    Prop where
  frames : h.frames = parcelsTo n framed
  appended : h.appended = welcome ++ (parcelsTo n taken).flatten

def ServerRun.Told (r : ServerRun W) (cli : Nat) : Prop :=
  (r.hist cli).Told (r.welcome cli) r.framed r.taken (r.server.serial cli)

section Steps

variable {s s' : Server W} {cli : Nat} {events : List ConnEvent}

theorem filterMap_framedBy (none : ∀ msg, .pushed msg ∉ events) :
    events.filterMap s.framedBy = [] := by
  apply List.filterMap_eq_nil_iff.mpr
  intro e mem
  cases e with
  | pushed msg => exact absurd mem (none msg)
  | _ => rfl

theorem PlainEvents.not_pushed (plain : PlainEvents events) (msg : ShmMsg) :
    .pushed msg ∉ events :=
  fun mem => plain _ mem

theorem not_pushed_of_opened {fd : Nat} (plain : PlainEvents events) (msg : ShmMsg) :
    .pushed msg ∉ .opened cli fd :: events := by
  intro mem
  rcases List.mem_cons.mp mem with same | mem
  · cases same
  · exact plain.not_pushed msg mem

/-- A welcome is for a connection that was not open. -/
theorem recordWelcome_of_live {p p' : ConnProc} {act : ConnAct} {c : ClientConn}
    (stepped : p.step act = some (p', events)) (live : p.heap cli = some c)
    (welcome : Nat → List UInt8) :
    recordWelcome (W := W) welcome (.conn act) cli = welcome cli := by
  cases act with
  | accept fd ip port env =>
      simp only [ConnProc.step] at stepped
      split at stepped
      · next allowed =>
          have fresh := allowed.2
          apply if_neg
          intro addr
          rw [addr] at fresh
          rw [fresh.2] at live
          cases live
      · cases stepped
  | _ => rfl

theorem fromLoop_of_step [DecidableEq W] {act : ConnAct} (stepped : s.step (.conn act) = some s')
    (msg : ShmMsg) (addOk : Bool) : act ≠ .message msg addOk := by
  intro same
  simp only [Server.step] at stepped
  split at stepped
  · next loop =>
      rw [same] at loop
      cases loop.2
  · cases stepped

variable {r r' : ServerRun W} {conn : ConnProc} {c' : ClientConn}
  (wf : r.server.conn.Wf) (told : ∀ {cli c}, r.server.conn.heap cli = some c → r.Told cli)
  (live' : conn.heap cli = some c')

include wf told live'

/-- A callback that opens nothing and pushes nothing. -/
theorem told_quiet {act : ConnAct} (stepped : r.server.conn.step act = some (conn, events))
    (plain : PlainEvents events) (loop : ∀ msg addOk, act ≠ .message msg addOk) :
    Hist.Told (events.foldl recordEvent r.hist cli) (recordWelcome (W := W) r.welcome (.conn act) cli)
      r.framed r.taken (r.server.serial cli) := by
  cases (ConnProc.step_cases wf stepped).2 cli c' live' with
  | same live entry quiet =>
      rw [recordEvents_of_quiet r.hist quiet, recordWelcome_of_live stepped live]
      exact told live
  | changed live about effect =>
      rw [recordEvents_of_about r.hist about, recordWelcome_of_live stepped live]
      exact ⟨(Hist.frames_of_plain _ plain).trans (told live).frames,
        (effect.appended _ loop).trans (told live).appended⟩
  | opened absent about opened => cases opened <;> exact absurd (plain _ List.mem_cons_self) id

/-- A callback that opens a connection, which nothing was framed for and answered to yet. -/
theorem told_opened {fd new : Nat} {ip : String} {port : Int} {env : AcceptEnv}
    (below : ∀ q ∈ r.framed ++ r.taken, q.1.conn < r.server.nextSerial)
    (stepped : r.server.conn.step (.accept fd ip port env) = some (conn, events))
    (addr : env.addr = some new) (absent : r.server.conn.heap new = none) :
    Hist.Told (events.foldl recordEvent r.hist cli)
      (recordWelcome (W := W) r.welcome (.conn (.accept fd ip port env)) cli)
      r.framed r.taken (Function.update r.server.serial new r.server.nextSerial cli) := by
  cases (ConnProc.step_cases wf stepped).2 cli c' live' with
  | same live entry quiet =>
      have other : cli ≠ new := by
        intro same
        rw [same, absent] at live
        cases live
      rw [recordEvents_of_quiet r.hist quiet, recordWelcome_of_live stepped live,
        Function.update_of_ne other]
      exact told live
  | changed live about effect => cases effect
  | opened absent about opened =>
      obtain ⟨_, _, _, _, accept, own, frames, appended⟩ := opened.hist (r.hist cli)
      simp only [ConnAct.accept.injEq] at accept
      obtain ⟨_, _, _, rfl⟩ := accept
      cases addr.symm.trans own
      have none : ∀ {parcels : List Parcel}, (∀ q ∈ parcels, q ∈ r.framed ++ r.taken) →
          parcelsTo r.server.nextSerial parcels = [] := fun all =>
        parcelsTo_of_ne fun q mem => Nat.ne_of_lt (below q (all q mem))
      rw [recordEvents_of_about r.hist about, Function.update_self]
      constructor
      · rw [frames, none fun q => List.mem_append_left _]
      · rw [appended, none fun q => List.mem_append_right _]
        simp only [recordWelcome, if_pos own, List.flatten_nil, List.append_nil]

/-- A read that pushes a frame. -/
theorem told_framed {env : ReadEnv} {c : ClientConn} {said : List ConnEvent} {msg : ShmMsg} {n : Nat}
    (numbered : r.server.Numbered)
    (stepped : r.server.conn.step (.readable c.fd env) = some (conn, said ++ [.pushed msg]))
    (live : r.server.conn.heap msg.cli = some c) (plain : PlainEvents said) :
    Hist.Told ((said ++ [ConnEvent.pushed msg]).foldl recordEvent r.hist cli) (r.welcome cli)
      (r.framed ++ [(⟨r.server.serial msg.cli, n⟩, msg.data)]) r.taken
      (r.server.serial cli) := by
  cases (ConnProc.step_cases wf stepped).2 cli c' live' with
  | same before entry quiet =>
      have other : r.server.serial msg.cli ≠ r.server.serial cli := fun same =>
        quiet (ConnEvent.pushed msg) (by simp) (numbered.apart live before same)
      rw [recordEvents_of_quiet r.hist quiet]
      refine ⟨?_, (told before).appended⟩
      rw [parcelsTo_append, parcelsTo_other other, List.append_nil, (told before).frames]
  | changed before about effect =>
      have own : msg.cli = cli := about (ConnEvent.pushed msg) (by simp)
      have mine : parcelsTo (r.server.serial cli) [(⟨r.server.serial msg.cli, n⟩, msg.data)] =
          [msg.data] := parcelsTo_singleton (congrArg r.server.serial own)
      rw [recordEvents_of_about r.hist about]
      refine ⟨?_, (effect.appended _ fun _ _ => nofun).trans (told before).appended⟩
      rw [Hist.frames_of_framed _ plain, parcelsTo_append, mine, (told before).frames]
  | opened absent about opened => cases opened

/-- A pass of the loop in `notifier_handler`: the response goes to its connection, and is
dropped only if that is not open. -/
theorem told_taken {m : Datagram} {addOk : Bool} (known : m.Known r.server)
    (stepped : r.server.conn.step (.message m.msg addOk) = some (conn, events)) :
    Hist.Told (events.foldl recordEvent r.hist cli) (r.welcome cli) r.framed (r.taken ++ [m.parcel])
      (r.server.serial cli) := by
  cases (ConnProc.step_cases wf stepped).2 cli c' live' with
  | same live entry quiet =>
      have other : m.req.conn ≠ r.server.serial cli := by
        intro own
        obtain ⟨addr, fd⟩ := known.addressed live own.symm
        subst addr
        obtain ⟨e, mem, about⟩ := notifierMessage_tells wf live fd known.pid stepped
        exact quiet e mem about
      rw [recordEvents_of_quiet r.hist quiet]
      refine ⟨(told live).frames, ?_⟩
      rw [parcelsTo_append, parcelsTo_other other, List.append_nil, (told live).appended]
  | changed live about effect =>
      rw [recordEvents_of_about r.hist about]
      cases effect with
      | responded pid vec fd target flag cat set =>
          subst target
          simp only [Hist.addAll_append, Hist.addAll_asked, Hist.addAll_cons, Hist.addAll_nil,
            Hist.add]
          refine ⟨(told live).frames, ?_⟩
          rw [(told live).appended, parcelsTo_append,
            parcelsTo_singleton (known.owned _ live fd).symm, List.flatten_append,
            List.flatten_singleton, ← List.append_assoc]
          rfl
  | opened absent about opened => cases opened

end Steps

/-! ## The invariant -/

structure ServerRun.Served (plugin : Plugin) (r : ServerRun W) : Prop where
  numbered : r.server.Numbered
  carries : r.server.Carries (fun m => m.Known r.server ∧ m.parcel ∈ r.framed)
    fun m => m.Known r.server ∧ Answer plugin r.framed m.parcel
  below : ∀ q ∈ r.framed, q.1.conn < r.server.nextSerial
  answers : ∀ q ∈ r.taken, Answer plugin r.framed q
  told : ∀ {cli c}, r.server.conn.heap cli = some c → r.Told cli
  framedLog : r.framed.map Prod.fst = r.server.log.filterMap LogEvent.framedReq
  takenLog : r.taken.map Prod.fst = r.server.log.filterMap LogEvent.takenReq

section Next

variable {plugin : Plugin} {r : ServerRun W} {act : ServerAct W} (s' : Server W)

/-- A step in which the connection process does nothing. -/
theorem next_still (said : r.server.said act = []) (taken : r.server.takenBy act = [])
    (welcome : recordWelcome r.welcome act = r.welcome) :
    r.next act s' = { r with server := s' } := by
  unfold ServerRun.next
  rw [said, taken, welcome, List.filterMap_nil, List.append_nil, List.append_nil]
  rfl

theorem said_finish {addOk : Bool} (empty : r.server.sendQueue = []) :
    r.server.said (.drain addOk) = [] ∧ r.server.takenBy (.drain addOk) = [] := by
  simp only [Server.said, Server.connAct, Server.takenBy, empty]
  exact ⟨rfl, rfl⟩

/-- A callback of the event loop that pushes nothing. -/
theorem framed_next_quiet {a : ConnAct} {conn : ConnProc} {events : List ConnEvent}
    (stepped : r.server.conn.step a = some (conn, events)) (none : ∀ msg, .pushed msg ∉ events) :
    (r.next (.conn a) s').framed = r.framed := by
  unfold ServerRun.next
  rw [Server.said_conn stepped, filterMap_framedBy none, List.append_nil]

theorem framed_next {env : ReadEnv} {c : ClientConn} {conn : ConnProc}
    {said : List ConnEvent} {msg : ShmMsg}
    (stepped : r.server.conn.step (.readable c.fd env) = some (conn, said ++ [.pushed msg]))
    (plain : PlainEvents said) :
    (r.next (.conn (.readable c.fd env)) s').framed =
      r.framed ++ [(⟨r.server.serial msg.cli, r.server.nextReq⟩, msg.data)] := by
  unfold ServerRun.next
  rw [Server.said_conn stepped, List.filterMap_append, filterMap_framedBy plain.not_pushed]
  rfl

theorem framed_next_drain {addOk : Bool} {m : Datagram} {rest : List Datagram} {conn : ConnProc}
    {events : List ConnEvent} (wf : r.server.conn.Wf) (queue : r.server.sendQueue = m :: rest)
    (stepped : r.server.conn.step (.message m.msg addOk) = some (conn, events)) :
    (r.next (.drain addOk) s').framed = r.framed := by
  unfold ServerRun.next
  rw [Server.said_drain queue stepped]
  cases ConnProc.step_events wf stepped with
  | plain plain => rw [filterMap_framedBy plain.not_pushed, List.append_nil]

theorem taken_next (a : ConnAct) : (r.next (.conn a) s').taken = r.taken := List.append_nil _

theorem taken_next_drain {addOk : Bool} {m : Datagram} {rest : List Datagram}
    (queue : r.server.sendQueue = m :: rest) :
    (r.next (.drain addOk) s').taken = r.taken ++ [m.parcel] := by
  simp only [ServerRun.next, Server.takenBy, queue]
  rfl

/-- A worker that asks the plugin pushes what that returned. -/
theorem data_of_replied {w : W} {answer : ProcessAnswer} {memory : Option (Nat → UInt8)}
    {m : Datagram} {retlen : Int} {msg : ShmMsg} {s : Server W} (stores : plugin.Stores)
    (guard : AnswersBy plugin s (.process w answer memory))
    (holding : (s.worker w).phase = .holding m)
    (replied : workerReply (s.worker w).retlen ⟨m.msg, answer, memory⟩ = some (retlen, msg)) :
    msg.data = (plugin m.req m.msg.data).returned := by
  have asked : answer = plugin m.req m.msg.data := guard m (by rw [holding]; rfl)
  obtain ⟨_, response⟩ := workerReply_eq_response_iff replied
  have right : msg = Handled.response ⟨m.msg, answer, memory⟩ := by
    apply response.mpr
    rw [asked]
    refine (stores m.req m.msg.data).imp_right fun zero => ?_
    unfold ProcessAnswer.retlen
    rw [zero]
    rfl
  rw [right, asked]
  rfl

theorem ServerRun.Served.answers_next (served : r.Served plugin) (s' : Server W) :
    ∀ q ∈ (r.next act s').taken, Answer plugin (r.next act s').framed q := by
  intro q mem
  rcases List.mem_append.mp mem with old | new
  · exact (served.answers q old).mono _
  · cases act with
    | drain addOk =>
        obtain ⟨m, first, rfl⟩ := List.mem_map.mp new
        exact (served.carries.send (List.mem_of_mem_take first)).2.mono _
    | _ => cases new

theorem ServerRun.served_init (plugin : Plugin) (boot : ServerBoot W) :
    (ServerRun.init boot).Served plugin := by
  refine ⟨⟨?_, ?_⟩, ⟨?_, ?_, ?_, ?_⟩, ?_, ?_, ?_, rfl, rfl⟩
  · intro cli c live
    cases live
  · intro cli c cli' c' live
    cases live
  · intro m mem
    cases mem
  · intro w m has
    cases has
  · intro w m has
    cases has
  · intro m mem
    cases mem
  · intro q mem
    cases mem
  · intro q mem
    cases mem
  · intro cli c live
    cases live

variable [DecidableEq W] {s'}

/-- A message is pushed on a connection that is open. -/
theorem live_of_pushed {msg : ShmMsg} (wf : r.server.conn.Wf)
    (stepped : r.server.step act = some s') (said : .pushed msg ∈ r.server.said act) :
    ∃ c, r.server.conn.heap msg.cli = some c := by
  rcases Server.conn_of_step stepped with ⟨a, events, _, callback, same⟩ | ⟨_, none⟩
  · rw [same] at said
    cases ConnProc.step_events wf callback with
    | plain plain => exact absurd said (plain.not_pushed msg)
    | opened addr absent plain => exact absurd said (not_pushed_of_opened plain msg)
    | pushed live fd plain =>
        rcases List.mem_append.mp said with first | last
        · exact absurd first (plain.not_pushed msg)
        · cases List.mem_singleton.mp last
          exact ⟨_, live⟩
  · rw [none] at said
    cases said

/-- The requests and responses of a run are those of the log. -/
theorem ServerRun.log_next (wf : r.server.conn.Wf) (moves : r.server.Moves act s')
    (framed : r.framed.map Prod.fst = r.server.log.filterMap LogEvent.framedReq)
    (taken : r.taken.map Prod.fst = r.server.log.filterMap LogEvent.takenReq) :
    (r.next act s').framed.map Prod.fst = s'.log.filterMap LogEvent.framedReq ∧
      (r.next act s').taken.map Prod.fst = s'.log.filterMap LogEvent.takenReq := by
  cases moves with
  | quiet loop stepped plain =>
      rw [framed_next_quiet _ stepped plain.not_pushed, taken_next]
      exact ⟨framed, taken⟩
  | opened loop stepped addr absent plain =>
      rw [framed_next_quiet _ stepped (not_pushed_of_opened plain), taken_next]
      exact ⟨framed, taken⟩
  | framed loop stepped live fd plain =>
      rw [framed_next _ stepped plain, taken_next]
      simp [List.filterMap_cons, framed, taken]
  | wake loop read =>
      rw [next_still _ rfl rfl rfl]
      exact ⟨framed, taken⟩
  | finish empty =>
      rw [next_still _ (said_finish empty).1 (said_finish empty).2 rfl]
      exact ⟨framed, taken⟩
  | discard draining queue stepped =>
      rw [framed_next_drain _ wf queue stepped, taken_next_drain _ queue]
      simp [List.filterMap_cons, framed, taken, Datagram.parcel]
  | append draining queue stepped live fd =>
      rw [framed_next_drain _ wf queue stepped, taken_next_drain _ queue]
      simp [List.filterMap_cons, framed, taken, Datagram.parcel]
  | pop idle queue =>
      rw [next_still _ rfl rfl rfl]
      simp [Server.setWorker, List.filterMap_cons, framed, taken]
  | process holding replied =>
      rw [next_still _ rfl rfl rfl]
      exact ⟨framed, taken⟩
  | push replying =>
      rw [next_still _ rfl rfl rfl]
      simp [Server.setWorker, List.filterMap_cons, framed, taken]
  | notify notifying =>
      rw [next_still _ rfl rfl rfl]
      exact ⟨framed, taken⟩

/-- **A step keeps every connection told.** -/
theorem ServerRun.Served.told_next (served : r.Served plugin) (wf : r.server.conn.Wf)
    (stepped : r.server.step act = some s') (moves : r.server.Moves act s') {cli : Nat}
    {c' : ClientConn} (live' : s'.conn.heap cli = some c') : (r.next act s').Told cli := by
  have below : ∀ q ∈ r.framed ++ r.taken, q.1.conn < r.server.nextSerial := by
    intro q mem
    rcases List.mem_append.mp mem with mem | mem
    · exact served.below q mem
    · obtain ⟨data, mem', _⟩ := served.answers q mem
      exact served.below (q.1, data) mem'
  change Hist.Told ((r.server.said act).foldl recordEvent r.hist cli)
    (recordWelcome r.welcome act cli) (r.next act s').framed (r.next act s').taken (s'.serial cli)
  cases moves with
  | quiet loop step plain =>
      rw [framed_next_quiet _ step plain.not_pushed, taken_next, Server.said_conn step]
      exact told_quiet wf served.told live' step plain (fromLoop_of_step stepped)
  | opened loop step addr absent plain =>
      rw [framed_next_quiet _ step (not_pushed_of_opened plain), taken_next,
        Server.said_conn step]
      exact told_opened wf served.told live' below step addr absent
  | framed loop step live fd plain =>
      rw [framed_next _ step plain, taken_next, Server.said_conn step]
      exact told_framed wf served.told live' served.numbered step live plain
  | discard draining queue step =>
      have known := (served.carries.send (queue ▸ List.mem_cons_self)).1
      rw [framed_next_drain _ wf queue step, taken_next_drain _ queue, Server.said_drain queue step]
      exact told_taken wf served.told live' known step
  | append draining queue step live fd =>
      have known := (served.carries.send (queue ▸ List.mem_cons_self)).1
      rw [framed_next_drain _ wf queue step, taken_next_drain _ queue, Server.said_drain queue step]
      exact told_taken wf served.told live' known step
  | finish empty =>
      rw [next_still _ (said_finish empty).1 (said_finish empty).2 rfl, (said_finish empty).1]
      exact served.told live'
  | _ =>
      rw [next_still _ rfl rfl rfl]
      exact served.told live'

/-- **A step keeps what the messages carry.** -/
theorem ServerRun.Served.carries_next (stores : plugin.Stores) (served : r.Served plugin)
    (wf : r.server.conn.Wf) (guard : Serves plugin r act) (moves : r.server.Moves act s') :
    s'.Carries (fun m => m.Known s' ∧ m.parcel ∈ (r.next act s').framed)
      fun m => m.Known s' ∧ Answer plugin (r.next act s').framed m.parcel := by
  have moved : r.server.Carries (fun m => m.Known s' ∧ m.parcel ∈ (r.next act s').framed)
      fun m => m.Known s' ∧ Answer plugin (r.next act s').framed m.parcel := by
    refine served.carries.mono ?_ ?_
    · intro m flight both
      exact ⟨both.1.step moves wf flight guard.1, List.mem_append_left _ both.2⟩
    · intro m flight both
      exact ⟨both.1.step moves wf flight guard.1, both.2.mono _⟩
  refine moved.step moves ?_ ?_
  · intro env c conn said msg same stepped live fd plain leads
    subst same leads
    refine ⟨known_of_framed wf served.numbered stepped live fd, ?_⟩
    rw [framed_next _ stepped plain]
    exact List.mem_append_right _ List.mem_cons_self
  · intro w answer memory m retlen msg same holding both replied
    subst same
    obtain ⟨known, framed⟩ := both
    have header := workerReply_header replied
    refine ⟨known.congr ?_ (by rw [header]), m.msg.data, framed,
      data_of_replied stores guard.2 holding replied⟩
    unfold Datagram.route
    rw [header]

theorem ServerRun.Served.below_next (served : r.Served plugin) (wf : r.server.conn.Wf)
    (stepped : r.server.step act = some s') (moves : r.server.Moves act s') :
    ∀ q ∈ (r.next act s').framed, q.1.conn < s'.nextSerial := by
  have grown := moves.nextSerial_le
  intro q mem
  rcases List.mem_append.mp mem with old | new
  · exact Nat.lt_of_lt_of_le (served.below q old) grown
  · obtain ⟨e, said, framedBy⟩ := List.mem_filterMap.mp new
    cases e <;> cases framedBy
    next msg =>
      obtain ⟨c, live⟩ := live_of_pushed wf stepped said
      exact Nat.lt_of_lt_of_le (served.numbered.below live) grown

/-- **The server serves.** -/
theorem ServerRun.served_of_reach {boot : ServerBoot W} (stores : plugin.Stores)
    (reach : Reach ServerRun.step (Serves plugin) (ServerRun.init boot) r) : r.Served plugin := by
  refine ServerRun.holds_of_reach reach (ServerRun.served_init plugin boot) ?_
  intro r act s' wf served guard stepped moves
  have carries := served.carries_next stores wf guard moves
  obtain ⟨framedLog, takenLog⟩ := r.log_next wf moves served.framedLog served.takenLog
  exact ⟨moves.numbered wf served.numbered, carries, served.below_next wf stepped moves,
    served.answers_next s', served.told_next wf stepped moves, framedLog, takenLog⟩

end Next

/-- **A connection gets the answers to what it sends.** For any number of workers and any
plugin that stores the number of the bytes it returns, or 0, in every state that a run
reaches in which no `accept` gives the address and the fd of a message in flight. For every
open connection: the frames of its requests are those that were pushed for it, and what was
appended to its `sendbuf` is what it was welcomed with and the responses to its requests.
Every response is what the plugin returned for the frame of its request; no request is
pushed twice or answered twice; and every request is answered, or in flight. -/
theorem responses_answer_requests [DecidableEq W] {plugin : Plugin} {boot : ServerBoot W}
    {r : ServerRun W} (stores : plugin.Stores)
    (reach : Reach ServerRun.step (Serves plugin) (ServerRun.init boot) r) :
    (∀ cli c, r.server.conn.heap cli = some c →
      (r.hist cli).frames = parcelsTo (r.server.serial cli) r.framed ∧
      (r.hist cli).appended =
        r.welcome cli ++ (parcelsTo (r.server.serial cli) r.taken).flatten) ∧
    (∀ q data, (q, data) ∈ r.taken →
      ∃ frame, (q, frame) ∈ r.framed ∧ data = (plugin q frame).returned) ∧
    (r.framed.map Prod.fst).Nodup ∧ (r.taken.map Prod.fst).Nodup ∧
    ∀ q frame, (q, frame) ∈ r.framed →
      (∃ data, (q, data) ∈ r.taken) ∨ ∃ m, r.server.InFlight m ∧ m.req = q := by
  have served := ServerRun.served_of_reach stores reach
  have ran : Reach Server.step always (Server.init boot) r.server :=
    ServerRun.reach_server (fun _ => trivial) reach
  have logged := Server.logged_of_reach ran
  have queued := logged.queued
  refine ⟨fun cli c live => ⟨(served.told live).frames, (served.told live).appended⟩,
    fun q data mem => served.answers _ mem, ?_, ?_, ?_⟩
  · rw [served.framedLog]
    exact queued.framedNodup
  · rw [served.takenLog]
    exact (queued.pushed ▸ queued.pushedNodup).sublist (List.sublist_append_left _ _)
  · intro q frame mem
    have framed : q ∈ r.server.log.filterMap LogEvent.framedReq :=
      served.framedLog ▸ List.mem_map_of_mem mem
    rw [queued.framed] at framed
    rcases List.mem_append.mp framed with popped | waits
    · obtain ⟨e, popped, same⟩ := List.mem_filterMap.mp popped
      cases e <;> cases same
      next w =>
        rcases logged.worked.done popped with pushed | held
        · have pushed := mem_pushedReq.mpr ⟨w, pushed⟩
          rw [queued.pushed, ← served.takenLog] at pushed
          rcases List.mem_append.mp pushed with taken | waits
          · obtain ⟨⟨_, data⟩, there, rfl⟩ := List.mem_map.mp taken
            exact .inl ⟨data, there⟩
          · obtain ⟨m, send, own⟩ := List.mem_map.mp waits
            exact .inr ⟨m, .inr (.inl send), own⟩
        · obtain ⟨m, has, own⟩ := Option.map_eq_some_iff.mp held
          exact .inr ⟨m, .inr (.inr ⟨w, has⟩), own⟩
    · obtain ⟨m, recv, own⟩ := List.mem_map.mp waits
      exact .inr ⟨m, .inl recv, own⟩

/-- A plugin that returns each frame twice. -/
def twicePlugin : Plugin := fun _ data =>
  ⟨0, some (data ++ data), some (data ++ data).length⟩

theorem twicePlugin_stores : twicePlugin.Stores :=
  fun _ _ => .inl ⟨(by decide : (0 : Int) ≠ verbenError), rfl, rfl⟩

/-- Two requests on one connection, the second of which is answered first. -/
def twiceRun : List (ServerAct Bool) :=
  [.conn firstAccept, oneByteRead 65, oneByteRead 66, .pop false, .pop true,
    .process true ⟨0, some [66, 66], some 2⟩ (some fun _ => 0), .push true, .notify true,
    .process false ⟨0, some [65, 65], some 2⟩ (some fun _ => 0), .push false, .wake,
    .drain true, .drain true]

theorem responses_answer_requests_twice :
    ∃ r : ServerRun Bool, runGuarded ServerRun.step (Serves twicePlugin)
        (ServerRun.init (defaultServer Bool)) twiceRun = some r ∧
      (r.hist 1).appended = [66, 66, 65, 65] ∧
      (∀ cli c, r.server.conn.heap cli = some c →
        (r.hist cli).frames = parcelsTo (r.server.serial cli) r.framed ∧
        (r.hist cli).appended =
          r.welcome cli ++ (parcelsTo (r.server.serial cli) r.taken).flatten) ∧
      (∀ q data, (q, data) ∈ r.taken →
        ∃ frame, (q, frame) ∈ r.framed ∧ data = (twicePlugin q frame).returned) ∧
      (r.framed.map Prod.fst).Nodup ∧ (r.taken.map Prod.fst).Nodup ∧
      ∀ q frame, (q, frame) ∈ r.framed →
        (∃ data, (q, data) ∈ r.taken) ∨ ∃ m, r.server.InFlight m ∧ m.req = q := by
  have evaluated : (runGuarded ServerRun.step (Serves twicePlugin)
      (ServerRun.init (defaultServer Bool)) twiceRun).map (fun r => (r.hist 1).appended) =
        some [66, 66, 65, 65] := by
    decide +kernel
  obtain ⟨r, ran, appended⟩ := Option.map_eq_some_iff.mp evaluated
  exact ⟨r, ran, appended,
    responses_answer_requests twicePlugin_stores (reach_of_runGuarded ran)⟩

end Verben
