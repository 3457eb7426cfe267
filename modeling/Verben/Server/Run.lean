import Verben.Conn.Pid
import Verben.Server.Log
import Verben.Server.Routing

/-!
# Requests and their bytes

A run of the server that carries, beside the state, the history of each connection, the
requests with the bytes that were pushed for them, and the responses with the bytes that
`notifier_handler` took from `send_queue`. Its connection process makes a run of its own
(`ServerRun.reach_connRun`), so what holds of those holds here. Connections that are open
have different numbers, and a message in flight whose request came on one of them carries
its address and its fd (`ServerRun.numbered_of_reach`).
-/

namespace Verben

open Transition

/-- A request, and the bytes of it or of the response to it. -/
abbrev Parcel : Type := Request × List UInt8

def Datagram.parcel (m : Datagram) : Parcel := (m.req, m.msg.data)

/-- The bytes for one connection. -/
def parcelsTo (n : Nat) (parcels : List Parcel) : List (List UInt8) :=
  (parcels.filter (·.1.conn = n)).map Prod.snd

/-- What `handle_open` wants to send. -/
def AcceptEnv.welcome (env : AcceptEnv) : List UInt8 :=
  match env.handleOpen with
  | some answer => answer.retbuf.getD []
  | none => []

section

variable {W : Type}

/-- The callback of the connection process in a step. -/
def Server.connAct (s : Server W) : ServerAct W → Option ConnAct
  | .conn act => some act
  | .drain addOk => s.sendQueue.head?.map fun m => .message m.msg addOk
  | _ => none

/-- What a step did to the connections. -/
def Server.said (s : Server W) (act : ServerAct W) : List ConnEvent :=
  match (s.connAct act).bind s.conn.step with
  | some done => done.2
  | none => []

/-- The request that an event pushed. -/
def Server.framedBy (s : Server W) : ConnEvent → Option Parcel
  | .pushed msg => some (⟨s.serial msg.cli, s.nextReq⟩, msg.data)
  | _ => none

/-- The response that a step takes. -/
def Server.takenBy (s : Server W) : ServerAct W → List Parcel
  | .drain _ => (s.sendQueue.take 1).map Datagram.parcel
  | _ => []

/-- What each connection is welcomed with. -/
def recordWelcome (welcome : Nat → List UInt8) (act : ServerAct W) (cli : Nat) : List UInt8 :=
  match act with
  | .conn (.accept _ _ _ env) => if env.addr = some cli then env.welcome else welcome cli
  | _ => welcome cli

/-- The server with the history of its connections, requests and responses. -/
structure ServerRun (W : Type) : Type where
  server : Server W
  hist : Nat → Hist
  welcome : Nat → List UInt8
  framed : List Parcel
  taken : List Parcel

def ServerRun.init (boot : ServerBoot W) : ServerRun W where
  server := .init boot
  hist := fun _ => .empty
  welcome := fun _ => []
  framed := []
  taken := []

/-- The connection process of the run. -/
def ServerRun.connRun (r : ServerRun W) : ConnRun := ⟨r.server.conn, r.hist⟩

/-- The run behind a step that leads to `s`. -/
def ServerRun.next (r : ServerRun W) (act : ServerAct W) (s : Server W) : ServerRun W where
  server := s
  hist := (r.server.said act).foldl recordEvent r.hist
  welcome := recordWelcome r.welcome act
  framed := r.framed ++ (r.server.said act).filterMap r.server.framedBy
  taken := r.taken ++ r.server.takenBy act

def ServerRun.step [DecidableEq W] (r : ServerRun W) (act : ServerAct W) : Option (ServerRun W) :=
  (r.server.step act).map (r.next act)

end

@[simp] theorem parcelsTo_nil (n : Nat) : parcelsTo n [] = [] := rfl

@[simp] theorem parcelsTo_append (n : Nat) (parcels more : List Parcel) :
    parcelsTo n (parcels ++ more) = parcelsTo n parcels ++ parcelsTo n more := by
  unfold parcelsTo
  rw [List.filter_append, List.map_append]

theorem parcelsTo_of_ne {n : Nat} {parcels : List Parcel} (other : ∀ q ∈ parcels, q.1.conn ≠ n) :
    parcelsTo n parcels = [] := by
  unfold parcelsTo
  rw [List.filter_eq_nil_iff.mpr fun q mem => by simpa using other q mem]
  rfl

theorem parcelsTo_other {n : Nat} {q : Parcel} (other : q.1.conn ≠ n) : parcelsTo n [q] = [] :=
  parcelsTo_of_ne fun _ mem => List.mem_singleton.mp mem ▸ other

theorem parcelsTo_singleton {n : Nat} {q : Parcel} (own : q.1.conn = n) :
    parcelsTo n [q] = [q.2] := by
  unfold parcelsTo
  rw [List.filter_cons_of_pos (by simpa using own)]
  rfl

/-! ## Events and histories -/

section Steps

variable {W : Type} {s : Server W}

theorem Server.said_conn {act : ConnAct} {conn : ConnProc} {events : List ConnEvent}
    (stepped : s.conn.step act = some (conn, events)) : s.said (.conn act) = events := by
  unfold Server.said Server.connAct
  rw [Option.bind_some, stepped]

theorem Server.said_drain {addOk : Bool} {m : Datagram} {rest : List Datagram} {conn : ConnProc}
    {events : List ConnEvent} (queue : s.sendQueue = m :: rest)
    (stepped : s.conn.step (.message m.msg addOk) = some (conn, events)) :
    s.said (.drain addOk) = events := by
  simp only [Server.said, Server.connAct, queue, List.head?_cons, Option.map_some,
    Option.bind_some, stepped]

theorem conn_foldl_record (events : List ConnEvent) (s : Server W) :
    (events.foldl Server.record s).conn = s.conn := by
  induction events generalizing s with
  | nil => rfl
  | cons e events ih =>
      rw [List.foldl_cons, ih]
      cases e <;> rfl

/-! ## Connections and messages -/

/-- Live connections have different numbers, all of them given out. -/
structure Server.Numbered (s : Server W) : Prop where
  below : ∀ {cli c}, s.conn.heap cli = some c → s.serial cli < s.nextSerial
  apart : ∀ {cli c cli' c'}, s.conn.heap cli = some c → s.conn.heap cli' = some c' →
    s.serial cli = s.serial cli' → cli = cli'

/-- A message finds the connection of its request, as long as that is open, by its address
and its fd, and finds no other by them. -/
structure Datagram.Known (m : Datagram) (s : Server W) : Prop where
  below : m.req.conn < s.nextSerial
  pid : m.msg.pid = s.conn.connPid
  addressed : ∀ {cli c}, s.conn.heap cli = some c → s.serial cli = m.req.conn →
    cli = m.msg.cli ∧ c.fd = m.msg.fd
  owned : m.Owned s.conn s.serial

theorem Datagram.Known.congr {m m' : Datagram} (known : m.Known s) (same : m.route = m'.route)
    (pid : m.msg.pid = m'.msg.pid) : m'.Known s := by
  obtain ⟨req, cli, fd⟩ := Datagram.route_eq_iff.mp same
  refine ⟨req ▸ known.below, pid ▸ known.pid, ?_, known.owned.congr same⟩
  intro cli' c live own
  rw [← cli, ← fd]
  exact known.addressed live (own.trans (congrArg Request.conn req.symm))

/-- The message that a frame is pushed in. -/
theorem known_of_framed {env : ReadEnv} {c : ClientConn} {conn : ConnProc}
    {said : List ConnEvent} {msg : ShmMsg} {recvQueue : List Datagram} {log : List (LogEvent W)}
    {n : Nat} (wf : s.conn.Wf) (numbered : s.Numbered)
    (stepped : s.conn.step (.readable c.fd env) = some (conn, said ++ [.pushed msg]))
    (live : s.conn.heap msg.cli = some c) (fd : msg.fd = c.fd) :
    Datagram.Known ⟨⟨s.serial msg.cli, n⟩, msg⟩
      { s with conn := conn, recvQueue := recvQueue, nextReq := n + 1, log := log } := by
  constructor
  case below => exact numbered.below live
  case pid =>
    have kept : conn.connPid = s.conn.connPid := ConnProc.pid_of_step stepped
    rw [wf.step_readable live] at stepped
    exact (readFromClient_pushed stepped (by simp)).trans kept.symm
  case addressed =>
    intro cli c' live' own
    rcases ConnProc.fd_of_step wf stepped live' with ⟨c₀, live₀, fd₀⟩ | ⟨_, _, _, taken, _⟩
    · have same : cli = msg.cli := numbered.apart live₀ live own
      refine ⟨same, ?_⟩
      rw [same, live] at live₀
      cases live₀
      exact fd₀.symm.trans fd.symm
    · cases taken
  case owned => exact fun _ _ _ => rfl

/-- Requests on their way to a worker and in one, and responses behind that. -/
structure Server.Carries (s : Server W) (Req Res : Datagram → Prop) : Prop where
  recv : ∀ {m}, m ∈ s.recvQueue → Req m
  holding : ∀ {w m}, (s.worker w).phase = .holding m → Req m
  replying : ∀ {w m}, (s.worker w).phase = .replying m → Res m
  send : ∀ {m}, m ∈ s.sendQueue → Res m

theorem Server.Carries.mono {Req Res Req' Res' : Datagram → Prop}
    (carries : s.Carries Req Res)
    (req : ∀ {m}, s.InFlight m → Req m → Req' m) (res : ∀ {m}, s.InFlight m → Res m → Res' m) :
    s.Carries Req' Res' where
  recv mem := req (.inl mem) (carries.recv mem)
  holding {w m} has := req (.inr (.inr ⟨w, by rw [has]; rfl⟩)) (carries.holding has)
  replying {w m} has := res (.inr (.inr ⟨w, by rw [has]; rfl⟩)) (carries.replying has)
  send mem := res (.inr (.inl mem)) (carries.send mem)

/-! ## Steps -/

variable [DecidableEq W] {s' : Server W} {act : ServerAct W} {r r' : ServerRun W}

/-- The connection process takes the step of its callback, or none. -/
theorem Server.conn_of_step (stepped : s.step act = some s') :
    (∃ a events, s.connAct act = some a ∧ s.conn.step a = some (s'.conn, events) ∧
      s.said act = events) ∨ (s'.conn = s.conn ∧ s.said act = []) := by
  cases act with
  | conn act =>
      simp only [Server.step] at stepped
      split at stepped
      · obtain ⟨⟨conn, events⟩, step, rfl⟩ := Option.map_eq_some_iff.mp stepped
        refine .inl ⟨act, events, rfl, ?_, Server.said_conn step⟩
        rw [conn_foldl_record, step]
      · cases stepped
  | drain addOk =>
      simp only [Server.step, Server.drain] at stepped
      split at stepped
      · split at stepped
        · next empty =>
            cases stepped
            refine .inr ⟨rfl, ?_⟩
            unfold Server.said Server.connAct
            rw [empty]
            rfl
        · next queue =>
            obtain ⟨⟨conn, events⟩, step, rfl⟩ := Option.map_eq_some_iff.mp stepped
            refine .inl ⟨.message _ addOk, events, ?_, step, Server.said_drain queue step⟩
            unfold Server.connAct
            rw [queue]
            rfl
      · cases stepped
  | wake =>
      simp only [Server.step] at stepped
      split at stepped
      · obtain ⟨pipe, _, rfl⟩ := Option.map_eq_some_iff.mp stepped
        exact .inr ⟨rfl, rfl⟩
      · cases stepped
  | pop w =>
      simp only [Server.step, Server.pop] at stepped
      split at stepped <;> cases stepped
      exact .inr ⟨rfl, rfl⟩
  | process w answer memory =>
      simp only [Server.step, Server.process] at stepped
      split at stepped
      · obtain ⟨_, _, rfl⟩ := Option.map_eq_some_iff.mp stepped
        exact .inr ⟨rfl, rfl⟩
      · cases stepped
  | push w =>
      simp only [Server.step, Server.push] at stepped
      split at stepped <;> cases stepped
      exact .inr ⟨rfl, rfl⟩
  | notify w =>
      simp only [Server.step, Server.notify] at stepped
      split at stepped <;> cases stepped
      exact .inr ⟨rfl, rfl⟩

/-- The connection process of a run makes a run. -/
theorem ServerRun.reach_connRun {boot : ServerBoot W} {ok : ServerRun W → ServerAct W → Prop}
    {ok' : ConnRun → ConnAct → Prop}
    (guards : ∀ {r act a}, ok r act → r.server.connAct act = some a → ok' r.connRun a)
    (reach : Reach ServerRun.step ok (ServerRun.init boot) r) :
    Reach ConnRun.step ok' (ConnRun.init boot.toConnBoot) r.connRun := by
  refine reach.invariant
    (P := fun r => Reach ConnRun.step ok' (ConnRun.init boot.toConnBoot) r.connRun) .refl ?_
  intro r act r' ran guard stepped
  obtain ⟨s', step, rfl⟩ := Option.map_eq_some_iff.mp stepped
  rcases Server.conn_of_step step with ⟨a, events, callback, taken, said⟩ | ⟨same, said⟩
  · refine ran.tail ⟨a, guards guard callback, ?_⟩
    unfold ServerRun.connRun ConnRun.step ServerRun.next
    rw [taken, said]
    rfl
  · have kept : (r.next act s').connRun = r.connRun := by
      unfold ServerRun.connRun ServerRun.next
      rw [said, same]
      rfl
    rw [kept]
    exact ran

/-- The server of a run makes a run. -/
theorem ServerRun.reach_server {boot : ServerBoot W} {ok : ServerRun W → ServerAct W → Prop}
    {ok' : Server W → ServerAct W → Prop}
    (guards : ∀ {r act}, ok r act → ok' r.server act)
    (reach : Reach ServerRun.step ok (ServerRun.init boot) r) :
    Reach Server.step ok' (Server.init boot) r.server := by
  refine reach.invariant
    (P := fun r => Reach Server.step ok' (Server.init boot) r.server) .refl ?_
  intro r act r' ran guard stepped
  obtain ⟨s', step, rfl⟩ := Option.map_eq_some_iff.mp stepped
  exact ran.tail ⟨act, guards guard, step⟩

/-- **The induction rule for runs with their requests.** -/
theorem ServerRun.holds_of_reach {boot : ServerBoot W} {ok : ServerRun W → ServerAct W → Prop}
    {P : ServerRun W → Prop} (reach : Reach ServerRun.step ok (ServerRun.init boot) r)
    (init : P (ServerRun.init boot))
    (keep : ∀ {r act s'}, r.server.conn.Wf → P r → ok r act → r.server.step act = some s' →
      r.server.Moves act s' → P (r.next act s')) : P r := by
  refine (reach.invariant (P := fun r => r.server.conn.Wf ∧ P r)
    ⟨ConnProc.wf_init _, init⟩ ?_).2
  intro r act r' both guard stepped
  rcases both with ⟨wf, holds⟩
  obtain ⟨s', step, rfl⟩ := Option.map_eq_some_iff.mp stepped
  have moves := Server.step_cases wf step
  exact ⟨moves.wf wf, keep wf holds guard step moves⟩

/-! ## Numbers of connections -/

/-- A connection that is live after a plain step was live before, on the same fd. -/
theorem ConnProc.live_of_plain {p p' : ConnProc} {act : ConnAct} {events : List ConnEvent}
    {cli : Nat} {c' : ClientConn} (wf : p.Wf) (stepped : p.step act = some (p', events))
    (plain : PlainEvents events) (live' : p'.heap cli = some c') :
    ∃ c, p.heap cli = some c ∧ c.fd = c'.fd := by
  cases (ConnProc.step_cases wf stepped).2 cli c' live' with
  | same live entry quiet => exact ⟨c', live, rfl⟩
  | changed live about effect => exact ⟨_, live, effect.fd.symm⟩
  | opened absent about opened =>
      cases opened <;> exact absurd (plain _ List.mem_cons_self) id

/-- The step accepts a connection, which gets the next number. -/
structure Server.Accepts (s s' : Server W) (act : ServerAct W) (cli fd : Nat) : Prop where
  accept : ∃ ip port env, act = .conn (.accept fd ip port env) ∧ env.addr = some cli
  absent : s.conn.heap cli = none
  serial : s'.serial cli = s.nextSerial
  next : s'.nextSerial = s.nextSerial + 1

/-- What is live after a step of the server was live before it, on the same fd and with
the same number, or was accepted. -/
theorem Server.Moves.live (moves : s.Moves act s') (wf : s.conn.Wf) {cli : Nat}
    {c' : ClientConn} (live' : s'.conn.heap cli = some c') :
    (∃ c, s.conn.heap cli = some c ∧ c.fd = c'.fd ∧ s'.serial cli = s.serial cli) ∨
      s.Accepts s' act cli c'.fd := by
  cases moves with
  | quiet loop stepped plain =>
      obtain ⟨c, live, fd⟩ := ConnProc.live_of_plain wf stepped plain live'
      exact .inl ⟨c, live, fd, rfl⟩
  | @opened fd new ip port env conn tail loop stepped addr absent plain =>
      rcases ConnProc.fd_of_step wf stepped live' with ⟨c, live, fd'⟩ | ⟨_, _, _, taken, addr'⟩
      · have other : cli ≠ new := by
          intro same
          rw [same, absent] at live
          cases live
        exact .inl ⟨c, live, fd', Function.update_of_ne other ..⟩
      · cases taken
        cases addr.symm.trans addr'
        exact .inr ⟨⟨_, _, _, rfl, addr⟩, absent, Function.update_self .., rfl⟩
  | framed loop stepped live fd plain =>
      rcases ConnProc.fd_of_step wf stepped live' with ⟨c, live, fd⟩ | ⟨_, _, _, taken, _⟩
      · exact .inl ⟨c, live, fd, rfl⟩
      · cases taken
  | discard draining queue stepped =>
      rcases ConnProc.fd_of_step wf stepped live' with ⟨c, live, fd⟩ | ⟨_, _, _, taken, _⟩
      · exact .inl ⟨c, live, fd, rfl⟩
      · cases taken
  | append draining queue stepped live fd =>
      rcases ConnProc.fd_of_step wf stepped live' with ⟨c, live, fd⟩ | ⟨_, _, _, taken, _⟩
      · exact .inl ⟨c, live, fd, rfl⟩
      · cases taken
  | wake loop read => exact .inl ⟨c', live', rfl, rfl⟩
  | finish empty => exact .inl ⟨c', live', rfl, rfl⟩
  | pop idle queue => exact .inl ⟨c', live', rfl, rfl⟩
  | process holding replied => exact .inl ⟨c', live', rfl, rfl⟩
  | push replying => exact .inl ⟨c', live', rfl, rfl⟩
  | notify notifying => exact .inl ⟨c', live', rfl, rfl⟩

theorem Server.Moves.nextSerial_le (moves : s.Moves act s') : s.nextSerial ≤ s'.nextSerial := by
  cases moves with
  | opened loop stepped addr absent plain => exact Nat.le_succ _
  | _ => exact Nat.le_refl _

theorem Server.Moves.pid (moves : s.Moves act s') : s'.conn.connPid = s.conn.connPid := by
  cases moves with
  | quiet loop stepped plain => exact ConnProc.pid_of_step stepped
  | opened loop stepped addr absent plain => exact ConnProc.pid_of_step stepped
  | framed loop stepped live fd plain => exact ConnProc.pid_of_step stepped
  | discard draining queue stepped => exact ConnProc.pid_of_step stepped
  | append draining queue stepped live fd => exact ConnProc.pid_of_step stepped
  | _ => rfl

theorem Server.Moves.numbered (moves : s.Moves act s') (wf : s.conn.Wf) (numbered : s.Numbered) :
    s'.Numbered := by
  constructor
  case below =>
    intro cli c' live'
    rcases moves.live wf live' with ⟨c, live, _, same⟩ | accepts
    · rw [same]
      exact Nat.lt_of_lt_of_le (numbered.below live) moves.nextSerial_le
    · rw [accepts.serial, accepts.next]
      exact Nat.lt_succ_self _
  case apart =>
    intro cli₁ c₁ cli₂ c₂ live₁ live₂ eq
    rcases moves.live wf live₁ with ⟨c, old₁, _, same₁⟩ | new₁ <;>
      rcases moves.live wf live₂ with ⟨c', old₂, _, same₂⟩ | new₂
    · exact numbered.apart old₁ old₂ (same₁.symm.trans (eq.trans same₂))
    · have below := numbered.below old₁
      have last := new₂.serial
      omega
    · have below := numbered.below old₂
      have last := new₁.serial
      omega
    · obtain ⟨_, _, _, rfl, addr₁⟩ := new₁.accept
      obtain ⟨_, _, _, same, addr₂⟩ := new₂.accept
      simp only [ServerAct.conn.injEq, ConnAct.accept.injEq] at same
      obtain ⟨_, _, _, rfl⟩ := same
      exact Option.some.inj (addr₁.symm.trans addr₂)

theorem Datagram.Known.step {m : Datagram} (known : m.Known s) (moves : s.Moves act s')
    (wf : s.conn.Wf) (flight : s.InFlight m) (guard : NoReuse s act) : m.Known s' := by
  constructor
  case below => exact Nat.lt_of_lt_of_le known.below moves.nextSerial_le
  case pid => exact known.pid.trans moves.pid.symm
  case addressed =>
    intro cli c' live' own
    rcases moves.live wf live' with ⟨c, live, fd, same⟩ | accepts
    · obtain ⟨addr, fd'⟩ := known.addressed live (same.symm.trans own)
      exact ⟨addr, fd.symm.trans fd'⟩
    · have below := known.below
      have last := accepts.serial
      omega
  case owned =>
    apply moves.owned wf known.owned
    intro fd ip port env accept
    subst accept
    exact guard m flight

/-! ## What the messages carry -/

section Carries

variable {Req Res : Datagram → Prop}

/-- The phase of a worker after one has changed its own. -/
theorem phase_setWorker {w w' : W} {x : Worker} {phase : Phase}
    (has : ((s.setWorker w x).worker w').phase = phase) :
    x.phase = phase ∨ (s.worker w').phase = phase := by
  by_cases at_w : w' = w
  · rw [at_w, worker_setWorker_self] at has
    exact .inl has
  · rw [worker_setWorker_ne _ _ at_w] at has
    exact .inr has

/-- Messages move on; a frame becomes a request, and a worker turns one into a response. -/
theorem Server.Carries.step (carries : s.Carries Req Res) (moves : s.Moves act s')
    (framed : ∀ {env c conn said msg}, act = .conn (.readable c.fd env) →
      s.conn.step (.readable c.fd env) = some (conn, said ++ [.pushed msg]) →
      s.conn.heap msg.cli = some c → msg.fd = c.fd → PlainEvents said →
      s' = { s with
        conn := conn
        recvQueue := s.recvQueue ++ [⟨⟨s.serial msg.cli, s.nextReq⟩, msg⟩]
        nextReq := s.nextReq + 1
        log := s.log ++ [.framed ⟨s.serial msg.cli, s.nextReq⟩] } →
      Req ⟨⟨s.serial msg.cli, s.nextReq⟩, msg⟩)
    (replied : ∀ {w answer memory m retlen msg}, act = .process w answer memory →
      (s.worker w).phase = .holding m → Req m →
      workerReply (s.worker w).retlen ⟨m.msg, answer, memory⟩ = some (retlen, msg) →
      Res ⟨m.req, msg⟩) : s'.Carries Req Res := by
  rcases carries with ⟨recv, holding, replying, send⟩
  cases moves with
  | quiet loop stepped plain => exact ⟨recv, holding, replying, send⟩
  | opened loop stepped addr absent plain => exact ⟨recv, holding, replying, send⟩
  | framed loop stepped live fd plain =>
      refine ⟨fun mem => ?_, holding, replying, send⟩
      rcases List.mem_append.mp mem with old | new
      · exact recv old
      · cases List.mem_singleton.mp new
        exact framed rfl stepped live fd plain rfl
  | wake loop read => exact ⟨recv, holding, replying, send⟩
  | finish empty => exact ⟨recv, holding, replying, send⟩
  | discard draining queue stepped =>
      exact ⟨recv, holding, replying, fun mem => send (queue ▸ List.mem_cons_of_mem _ mem)⟩
  | append draining queue stepped live fd =>
      exact ⟨recv, holding, replying, fun mem => send (queue ▸ List.mem_cons_of_mem _ mem)⟩
  | pop idle queue =>
      refine ⟨fun mem => recv (queue ▸ List.mem_cons_of_mem _ mem), ?_, ?_, send⟩
      · intro w' m' has
        rcases phase_setWorker has with new | old
        · cases new
          exact recv (queue ▸ List.mem_cons_self)
        · exact holding old
      · intro w' m' has
        rcases phase_setWorker has with new | old
        · cases new
        · exact replying old
  | process held done =>
      refine ⟨recv, ?_, ?_, send⟩
      · intro w' m' has
        rcases phase_setWorker has with new | old
        · cases new
        · exact holding old
      · intro w' m' has
        rcases phase_setWorker has with new | old
        · cases new
          exact replied rfl held (holding held) done
        · exact replying old
  | push held =>
      refine ⟨recv, ?_, ?_, fun mem => ?_⟩
      · intro w' m' has
        rcases phase_setWorker has with new | old
        · cases new
        · exact holding old
      · intro w' m' has
        rcases phase_setWorker has with new | old
        · cases new
        · exact replying old
      · rcases List.mem_append.mp mem with old | new
        · exact send old
        · cases List.mem_singleton.mp new
          exact replying held
  | notify held =>
      refine ⟨recv, ?_, ?_, send⟩
      · intro w' m' has
        rcases phase_setWorker has with new | old
        · cases new
        · exact holding old
      · intro w' m' has
        rcases phase_setWorker has with new | old
        · cases new
        · exact replying old

end Carries

end Steps

end Verben
