import Mathlib.Data.Fintype.Basic
import Verben.Server.Log
import Verben.Worker.Payload

/-!
# Responses and connections

A message says by an address and an fd which connection it is for. As long as no
`accept` gives a new connection both the address and the fd that a message in flight
carries, the connection found by them is the one that the request came on
(`responses_routed`). `malloc` and the kernel do not know of messages in flight, and
the new connection then gets the response to a request of the old one
(`response_misrouted`).
-/

namespace Verben

open Trace Transition

variable {W : Type}

/-- A message is in a queue, or a worker has it. -/
def Server.InFlight (s : Server W) (m : Datagram) : Prop :=
  m ∈ s.recvQueue ∨ m ∈ s.sendQueue ∨ ∃ w, (s.worker w).phase.datagram = some m

/-- No `accept` gives the address and the fd of a message in flight. -/
def NoReuse (s : Server W) : ServerAct W → Prop
  | .conn (.accept fd _ _ env) =>
      ∀ m, s.InFlight m → ¬ (env.addr = some m.msg.cli ∧ m.msg.fd = fd)
  | _ => True

/-- The connection that the address and the fd of a message lead to is the one its
request came on. -/
def Datagram.Owned (m : Datagram) (p : ConnProc) (serial : Nat → Nat) : Prop :=
  ∀ c, p.heap m.msg.cli = some c → c.fd = m.msg.fd → serial m.msg.cli = m.req.conn

/-- The request of a message, and where its response goes. -/
def Datagram.route (m : Datagram) : Request × Nat × Nat := (m.req, m.msg.cli, m.msg.fd)

structure Server.Routed (s : Server W) : Prop where
  owned : ∀ m, s.InFlight m → m.Owned s.conn s.serial
  log : ∀ n r, .appended n r ∈ s.log → n = r.conn

/-! ## Steps of the connection process -/

section Owned

variable {p p' : ConnProc} {act : ConnAct} {events : List ConnEvent} {m m' : Datagram}
  {serial : Nat → Nat}

theorem Datagram.route_eq_iff :
    m.route = m'.route ↔ m.req = m'.req ∧ m.msg.cli = m'.msg.cli ∧ m.msg.fd = m'.msg.fd := by
  unfold Datagram.route
  rw [Prod.mk.injEq, Prod.mk.injEq]

theorem Datagram.Owned.congr (owned : m.Owned p serial) (same : m.route = m'.route) :
    m'.Owned p serial := by
  obtain ⟨req, cli, fd⟩ := Datagram.route_eq_iff.mp same
  unfold Datagram.Owned
  rw [← req, ← cli, ← fd]
  exact owned

/-- A step that does not give the address and fd of a message to a new connection. -/
theorem Datagram.Owned.step (owned : m.Owned p serial) (wf : p.Wf)
    (stepped : p.step act = some (p', events))
    (spared : ∀ fd ip port env, act = .accept fd ip port env →
      ¬ (env.addr = some m.msg.cli ∧ m.msg.fd = fd)) : m.Owned p' serial := by
  intro c' live' fd'
  rcases ConnProc.fd_of_step wf stepped live' with ⟨c, live, fd⟩ | ⟨ip, port, env, rfl, addr⟩
  · exact owned c live (fd.trans fd')
  · exact absurd ⟨addr, fd'.symm⟩ (spared _ _ _ _ rfl)

/-- A new connection at another address, or at that of one that is gone. -/
theorem Datagram.Owned.update (owned : m.Owned p' serial) {cli n : Nat}
    (other : ∀ c, p'.heap m.msg.cli = some c → c.fd = m.msg.fd → m.msg.cli ≠ cli) :
    m.Owned p' (Function.update serial cli n) := by
  intro c' live' fd'
  rw [Function.update_of_ne (other c' live' fd')]
  exact owned c' live' fd'

end Owned

/-! ## Steps of the server -/

theorem mem_of_mem_concat {α : Type} {l : List α} {a b : α} (mem : a ∈ l ++ [b]) (ne : a ≠ b) :
    a ∈ l := by
  rcases List.mem_append.mp mem with mem | new
  · exact mem
  · exact absurd (List.mem_singleton.mp new) ne

theorem inFlight_of_rest {s : Server W} {conn : ConnProc} {m m' : Datagram} {rest : List Datagram}
    {log : List (LogEvent W)} (queue : s.sendQueue = m :: rest)
    (flight : Server.InFlight { s with conn := conn, sendQueue := rest, log := log } m') :
    s.InFlight m' := by
  rcases flight with recv | send | has
  · exact .inl recv
  · exact .inr (.inl (queue ▸ List.mem_cons_of_mem _ send))
  · exact .inr (.inr has)

section Steps

variable [DecidableEq W] {s s' : Server W}

/-- What a worker that changes its phase had in flight. -/
theorem inFlight_setWorker {w : W} {x : Worker} {m : Datagram}
    (flight : (s.setWorker w x).InFlight m) :
    m ∈ s.recvQueue ∨ m ∈ s.sendQueue ∨ x.phase.datagram = some m ∨
      ∃ w', w' ≠ w ∧ (s.worker w').phase.datagram = some m := by
  rcases flight with recv | send | ⟨w', has⟩
  · exact .inl recv
  · exact .inr (.inl send)
  · by_cases at_w : w' = w
    · rw [at_w, worker_setWorker_self] at has
      exact .inr (.inr (.inl has))
    · rw [worker_setWorker_ne s x at_w] at has
      exact .inr (.inr (.inr ⟨w', at_w, has⟩))

/-- A message in flight after a step was in flight before or answers one that was, or
its request was pushed on the connection that its address leads to. -/
theorem Server.Moves.inFlight {act : ServerAct W} {m : Datagram} (moves : s.Moves act s')
    (flight : s'.InFlight m) :
    (∃ old, s.InFlight old ∧ old.route = m.route) ∨ s'.serial m.msg.cli = m.req.conn := by
  cases moves with
  | quiet loop stepped plain => exact .inl ⟨m, flight, rfl⟩
  | opened loop stepped addr absent plain => exact .inl ⟨m, flight, rfl⟩
  | framed loop stepped live fd plain =>
      rcases flight with recv | send | has
      · rcases List.mem_append.mp recv with recv | new
        · exact .inl ⟨m, .inl recv, rfl⟩
        · cases List.mem_singleton.mp new
          exact .inr rfl
      · exact .inl ⟨m, .inr (.inl send), rfl⟩
      · exact .inl ⟨m, .inr (.inr has), rfl⟩
  | wake loop read => exact .inl ⟨m, flight, rfl⟩
  | finish empty => exact .inl ⟨m, flight, rfl⟩
  | discard draining queue stepped => exact .inl ⟨m, inFlight_of_rest queue flight, rfl⟩
  | append draining queue stepped live fd =>
      exact .inl ⟨m, inFlight_of_rest queue flight, rfl⟩
  | @pop w popped rest idle queue =>
      refine .inl ⟨m, ?_, rfl⟩
      rcases inFlight_setWorker flight with recv | send | same | ⟨w', _, has⟩
      · exact .inl (queue ▸ List.mem_cons_of_mem _ recv)
      · exact .inr (.inl send)
      · cases same
        exact .inl (queue ▸ List.mem_cons_self)
      · exact .inr (.inr ⟨w', has⟩)
  | @process w answer memory held retlen msg holding replied =>
      rcases inFlight_setWorker flight with recv | send | same | ⟨w', _, has⟩
      · exact .inl ⟨m, .inl recv, rfl⟩
      · exact .inl ⟨m, .inr (.inl send), rfl⟩
      · cases same
        refine .inl ⟨held, .inr (.inr ⟨w, by rw [holding]; rfl⟩), ?_⟩
        unfold Datagram.route
        rw [workerReply_header replied]
      · exact .inl ⟨m, .inr (.inr ⟨w', has⟩), rfl⟩
  | @push w pushed replying =>
      refine .inl ⟨m, ?_, rfl⟩
      rcases inFlight_setWorker flight with recv | send | same | ⟨w', _, has⟩
      · exact .inl recv
      · rcases List.mem_append.mp send with send | new
        · exact .inr (.inl send)
        · cases List.mem_singleton.mp new
          exact .inr (.inr ⟨w, by rw [replying]; rfl⟩)
      · cases same
      · exact .inr (.inr ⟨w', has⟩)
  | notify notifying =>
      refine .inl ⟨m, ?_, rfl⟩
      rcases inFlight_setWorker flight with recv | send | same | ⟨w', _, has⟩
      · exact .inl recv
      · exact .inr (.inl send)
      · cases same
      · exact .inr (.inr ⟨w', has⟩)

/-- A step keeps a message with its connection, unless it is an `accept` that gives the
address and fd of the message. -/
theorem Server.Moves.owned {act : ServerAct W} {m : Datagram} (moves : s.Moves act s')
    (wf : s.conn.Wf) (owned : m.Owned s.conn s.serial)
    (spared : ∀ fd ip port env, act = .conn (.accept fd ip port env) →
      ¬ (env.addr = some m.msg.cli ∧ m.msg.fd = fd)) : m.Owned s'.conn s'.serial := by
  cases moves with
  | quiet loop stepped plain =>
      apply owned.step wf stepped
      intro fd ip port env same
      exact spared fd ip port env (congrArg _ same)
  | @opened fd cli ip port env conn tail loop stepped addr absent plain =>
      have notBoth := spared fd ip port env rfl
      have kept : m.Owned conn s.serial := by
        apply owned.step wf stepped
        intro fd' ip' port' env' same
        cases same
        exact notBoth
      apply kept.update
      intro c' live' fd' same
      rcases ConnProc.fd_of_step wf stepped live' with ⟨c, live, _⟩ | ⟨_, _, _, taken, addr'⟩
      · rw [same, absent] at live
        cases live
      · cases taken
        exact notBoth ⟨addr', fd'.symm⟩
  | framed loop stepped live fd plain => exact owned.step wf stepped nofun
  | discard draining queue stepped => exact owned.step wf stepped nofun
  | append draining queue stepped live fd => exact owned.step wf stepped nofun
  | wake loop read => exact owned
  | finish empty => exact owned
  | pop idle queue => exact owned
  | process holding replied => exact owned
  | push replying => exact owned
  | notify notifying => exact owned

/-- A response is appended to the connection that the address and the fd of its message
lead to. -/
theorem Server.Moves.appended {act : ServerAct W} {n : Nat} {r : Request}
    (moves : s.Moves act s') (mem : .appended n r ∈ s'.log) :
    .appended n r ∈ s.log ∨ ∃ m c, s.InFlight m ∧ s.conn.heap m.msg.cli = some c ∧
      c.fd = m.msg.fd ∧ n = s.serial m.msg.cli ∧ r = m.req := by
  cases moves with
  | quiet loop stepped plain => exact .inl mem
  | opened loop stepped addr absent plain => exact .inl mem
  | framed loop stepped live fd plain => exact .inl (mem_of_mem_concat mem nofun)
  | wake loop read => exact .inl mem
  | finish empty => exact .inl mem
  | discard draining queue stepped => exact .inl (mem_of_mem_concat mem nofun)
  | @append addOk m rest conn events c draining queue stepped live fd =>
      rcases List.mem_append.mp mem with mem | new
      · exact .inl mem
      · rcases List.mem_cons.mp new with same | new
        · cases same
        · cases List.mem_singleton.mp new
          exact .inr ⟨m, c, .inr (.inl (queue ▸ List.mem_cons_self)), live, fd, rfl, rfl⟩
  | pop idle queue => exact .inl (mem_of_mem_concat mem nofun)
  | process holding replied => exact .inl mem
  | push replying => exact .inl (mem_of_mem_concat mem nofun)
  | notify notifying => exact .inl mem

/-- A step that meets the guard keeps all messages in flight with their connections. -/
theorem Server.Moves.routed {act : ServerAct W} (moves : s.Moves act s') (wf : s.conn.Wf)
    (guard : NoReuse s act) (routed : s.Routed) : s'.Routed := by
  constructor
  · intro m flight
    rcases moves.inFlight flight with ⟨old, before, same⟩ | own
    · have owned := (routed.owned old before).congr same
      apply moves.owned wf owned
      intro fd ip port env accept
      subst accept
      have spared := guard old before
      obtain ⟨_, cli, oldFd⟩ := Datagram.route_eq_iff.mp same
      rwa [cli, oldFd] at spared
    · exact fun _ _ _ => own
  · intro n r mem
    rcases moves.appended mem with old | ⟨m, c, flight, live, fd, rfl, rfl⟩
    · exact routed.log n r old
    · exact routed.owned m flight c live fd

/-- **Every response goes to the connection of its request**, and at most once. In
every state that a run reaches in which no `accept` gives a new connection both the
address and the fd that a message in flight carries: each response was appended to
the `sendbuf` of the connection that its request was framed on, and no response was
appended twice. -/
theorem responses_routed {boot : ServerBoot W}
    (reach : Reach Server.step NoReuse (Server.init boot) s) :
    (∀ n r, .appended n r ∈ s.log → n = r.conn) ∧
      (s.log.filterMap LogEvent.appendedReq).Nodup := by
  have routed : s.Routed := by
    refine Server.holds_of_reach reach ⟨?_, ?_⟩ fun wf routed guard moves =>
      moves.routed wf guard routed
    · intro m either
      rcases either with recv | send | ⟨w, has⟩
      · cases recv
      · cases send
      · cases has
    · intro n r mem
      cases mem
  have queued := (Server.logged_of_reach reach).queued
  refine ⟨routed.log, queued.pushedNodup.sublist ?_⟩
  rw [queued.pushed]
  exact queued.appended.trans (List.sublist_append_left _ _)

end Steps

/-! ## An address and an fd that are used again -/

theorem noReuse_accept_iff (s : Server W) (fd : Nat) (ip : String) (port : Int)
    (env : AcceptEnv) :
    NoReuse s (.conn (.accept fd ip port env)) ↔
      (∀ m ∈ s.recvQueue, ¬ (env.addr = some m.msg.cli ∧ m.msg.fd = fd)) ∧
      (∀ m ∈ s.sendQueue, ¬ (env.addr = some m.msg.cli ∧ m.msg.fd = fd)) ∧
      ∀ w, ∀ m ∈ (s.worker w).phase.datagram, ¬ (env.addr = some m.msg.cli ∧ m.msg.fd = fd) := by
  constructor
  · intro spared
    exact ⟨fun m recv => spared m (.inl recv), fun m send => spared m (.inr (.inl send)),
      fun w m has => spared m (.inr (.inr ⟨w, has⟩))⟩
  · intro both m either
    rcases both with ⟨recv, send, has⟩
    rcases either with mem | mem | ⟨w, mem⟩
    · exact recv m mem
    · exact send m mem
    · exact has w m mem

instance [Fintype W] (s : Server W) : (act : ServerAct W) → Decidable (NoReuse s act)
  | .conn (.accept fd ip port env) => decidable_of_iff' _ (noReuse_accept_iff s fd ip port env)
  | .conn (.readable _ _) => .isTrue trivial
  | .conn (.writable _ _) => .isTrue trivial
  | .conn (.message _ _) => .isTrue trivial
  | .conn (.cron _) => .isTrue trivial
  | .wake => .isTrue trivial
  | .drain _ => .isTrue trivial
  | .pop _ => .isTrue trivial
  | .process _ _ _ => .isTrue trivial
  | .push _ => .isTrue trivial
  | .notify _ => .isTrue trivial

/-- The client of the first connection closes it. -/
def peerClose : ServerAct W := .conn (.readable 7 (readOk [] fun _ => 0))

/-- The one worker answers a request, and the response is drained. -/
def answerRun (b : UInt8) : List (ServerAct Unit) :=
  [oneByteProcess () b, .push (), .notify (), .wake, .drain true, .drain true]

/-- The address and the fd of a connection are used again when nothing is in flight. -/
def quietReuse : List (ServerAct Unit) :=
  [.conn firstAccept, oneByteRead 65, .pop ()] ++ answerRun 97 ++
    [peerClose, .conn firstAccept, oneByteRead 66, .pop ()] ++ answerRun 98

/-- They are used again when a worker still has a request. -/
def staleReuse : List (ServerAct Unit) :=
  [.conn firstAccept, oneByteRead 65, .pop (), peerClose, .conn firstAccept] ++ answerRun 97

theorem responses_routed_quiet :
    ∃ s, runGuarded Server.step NoReuse (Server.init (defaultServer Unit)) quietReuse = some s ∧
      .appended 1 ⟨1, 1⟩ ∈ s.log ∧ (∀ n r, .appended n r ∈ s.log → n = r.conn) ∧
      (s.log.filterMap LogEvent.appendedReq).Nodup := by
  have evaluated : (runGuarded Server.step NoReuse (Server.init (defaultServer Unit))
      quietReuse).map (fun s => decide (.appended 1 ⟨1, 1⟩ ∈ s.log)) = some true := by
    decide +kernel
  obtain ⟨s, ran, mem⟩ := Option.map_eq_some_iff.mp evaluated
  exact ⟨s, ran, of_decide_eq_true mem, responses_routed (reach_of_runGuarded ran)⟩

/-- **A response goes to the wrong connection.** The first connection closes while a
worker has its request. The next one gets its address and its fd, and then the
response, though it has not sent anything. -/
theorem response_misrouted :
    ∃ s c, run Server.step (Server.init (defaultServer Unit)) staleReuse = some s ∧
      .appended 1 ⟨0, 0⟩ ∈ s.log ∧ s.conn.heap 1 = some c ∧ c.sendbuf.content = [97] := by
  have evaluated : ((run Server.step (Server.init (defaultServer Unit)) staleReuse).bind
      fun s => (s.conn.heap 1).map fun c =>
        (decide (.appended 1 ⟨0, 0⟩ ∈ s.log), c.sendbuf.content)) = some (true, [97]) := by
    decide +kernel
  obtain ⟨s, ran, rest⟩ := Option.bind_eq_some_iff.mp evaluated
  obtain ⟨c, live, same⟩ := Option.map_eq_some_iff.mp rest
  obtain ⟨mem, content⟩ := Prod.mk.injEq .. ▸ same
  exact ⟨s, c, ran, of_decide_eq_true mem, live, content⟩

end Verben
