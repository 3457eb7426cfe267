import Verben.Conn.Events
import Verben.Conn.History
import Verben.Server.Model

/-!
# What a step of the server does

`Server.step_cases` says once what a step can do, and to which parts of the state.
Invariants are derived from these cases. A callback of the event loop opens at most
one connection, or pushes at most one message, or does nothing outside of the
connection process.
-/

namespace Verben

open Transition

variable {W : Type}

theorem foldl_record_of_plain {events : List ConnEvent} (plain : PlainEvents events)
    (s : Server W) : events.foldl Server.record s = s := by
  induction events with
  | nil => rfl
  | cons e events ih =>
      have same : s.record e = s := by
        cases e with
        | opened cli fd => exact absurd (plain _ List.mem_cons_self) id
        | pushed msg => exact absurd (plain _ List.mem_cons_self) id
        | _ => rfl
      rw [List.foldl_cons, same]
      exact ih fun e mem => plain e (List.mem_cons_of_mem _ mem)

/-- A message is appended once at most, and to the connection with its address and fd. -/
theorem notifierMessage_appends {p p' : ConnProc} {msg : ShmMsg} {addOk : Bool}
    {events : List ConnEvent} (wf : p.Wf)
    (handled : notifierMessage p msg addOk = some (p', events)) :
    events.filterMap ConnEvent.appendedTo = [] ∨
      ∃ c, p.heap msg.cli = some c ∧ c.fd = msg.fd ∧
        events.filterMap ConnEvent.appendedTo = [msg.cli] := by
  rcases notifierMessage_cases wf handled with ⟨_, rfl⟩ | ⟨c, live, fd, _, _⟩
  · exact .inl rfl
  rcases notifierMessage_events handled with rfl | ⟨closeConn, rest, q, rfl, appended⟩
  · exact .inl rfl
  obtain ⟨tail, rfl, closed⟩ := appendSendbuf_events appended
  refine .inr ⟨c, live, fd, ?_⟩
  have asked : (askedEvents msg.cli closeConn).filterMap ConnEvent.appendedTo = [] := by
    cases closeConn <;> rfl
  rw [List.filterMap_append, asked]
  rcases closed with rfl | rfl <;> rfl

variable [DecidableEq W] {s s' : Server W}

/-- The cases of a step. -/
inductive Server.Moves (s : Server W) : ServerAct W → Server W → Prop
  | quiet {act : ConnAct} {conn : ConnProc} {events : List ConnEvent}
      (loop : s.draining = false) (stepped : s.conn.step act = some (conn, events))
      (plain : PlainEvents events) :
      Moves s (.conn act) { s with conn := conn }
  | opened {fd cli : Nat} {ip : String} {port : Int} {env : AcceptEnv} {conn : ConnProc}
      {tail : List ConnEvent} (loop : s.draining = false)
      (stepped : s.conn.step (.accept fd ip port env) = some (conn, .opened cli fd :: tail))
      (addr : env.addr = some cli) (absent : s.conn.heap cli = none) (plain : PlainEvents tail) :
      Moves s (.conn (.accept fd ip port env))
        { s with
          conn := conn
          serial := Function.update s.serial cli s.nextSerial
          nextSerial := s.nextSerial + 1 }
  | framed {env : ReadEnv} {c : ClientConn} {conn : ConnProc} {said : List ConnEvent}
      {msg : ShmMsg} (loop : s.draining = false)
      (stepped : s.conn.step (.readable c.fd env) = some (conn, said ++ [.pushed msg]))
      (live : s.conn.heap msg.cli = some c) (fd : msg.fd = c.fd) (plain : PlainEvents said) :
      Moves s (.conn (.readable c.fd env))
        { s with
          conn := conn
          recvQueue := s.recvQueue ++ [⟨⟨s.serial msg.cli, s.nextReq⟩, msg⟩]
          nextReq := s.nextReq + 1
          log := s.log ++ [.framed ⟨s.serial msg.cli, s.nextReq⟩] }
  | wake {pipe : Pipe} (loop : s.draining = false) (read : notifierRead s.pipe = some pipe) :
      Moves s .wake { s with pipe := pipe, draining := true }
  | finish {addOk : Bool} (empty : s.sendQueue = []) :
      Moves s (.drain addOk) { s with draining := false }
  | discard {addOk : Bool} {m : Datagram} {rest : List Datagram} {conn : ConnProc}
      {events : List ConnEvent} (draining : s.draining = true) (queue : s.sendQueue = m :: rest)
      (stepped : s.conn.step (.message m.msg addOk) = some (conn, events)) :
      Moves s (.drain addOk)
        { s with conn := conn, sendQueue := rest, log := s.log ++ [.taken m.req] }
  | append {addOk : Bool} {m : Datagram} {rest : List Datagram} {conn : ConnProc}
      {events : List ConnEvent} {c : ClientConn} (draining : s.draining = true)
      (queue : s.sendQueue = m :: rest)
      (stepped : s.conn.step (.message m.msg addOk) = some (conn, events))
      (live : s.conn.heap m.msg.cli = some c) (fd : c.fd = m.msg.fd) :
      Moves s (.drain addOk)
        { s with
          conn := conn
          sendQueue := rest
          log := s.log ++ [.taken m.req, .appended (s.serial m.msg.cli) m.req] }
  | pop {w : W} {m : Datagram} {rest : List Datagram} (idle : (s.worker w).phase = .idle)
      (queue : s.recvQueue = m :: rest) :
      Moves s (.pop w)
        ({ s with recvQueue := rest, log := s.log ++ [LogEvent.popped w m.req] }.setWorker w
          ⟨(s.worker w).retlen, .holding m⟩)
  | process {w : W} {answer : ProcessAnswer} {memory : Option (Nat → UInt8)} {m : Datagram}
      {retlen : Int} {msg : ShmMsg} (holding : (s.worker w).phase = .holding m)
      (replied : workerReply (s.worker w).retlen ⟨m.msg, answer, memory⟩ = some (retlen, msg)) :
      Moves s (.process w answer memory) (s.setWorker w ⟨retlen, .replying ⟨m.req, msg⟩⟩)
  | push {w : W} {m : Datagram} (replying : (s.worker w).phase = .replying m) :
      Moves s (.push w)
        ({ s with
          sendQueue := s.sendQueue ++ [m], log := s.log ++ [LogEvent.pushed w m.req] }.setWorker w
            ⟨(s.worker w).retlen, .notifying⟩)
  | notify {w : W} (notifying : (s.worker w).phase = .notifying) :
      Moves s (.notify w)
        ({ s with pipe := notifierWrite s.pipe }.setWorker w ⟨(s.worker w).retlen, .idle⟩)

/-- **The cases of a step.** -/
theorem Server.step_cases (wf : s.conn.Wf) {act : ServerAct W} (stepped : s.step act = some s') :
    s.Moves act s' := by
  cases act with
  | conn act =>
      simp only [Server.step] at stepped
      split at stepped
      · next loop =>
          obtain ⟨⟨conn, events⟩, step, rfl⟩ := Option.map_eq_some_iff.mp stepped
          simp only
          cases ConnProc.step_events wf step with
          | plain plain =>
              rw [foldl_record_of_plain plain]
              exact .quiet loop.1 step plain
          | opened addr absent plain =>
              rw [List.foldl_cons, foldl_record_of_plain plain]
              exact .opened loop.1 step addr absent plain
          | pushed live fd plain =>
              rw [List.foldl_append, foldl_record_of_plain plain]
              exact .framed loop.1 step live fd plain
      · cases stepped
  | wake =>
      simp only [Server.step] at stepped
      split at stepped
      · next loop =>
          obtain ⟨pipe, read, rfl⟩ := Option.map_eq_some_iff.mp stepped
          exact .wake loop read
      · cases stepped
  | drain addOk =>
      simp only [Server.step, Server.drain] at stepped
      split at stepped
      · next draining =>
          split at stepped
          · next empty =>
              cases stepped
              exact .finish empty
          · next queue =>
              obtain ⟨⟨conn, events⟩, step, rfl⟩ := Option.map_eq_some_iff.mp stepped
              unfold Server.appendLog
              rcases notifierMessage_appends wf step with none | ⟨c, live, fd, one⟩
              · rw [none]
                exact .discard draining queue step
              · rw [one]
                exact .append draining queue step live fd
      · cases stepped
  | pop w =>
      simp only [Server.step, Server.pop] at stepped
      split at stepped
      · next idle queue =>
          cases stepped
          exact .pop idle queue
      · cases stepped
  | process w answer memory =>
      simp only [Server.step, Server.process] at stepped
      split at stepped
      · next holding =>
          obtain ⟨⟨retlen, msg⟩, replied, rfl⟩ := Option.map_eq_some_iff.mp stepped
          exact .process holding replied
      · cases stepped
  | push w =>
      simp only [Server.step, Server.push] at stepped
      split at stepped
      · next replying =>
          cases stepped
          exact .push replying
      · cases stepped
  | notify w =>
      simp only [Server.step, Server.notify] at stepped
      split at stepped
      · next notifying =>
          cases stepped
          exact .notify notifying
      · cases stepped

theorem Server.Moves.wf {act : ServerAct W} (moves : s.Moves act s') (wf : s.conn.Wf) :
    s'.conn.Wf := by
  cases moves with
  | quiet _ stepped _ => exact (ConnProc.step_cases wf stepped).1
  | opened _ stepped _ _ _ => exact (ConnProc.step_cases wf stepped).1
  | framed _ stepped _ _ _ => exact (ConnProc.step_cases wf stepped).1
  | discard _ _ stepped => exact (ConnProc.step_cases wf stepped).1
  | append _ _ stepped _ _ => exact (ConnProc.step_cases wf stepped).1
  | _ => exact wf

/-- **The induction rule for the server.** A property of the first state that each case
of a step keeps holds in every state reached. -/
theorem Server.holds_of_reach {boot : ServerBoot W} {ok : Server W → ServerAct W → Prop}
    {P : Server W → Prop} (reach : Reach Server.step ok (Server.init boot) s)
    (init : P (Server.init boot))
    (keep : ∀ {s act s'}, s.conn.Wf → P s → ok s act → s.Moves act s' → P s') : P s := by
  refine (reach.invariant (P := fun s => s.conn.Wf ∧ P s) ⟨ConnProc.wf_init _, init⟩ ?_).2
  intro s act s' both guard stepped
  rcases both with ⟨wf, holds⟩
  have moves := Server.step_cases wf stepped
  exact ⟨moves.wf wf, keep wf holds guard moves⟩

/-! ## Workers -/

@[simp] theorem worker_setWorker_self (s : Server W) (w : W) (x : Worker) :
    (s.setWorker w x).worker w = x := Function.update_self ..

theorem worker_setWorker_ne (s : Server W) {w w' : W} (x : Worker) (ne : w' ≠ w) :
    (s.setWorker w x).worker w' = s.worker w' := Function.update_of_ne ne ..

/-! ## A first run -/

/-- The default process with some workers, and the pipe of the kernel's default size. -/
def defaultServer (W : Type) : ServerBoot W where
  toConnBoot := defaultBoot
  pipeSize := 65536
  pipePositive := by decide
  retlen := fun _ => 0

/-- The first connection sends a request of one byte. -/
def oneByteRead (b : UInt8) : ServerAct W := .conn (.readable 7 (readOk [b] fun _ => 1))

/-- A worker answers the request that it has with one byte. -/
def oneByteProcess (w : W) (b : UInt8) : ServerAct W :=
  .process w ⟨0, some [b], some 1⟩ (some fun _ => 0)

end Verben
