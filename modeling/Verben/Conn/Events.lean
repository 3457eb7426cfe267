import Verben.Conn.Step

/-!
# Requests and connections that a step brings

Two kinds of events matter outside of the process: a connection that is opened gets
an address and an fd, and a message that is pushed leaves for the workers.
`ConnProc.step_events` says in which steps they occur: an `accept` opens at most one
connection, a read pushes at most one message, and no other step does either.
-/

namespace Verben

/-- Neither the opening of a connection nor a message. -/
def ConnEvent.Plain : ConnEvent → Prop
  | .opened _ _ => False
  | .pushed _ => False
  | _ => True

/-- None of the events is an opening or a message. -/
def PlainEvents (events : List ConnEvent) : Prop := ∀ e ∈ events, e.Plain

variable {p p' : ConnProc} {cli : Nat} {c : ClientConn} {events events' : List ConnEvent}

theorem plain_nil : PlainEvents [] := by
  intro e mem
  cases mem

theorem plain_singleton {e : ConnEvent} (plain : e.Plain) : PlainEvents [e] := by
  intro e' mem
  rwa [List.mem_singleton.mp mem]

theorem PlainEvents.append (first : PlainEvents events) (second : PlainEvents events') :
    PlainEvents (events ++ events') := by
  intro e mem
  rcases List.mem_append.mp mem with mem | mem
  · exact first e mem
  · exact second e mem

theorem plain_asked (cli : Nat) (closeConn : Bool) : PlainEvents (askedEvents cli closeConn) := by
  unfold askedEvents
  split
  · exact plain_singleton trivial
  · exact plain_nil

theorem plain_answered (cli : Nat) (before after : ClientConn) :
    PlainEvents (answeredEvents cli before after) := by
  unfold answeredEvents
  split
  · exact plain_singleton trivial
  · exact plain_nil

theorem closeClient_events (closed : closeClient p cli = some (p', events)) :
    events = [.closed cli] := by
  obtain ⟨c, _, rest⟩ := Option.bind_eq_some_iff.mp closed
  split at rest
  · cases rest
    rfl
  · cases rest

theorem plain_closeClient (closed : closeClient p cli = some (p', events)) :
    PlainEvents events := by
  rw [closeClient_events closed]
  exact plain_singleton trivial

/-! ## Reading -/

/-- Behind `handle_input` the only message is that of the frame. -/
theorem dispatchFrame_events {env : ReadEnv}
    (dispatched : dispatchFrame p cli c env = some (p', events)) :
    PlainEvents events ∨ ∃ data, events = [.pushed (p.message cli c data)] := by
  obtain ⟨verdict, _, rest⟩ := Option.bind_eq_some_iff.mp dispatched
  cases verdict with
  | invalid => exact .inl (plain_closeClient rest)
  | wait =>
      cases rest
      exact .inl plain_nil
  | frame data =>
      simp only at rest
      split at rest
      · split at rest
        · obtain ⟨c', _, same⟩ := Option.map_eq_some_iff.mp rest
          cases same
          exact .inr ⟨data, rfl⟩
        · exact .inl (plain_closeClient rest)
      · exact .inl (plain_closeClient rest)

theorem readFromClient_events (live : p.heap cli = some c) {env : ReadEnv}
    (read : readFromClient p cli env = some (p', events)) :
    PlainEvents events ∨
      ∃ said msg, events = said ++ [.pushed msg] ∧ PlainEvents said ∧ msg.cli = cli ∧
        msg.fd = c.fd := by
  unfold readFromClient at read
  rw [live, Option.bind_some] at read
  simp only at read
  split at read
  · cases read
    exact .inl plain_nil
  · exact .inl (plain_closeClient read)
  · exact .inl (plain_closeClient read)
  · next bytes _ _ =>
      split at read
      · cases read
      · obtain ⟨c', received, rest⟩ := Option.bind_eq_some_iff.mp read
        obtain ⟨tail, dispatched, rfl⟩ := ConnResult.of_after rest
        have said := (plain_singleton (e := .received cli bytes) trivial).append
          (plain_answered cli (c.touch p.unixClock) c')
        rcases dispatchFrame_events dispatched with plain | ⟨data, rfl⟩
        · exact .inl (said.append plain)
        · exact .inr ⟨_, _, rfl, said, rfl, (receive_fd received).1⟩

/-! ## Writing and appending -/

theorem plain_writeToClient {result : WriteResult}
    (written : writeToClient p cli result = some (p', events)) : PlainEvents events := by
  have finish : ∀ {q : ConnProc} {c : ClientConn} {n : Nat} {events : List ConnEvent},
      finishWrite q cli c n = some (p', events) → PlainEvents events := by
    intro q c n events finished
    unfold finishWrite at finished
    split at finished
    · obtain ⟨sendbuf, _, rest⟩ := Option.bind_eq_some_iff.mp finished
      simp only at rest
      split at rest
      · exact plain_closeClient rest
      · cases rest
        exact plain_nil
    · obtain ⟨sendbuf, _, same⟩ := Option.map_eq_some_iff.mp finished
      cases same
      exact plain_nil
  obtain ⟨c, _, rest⟩ := Option.bind_eq_some_iff.mp written
  cases result with
  | error => exact plain_closeClient rest
  | again => exact finish rest
  | wrote n =>
      simp only at rest
      split at rest
      · obtain ⟨bytes, _, rest⟩ := Option.bind_eq_some_iff.mp rest
        obtain ⟨tail, finished, rfl⟩ := ConnResult.of_after rest
        exact (plain_singleton (e := .wrote cli bytes) trivial).append (finish finished)
      · cases rest

/-- The data is appended, and the connection may be closed behind that. -/
theorem appendSendbuf_events {data : List UInt8} {addOk : Bool}
    (appended : appendSendbuf p cli data addOk = some (p', events)) :
    ∃ tail, events = .appended cli data :: tail ∧ (tail = [] ∨ tail = [.closed cli]) := by
  obtain ⟨c, _, rest⟩ := Option.bind_eq_some_iff.mp appended
  obtain ⟨sendbuf, _, rest⟩ := Option.bind_eq_some_iff.mp rest
  obtain ⟨tail, registered, rfl⟩ := ConnResult.of_after rest
  refine ⟨tail, rfl, ?_⟩
  split at registered
  · exact .inr (closeClient_events registered)
  · cases registered
    exact .inl rfl

theorem plain_appendSendbuf {data : List UInt8} {addOk : Bool}
    (appended : appendSendbuf p cli data addOk = some (p', events)) : PlainEvents events := by
  obtain ⟨tail, rfl, closed⟩ := appendSendbuf_events appended
  apply (plain_singleton (e := .appended cli data) trivial).append
  rcases closed with rfl | rfl
  · exact plain_nil
  · exact plain_singleton trivial

/-- A message is dropped, or its data is appended. -/
theorem notifierMessage_events {msg : ShmMsg} {addOk : Bool}
    (handled : notifierMessage p msg addOk = some (p', events)) :
    events = [] ∨ ∃ closeConn rest q, events = askedEvents msg.cli closeConn ++ rest ∧
      appendSendbuf q msg.cli msg.data addOk = some (p', rest) := by
  unfold notifierMessage at handled
  split at handled
  · cases handled
  · split at handled
    · cases handled
      exact .inl rfl
    · split at handled
      · cases handled
        exact .inl rfl
      · obtain ⟨c, _, rest⟩ := Option.bind_eq_some_iff.mp handled
        split at rest
        · cases rest
        · obtain ⟨closeConn, _, rest⟩ := Option.bind_eq_some_iff.mp rest
          obtain ⟨tail, appended, rfl⟩ := ConnResult.of_after rest
          exact .inr ⟨closeConn, tail, _, rfl, appended⟩

/-! ## Accepting and the timer -/

theorem plain_openAnswered {answer : OpenAnswer} {writeOk : Bool}
    (opened : openAnswered p cli answer writeOk = some (p', events)) : PlainEvents events := by
  unfold openAnswered at opened
  split at opened
  · exact plain_closeClient opened
  · obtain ⟨c, _, rest⟩ := Option.bind_eq_some_iff.mp opened
    obtain ⟨tail, answered, rfl⟩ := ConnResult.of_after rest
    apply (plain_asked cli _).append
    split at answered
    · cases answered
      exact plain_nil
    · exact plain_appendSendbuf answered

theorem acceptCommonHandler_events {fd : Nat} {ip : String} {port : Int} {env : AcceptEnv}
    (accepted : acceptCommonHandler p fd ip port env = some (p', events)) :
    PlainEvents events ∨
      ∃ cli tail, env.addr = some cli ∧ events = .opened cli fd :: tail ∧ PlainEvents tail := by
  unfold acceptCommonHandler at accepted
  split at accepted
  · cases accepted
    exact .inl plain_nil
  · next cli q created =>
      obtain ⟨tail, rest, rfl⟩ := ConnResult.of_after accepted
      refine .inr ⟨cli, tail, ?_, rfl, ?_⟩
      · unfold createClient at created
        cases addr : env.addr with
        | none =>
            rw [addr] at created
            cases created
        | some cli' =>
            rw [addr] at created
            simp only at created
            split at created
            · cases created
            · split at created
              · cases created
                rfl
              · cases created
      · split at rest
        · exact plain_closeClient rest
        · split at rest
          · cases rest
            exact plain_nil
          · exact plain_openAnswered rest

theorem plain_cronLoop {nodes : List Nat} (looped : cronLoop p nodes = some (p', events)) :
    PlainEvents events := by
  induction nodes generalizing p events with
  | nil =>
      cases looped
      exact plain_nil
  | cons node rest ih =>
      obtain ⟨c, _, body⟩ := Option.bind_eq_some_iff.mp looped
      split at body
      · obtain ⟨⟨q, said⟩, closed, others⟩ := Option.bind_eq_some_iff.mp body
        obtain ⟨tail, later, rfl⟩ := ConnResult.of_after others
        exact (plain_closeClient closed).append (ih later)
      · exact ih body

/-! ## Steps -/

/-- A connection keeps its fd. -/
theorem Effect.fd {act : ConnAct} {c' : ClientConn} {fe fe' : AeFileEvent FileProc Nat}
    (effect : Effect p cli c fe act events c' fe') : c'.fd = c.fd := by
  cases effect with
  | wait result nonempty fits receive verdict => exact (receive_fd receive).1
  | frame result nonempty fits receive verdict consume =>
      exact (consume_fd consume).1.trans (receive_fd receive).1
  | _ => rfl

/-- The openings and messages of a step. -/
inductive StepEvents (p : ConnProc) : ConnAct → List ConnEvent → Prop
  | plain {act : ConnAct} {events : List ConnEvent} (plain : PlainEvents events) :
      StepEvents p act events
  | opened {fd cli : Nat} {ip : String} {port : Int} {env : AcceptEnv} {tail : List ConnEvent}
      (addr : env.addr = some cli) (absent : p.heap cli = none) (plain : PlainEvents tail) :
      StepEvents p (.accept fd ip port env) (.opened cli fd :: tail)
  | pushed {env : ReadEnv} {c : ClientConn} {said : List ConnEvent} {msg : ShmMsg}
      (live : p.heap msg.cli = some c) (fd : msg.fd = c.fd) (plain : PlainEvents said) :
      StepEvents p (.readable c.fd env) (said ++ [.pushed msg])

/-- **Which steps open connections and push messages.** -/
theorem ConnProc.step_events {act : ConnAct} (wf : p.Wf)
    (stepped : p.step act = some (p', events)) : StepEvents p act events := by
  cases act with
  | accept fd ip port env =>
      simp only [ConnProc.step] at stepped
      split at stepped
      · next allowed =>
          rcases acceptCommonHandler_events stepped with plain | ⟨cli, tail, addr, rfl, plain⟩
          · exact .plain plain
          · have fresh := allowed.2
            rw [addr] at fresh
            exact .opened addr fresh.2 plain
      · cases stepped
  | readable fd env =>
      simp only [ConnProc.step] at stepped
      split at stepped
      · next fired =>
          obtain ⟨cli, data, read⟩ := Option.bind_eq_some_iff.mp stepped
          obtain ⟨cli', c, data', live, rfl⟩ := wf.entry (.inl fired)
          cases data.symm.trans data'
          rcases readFromClient_events live read with plain | ⟨said, msg, rfl, plain, rfl, fd⟩
          · exact .plain plain
          · exact .pushed live fd plain
      · cases stepped
  | writable fd result =>
      simp only [ConnProc.step] at stepped
      split at stepped
      · obtain ⟨cli, _, written⟩ := Option.bind_eq_some_iff.mp stepped
        exact .plain (plain_writeToClient written)
      · cases stepped
  | message msg addOk =>
      rcases notifierMessage_events stepped with rfl | ⟨closeConn, rest, q, rfl, appended⟩
      · exact .plain plain_nil
      · exact .plain ((plain_asked _ _).append (plain_appendSendbuf appended))
  | cron now => exact .plain (plain_cronLoop stepped)

/-- A connection that is live after a step was so before it, on the same fd, or was
accepted. -/
theorem ConnProc.fd_of_step {act : ConnAct} (wf : p.Wf)
    (stepped : p.step act = some (p', events)) {c' : ClientConn} (live' : p'.heap cli = some c') :
    (∃ c, p.heap cli = some c ∧ c.fd = c'.fd) ∨
      ∃ ip port env, act = .accept c'.fd ip port env ∧ env.addr = some cli := by
  cases (ConnProc.step_cases wf stepped).2 cli c' live' with
  | same live entry quiet => exact .inl ⟨c', live, rfl⟩
  | changed live about effect => exact .inl ⟨_, live, effect.fd.symm⟩
  | opened absent about opened =>
      cases opened with
      | silent addr handleOpen => exact .inr ⟨_, _, _, rfl, addr⟩
      | quiet addr handleOpen retbuf => exact .inr ⟨_, _, _, rfl, addr⟩
      | welcomed addr handleOpen retbuf cat set => exact .inr ⟨_, _, _, rfl, addr⟩

end Verben
