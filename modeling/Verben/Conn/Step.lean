import Verben.Conn.Live

/-!
# What a step does

`ConnProc.step_cases` says once what a step can do to each connection that is live
after it: nothing (and no event is about it); one of the effects in `Effect`; or it
was opened (`Opened`). Invariants about connections are derived from these cases.
Connections that the step closes are not live after it.
-/

namespace Verben

/-- The connection an event is about. -/
def ConnEvent.cli : ConnEvent → Nat
  | .opened cli _ => cli
  | .received cli _ => cli
  | .answered cli _ => cli
  | .pushed msg => msg.cli
  | .closeAsked cli => cli
  | .appended cli _ => cli
  | .wrote cli _ => cli
  | .closed cli => cli

/-- `cli->access_time = unix_clock`. -/
def ClientConn.touch (c : ClientConn) (clock : Int) : ClientConn := { c with accessTime := clock }

/-- How many bytes `write` took, with the events for that. -/
inductive WriteTook (cli : Nat) (c : ClientConn) : WriteResult → Nat → List ConnEvent → Prop
  | again : WriteTook cli c .again 0 []
  | wrote {n : Nat} {bytes : List UInt8} (most : (n : Int) ≤ sdslen c.sendbuf)
      (load : c.sendbuf.buf.load 0 n = some bytes) :
      WriteTook cli c (.wrote n) n [.wrote cli bytes]

/-- What a step does to a connection that was live and stays so: the action, the
events, and the connection and the entry of its fd after the step. -/
inductive Effect (p : ConnProc) (cli : Nat) (c : ClientConn) (fe : AeFileEvent FileProc Nat) :
    ConnAct → List ConnEvent → ClientConn → AeFileEvent FileProc Nat → Prop
  | again {env : ReadEnv} (result : env.result = .again) :
      Effect p cli c fe (.readable c.fd env) [] (c.touch p.unixClock) fe
  | wait {env : ReadEnv} {bytes : List UInt8} {c' : ClientConn}
      (result : env.result = .data bytes) (nonempty : bytes ≠ []) (fits : bytes.length < iobufSize)
      (receive : (c.touch p.unixClock).receive bytes env.handleInput = some c')
      (verdict : c'.verdict = some .wait) :
      Effect p cli c fe (.readable c.fd env)
        (.received cli bytes :: answeredEvents cli (c.touch p.unixClock) c') c' fe
  | frame {env : ReadEnv} {bytes data : List UInt8} {c' c'' : ClientConn}
      (result : env.result = .data bytes) (nonempty : bytes ≠ []) (fits : bytes.length < iobufSize)
      (receive : (c.touch p.unixClock).receive bytes env.handleInput = some c')
      (verdict : c'.verdict = some (.frame data)) (consume : c'.consume = some c'') :
      Effect p cli c fe (.readable c.fd env)
        (.received cli bytes :: answeredEvents cli (c.touch p.unixClock) c' ++
          [.pushed (p.message cli c' data)]) c'' fe
  | drained {result : WriteResult} {n : Nat} {events : List ConnEvent} {sendbuf : Sds}
      {fe' : AeFileEvent FileProc Nat}
      (took : WriteTook cli (c.touch p.unixClock) result n events)
      (all : (n : Int) = sdslen c.sendbuf) (clear : sdsclear c.sendbuf = some sendbuf)
      (stay : c.closeConn = false) (unset : fe'.mask.writable = false) :
      Effect p cli c fe (.writable c.fd result) events
        { c.touch p.unixClock with sendbuf := sendbuf } fe'
  | shifted {result : WriteResult} {n : Nat} {events : List ConnEvent} {sendbuf : Sds}
      (took : WriteTook cli (c.touch p.unixClock) result n events)
      (part : (n : Int) ≠ sdslen c.sendbuf) (range : sdsrange c.sendbuf n (-1) = some sendbuf) :
      Effect p cli c fe (.writable c.fd result) events
        { c.touch p.unixClock with sendbuf := sendbuf } fe
  | responded {msg : ShmMsg} {addOk : Bool} {closeConn : Bool} {sendbuf : Sds}
      {fe' : AeFileEvent FileProc Nat}
      (pid : p.connPid = msg.pid) (vec : p.connVec msg.fd = msg.cli) (fd : c.fd = msg.fd)
      (target : msg.cli = cli) (flag : msg.closeConn = some closeConn)
      (cat : sdscatlen c.sendbuf msg.data = some sendbuf) (set : fe'.mask.writable = true) :
      Effect p cli c fe (.message msg addOk)
        (askedEvents cli closeConn ++ [.appended cli msg.data])
        { c with closeConn := closeConn, sendbuf := sendbuf } fe'

/-- How a step opens a connection: the action, the events, the connection and the
entry of its fd. -/
inductive Opened (p : ConnProc) (cli : Nat) :
    ConnAct → List ConnEvent → ClientConn → AeFileEvent FileProc Nat → Prop
  | silent {fd : Nat} {ip : String} {port : Int} {env : AcceptEnv}
      {fe : AeFileEvent FileProc Nat} (addr : env.addr = some cli)
      (handleOpen : env.handleOpen = none) :
      Opened p cli (.accept fd ip port env) [.opened cli fd] (newClient p fd ip port env.time) fe
  | quiet {fd : Nat} {ip : String} {port : Int} {env : AcceptEnv} {answer : OpenAnswer}
      {fe : AeFileEvent FileProc Nat} (addr : env.addr = some cli)
      (handleOpen : env.handleOpen = some answer) (retbuf : answer.retbuf = none) :
      Opened p cli (.accept fd ip port env)
        (.opened cli fd :: askedEvents cli (answer.ret = verbenConnClose))
        { newClient p fd ip port env.time with closeConn := answer.ret = verbenConnClose } fe
  | welcomed {fd : Nat} {ip : String} {port : Int} {env : AcceptEnv} {answer : OpenAnswer}
      {data : List UInt8} {sendbuf : Sds} {fe : AeFileEvent FileProc Nat}
      (addr : env.addr = some cli) (handleOpen : env.handleOpen = some answer)
      (retbuf : answer.retbuf = some data) (cat : sdscatlen sdsempty data = some sendbuf)
      (set : fe.mask.writable = true) (accepted : answer.ret ≠ verbenError) :
      Opened p cli (.accept fd ip port env)
        (.opened cli fd :: askedEvents cli (answer.ret = verbenConnClose) ++ [.appended cli data])
        { newClient p fd ip port env.time with
          closeConn := answer.ret = verbenConnClose, sendbuf := sendbuf } fe

/-! ## Callbacks for one connection -/

/-- A callback for `cli`: the tables still agree, the other connections are as they
were, and the events are about `cli`. -/
structure Callback (p p' : ConnProc) (cli : Nat) (events : List ConnEvent) : Prop where
  wf : p'.Wf
  apart : Apart p p' cli
  about : ∀ e ∈ events, e.cli = cli

theorem ConnResult.of_after {events : List ConnEvent} {result : ConnResult} {p' : ConnProc}
    {all : List ConnEvent} (eq : result.after events = some (p', all)) :
    ∃ rest, result = some (p', rest) ∧ all = events ++ rest := by
  obtain ⟨⟨q, rest⟩, found, same⟩ := Option.map_eq_some_iff.mp eq
  cases same
  exact ⟨rest, found, rfl⟩

theorem askedEvents_about (cli : Nat) (closeConn : Bool) :
    ∀ e ∈ askedEvents cli closeConn, e.cli = cli := by
  intro e mem
  unfold askedEvents at mem
  split at mem
  · rw [List.mem_singleton.mp mem]
    rfl
  · cases mem

theorem answeredEvents_about (cli : Nat) (before after : ClientConn) :
    ∀ e ∈ answeredEvents cli before after, e.cli = cli := by
  intro e mem
  unfold answeredEvents at mem
  split at mem
  · rw [List.mem_singleton.mp mem]
    rfl
  · cases mem

variable {p p' p'' : ConnProc} {cli : Nat} {c : ClientConn} {events events' : List ConnEvent}

theorem Callback.trans (first : Callback p p' cli events) (second : Callback p' p'' cli events') :
    Callback p p'' cli (events ++ events') := by
  refine ⟨second.wf, first.apart.trans second.apart, ?_⟩
  intro e mem
  rcases List.mem_append.mp mem with mem | mem
  · exact first.about e mem
  · exact second.about e mem

theorem Callback.setClient (wf : p.Wf) (live : p.heap cli = some c) (c' : ClientConn)
    (fd : c'.fd = c.fd) (magic : c'.magic = c.magic) :
    Callback p (p.setClient cli c') cli [] :=
  ⟨wf.setClient live fd magic, apart_setClient p cli c', by simp⟩

/-- A callback that only says something. -/
theorem Callback.say (wf : p.Wf) (about : ∀ e ∈ events, e.cli = cli) :
    Callback p p cli events := ⟨wf, Apart.refl p cli, about⟩

theorem ConnProc.Wf.nextIdentifier (wf : p.Wf) : p.nextIdentifier.Wf := by
  refine ⟨fun live => ?_, wf.listed, wf.nodup, wf.vec, wf.entry, wf.writer, wf.shut⟩
  have l := wf.live live
  exact ⟨l.addr, l.magic, l.listed, l.vec, l.isOpen, l.inside, l.readable, l.reader, l.data⟩

theorem ConnProc.Wf.setClock (wf : p.Wf) (now : Int) : { p with unixClock := now }.Wf := by
  refine ⟨fun live => ?_, wf.listed, wf.nodup, wf.vec, wf.entry, wf.writer, wf.shut⟩
  have l := wf.live live
  exact ⟨l.addr, l.magic, l.listed, l.vec, l.isOpen, l.inside, l.readable, l.reader, l.data⟩

theorem closeClient_of_live (wf : p.Wf) (live : p.heap cli = some c) :
    closeClient p cli = some (p.drop cli c.fd, [.closed cli]) := by
  unfold closeClient
  rw [live, Option.bind_some, if_pos (wf.live live).listed]

theorem Callback.close (wf : p.Wf) (live : p.heap cli = some c)
    (closed : closeClient p cli = some (p', events)) :
    Callback p p' cli events ∧ p'.heap cli = none := by
  rw [closeClient_of_live wf live] at closed
  cases closed
  refine ⟨⟨wf.drop live, apart_drop wf live, ?_⟩, heap_drop_self ..⟩
  intro e mem
  rw [List.mem_singleton.mp mem]
  rfl

/-! ## Reading -/

theorem receive_fd {c' : ClientConn} {bytes : List UInt8} {handleInput : List UInt8 → Int}
    (received : c.receive bytes handleInput = some c') : c'.fd = c.fd ∧ c'.magic = c.magic := by
  obtain ⟨recvbuf, _, same⟩ := Option.map_eq_some_iff.mp received
  cases same
  exact ⟨rfl, rfl⟩

theorem consume_fd {c' : ClientConn} (consumed : c.consume = some c') :
    c'.fd = c.fd ∧ c'.magic = c.magic := by
  obtain ⟨recvbuf, _, same⟩ := Option.map_eq_some_iff.mp consumed
  cases same
  exact ⟨rfl, rfl⟩

/-- Behind `handle_input`: the connection is closed, or waits, or its frame is pushed. -/
theorem dispatchFrame_cases (wf : p.Wf) (live : p.heap cli = some c) {env : ReadEnv}
    (dispatched : dispatchFrame p cli c env = some (p', events)) :
    Callback p p' cli events ∧
      (p'.heap cli = none ∨
        (p' = p ∧ events = [] ∧ c.verdict = some .wait) ∨
        ∃ data c', c.verdict = some (.frame data) ∧ c.consume = some c' ∧
          p' = p.nextIdentifier.setClient cli c' ∧ events = [.pushed (p.message cli c data)]) := by
  obtain ⟨verdict, found, rest⟩ := Option.bind_eq_some_iff.mp dispatched
  cases verdict with
  | invalid =>
      obtain ⟨callback, gone⟩ := Callback.close wf live rest
      exact ⟨callback, .inl gone⟩
  | wait =>
      cases rest
      exact ⟨.say wf (by simp), .inr (.inl ⟨rfl, rfl, found⟩)⟩
  | frame data =>
      simp only at rest
      split at rest
      · split at rest
        · obtain ⟨c', consume, same⟩ := Option.map_eq_some_iff.mp rest
          cases same
          obtain ⟨fd, magic⟩ := consume_fd consume
          have moved := Callback.setClient wf.nextIdentifier live _ fd magic
          refine ⟨⟨moved.wf, moved.apart, ?_⟩, .inr (.inr ⟨data, c', found, consume, rfl, rfl⟩)⟩
          intro e mem
          rw [List.mem_singleton.mp mem]
          rfl
        · obtain ⟨callback, gone⟩ := Callback.close wf.nextIdentifier live rest
          exact ⟨⟨callback.wf, callback.apart, callback.about⟩, .inl gone⟩
      · obtain ⟨callback, gone⟩ := Callback.close wf live rest
        exact ⟨callback, .inl gone⟩

/-- A read that gives bytes appends them and looks for a frame. -/
theorem readFromClient_of_data (live : p.heap cli = some c) {env : ReadEnv} {bytes : List UInt8}
    (result : env.result = .data bytes) (nonempty : bytes ≠ []) (short : bytes.length < iobufSize) :
    readFromClient p cli env =
      ((c.touch p.unixClock).receive bytes env.handleInput).bind fun c' =>
        (dispatchFrame (p.setClient cli c') cli c' env).after
          (.received cli bytes :: answeredEvents cli (c.touch p.unixClock) c') := by
  unfold readFromClient
  rw [live, Option.bind_some, result]
  cases bytes with
  | nil => exact absurd rfl nonempty
  | cons b bs => exact if_neg (Nat.not_le.mpr short)

theorem readFromClient_cases (wf : p.Wf) (live : p.heap cli = some c) {env : ReadEnv}
    (read : readFromClient p cli env = some (p', events)) :
    Callback p p' cli events ∧
      (p'.heap cli = none ∨ ∃ c', p'.heap cli = some c' ∧ c'.fd = c.fd ∧
        Effect p cli c (p.ael.events c.fd) (.readable c.fd env) events c'
          (p'.ael.events c'.fd)) := by
  unfold readFromClient at read
  rw [live, Option.bind_some] at read
  have touched : Callback p (p.setClient cli (c.touch p.unixClock)) cli [] :=
    .setClient wf live _ rfl rfl
  have live' := heap_setClient_self p cli (c.touch p.unixClock)
  have gone : ∀ {result : ConnResult}, result = some (p', events) →
      result = closeClient (p.setClient cli (c.touch p.unixClock)) cli →
      Callback p p' cli events ∧ p'.heap cli = none := by
    intro result eq closed
    obtain ⟨callback, none⟩ := Callback.close touched.wf live' (closed ▸ eq)
    exact ⟨touched.trans callback, none⟩
  simp only at read
  split at read
  · next result =>
      cases read
      exact ⟨touched, .inr ⟨_, live', rfl, .again result⟩⟩
  · obtain ⟨callback, none⟩ := gone read rfl
    exact ⟨callback, .inl none⟩
  · obtain ⟨callback, none⟩ := gone read rfl
    exact ⟨callback, .inl none⟩
  · next bytes nonempty result =>
      have notEof : bytes ≠ [] := by
        intro same
        subst same
        exact nonempty rfl
      split at read
      · cases read
      · next inside =>
          have fits : bytes.length < iobufSize := Nat.lt_of_not_le inside
          obtain ⟨c', received, rest⟩ := Option.bind_eq_some_iff.mp read
          obtain ⟨fd, magic⟩ := receive_fd received
          obtain ⟨tail, dispatched, rfl⟩ := ConnResult.of_after rest
          have appended : Callback p (p.setClient cli c') cli
              (.received cli bytes :: answeredEvents cli (c.touch p.unixClock) c') := by
            refine ⟨wf.setClient live fd magic, apart_setClient p cli c', ?_⟩
            intro e mem
            rcases List.mem_cons.mp mem with rfl | mem
            · rfl
            · exact answeredEvents_about _ _ _ e mem
          obtain ⟨callback, outcome⟩ :=
            dispatchFrame_cases appended.wf (heap_setClient_self ..) dispatched
          refine ⟨appended.trans callback, ?_⟩
          rcases outcome with none | ⟨rfl, rfl, verdict⟩ | ⟨data, c'', verdict, consume, rfl, rfl⟩
          · exact .inl none
          · refine .inr ⟨c', heap_setClient_self .., fd, ?_⟩
            rw [List.append_nil, fd]
            exact .wait result notEof fits received verdict
          · obtain ⟨fd', _⟩ := consume_fd consume
            refine .inr ⟨c'', heap_setClient_self .., fd'.trans fd, ?_⟩
            rw [fd', fd]
            exact .frame result notEof fits received verdict consume

/-! ## Writing -/

theorem finishWrite_cases (wf : p.Wf) (live : p.heap cli = some c) {n : Nat}
    (finished : finishWrite p cli c n = some (p', events)) :
    Callback p p' cli events ∧
      (p'.heap cli = none ∨ ∃ sendbuf, p'.heap cli = some { c with sendbuf := sendbuf } ∧
        events = [] ∧
        (((n : Int) = sdslen c.sendbuf ∧ sdsclear c.sendbuf = some sendbuf ∧
            c.closeConn = false ∧ (p'.ael.events c.fd).mask.writable = false) ∨
          ((n : Int) ≠ sdslen c.sendbuf ∧ sdsrange c.sendbuf n (-1) = some sendbuf ∧
            p'.ael = p.ael))) := by
  unfold finishWrite at finished
  split at finished
  · next all =>
      obtain ⟨sendbuf, clear, rest⟩ := Option.bind_eq_some_iff.mp finished
      have unset := mask_aeDeleteFileEvent p.ael (wf.live live).inside aeWritable
      have unregistered : Callback p (p.setAel (aeDeleteFileEvent p.ael c.fd aeWritable)) cli [] :=
        ⟨wf.unregister live,
          apart_setAel wf live (fun fd ne => events_aeDeleteFileEvent_ne _ _ ne), by simp⟩
      have stored := Callback.setClient unregistered.wf live { c with sendbuf := sendbuf } rfl rfl
      have cleared := unregistered.trans stored
      simp only at rest
      split at rest
      · obtain ⟨callback, gone⟩ := Callback.close cleared.wf (heap_setClient_self ..) rest
        exact ⟨cleared.trans callback, .inl gone⟩
      · next stay =>
          cases rest
          refine ⟨cleared, .inr ⟨sendbuf, heap_setClient_self .., rfl, .inl ⟨all, clear, ?_, ?_⟩⟩⟩
          · exact Bool.eq_false_iff.mpr stay
          · change ((aeDeleteFileEvent p.ael c.fd aeWritable).events c.fd).mask.writable = false
            rw [unset]
            simp [AeMask.andNot, aeWritable]
  · next part =>
      obtain ⟨sendbuf, range, same⟩ := Option.map_eq_some_iff.mp finished
      cases same
      exact ⟨.setClient wf live _ rfl rfl,
        .inr ⟨sendbuf, heap_setClient_self .., rfl, .inr ⟨part, range, rfl⟩⟩⟩

theorem writeToClient_cases (wf : p.Wf) (live : p.heap cli = some c) {result : WriteResult}
    (written : writeToClient p cli result = some (p', events)) :
    Callback p p' cli events ∧
      (p'.heap cli = none ∨ ∃ c', p'.heap cli = some c' ∧ c'.fd = c.fd ∧
        Effect p cli c (p.ael.events c.fd) (.writable c.fd result) events c'
          (p'.ael.events c'.fd)) := by
  unfold writeToClient at written
  rw [live, Option.bind_some] at written
  have touched : Callback p (p.setClient cli (c.touch p.unixClock)) cli [] :=
    .setClient wf live _ rfl rfl
  have live' := heap_setClient_self p cli (c.touch p.unixClock)
  -- with the answer of `write` known, the rest of the callback decides
  have finish : ∀ {n : Nat} {said tail : List ConnEvent},
      WriteTook cli (c.touch p.unixClock) result n said → (∀ e ∈ said, e.cli = cli) →
      finishWrite (p.setClient cli (c.touch p.unixClock)) cli (c.touch p.unixClock) n =
        some (p', tail) →
      events = said ++ tail →
      Callback p p' cli events ∧
        (p'.heap cli = none ∨ ∃ c', p'.heap cli = some c' ∧ c'.fd = c.fd ∧
          Effect p cli c (p.ael.events c.fd) (.writable c.fd result) events c'
            (p'.ael.events c'.fd)) := by
    intro n said tail took about finished same
    subst same
    obtain ⟨callback, outcome⟩ := finishWrite_cases touched.wf live' finished
    refine ⟨(touched.trans (.say touched.wf about)).trans callback, ?_⟩
    rcases outcome with gone | ⟨sendbuf, there, rfl, drained | shifted⟩
    · exact .inl gone
    · rcases drained with ⟨all, clear, stay, unset⟩
      refine .inr ⟨_, there, rfl, ?_⟩
      rw [List.append_nil]
      exact .drained took all clear stay unset
    · rcases shifted with ⟨part, range, same⟩
      refine .inr ⟨_, there, rfl, ?_⟩
      rw [List.append_nil, same]
      exact .shifted took part range
  cases result with
  | error =>
      obtain ⟨callback, gone⟩ := Callback.close touched.wf live' written
      exact ⟨touched.trans callback, .inl gone⟩
  | again => exact finish .again (by simp) written rfl
  | wrote n =>
      simp only at written
      split at written
      · next most =>
          obtain ⟨bytes, load, rest⟩ := Option.bind_eq_some_iff.mp written
          obtain ⟨tail, finished, same⟩ := ConnResult.of_after rest
          refine finish (.wrote most load) ?_ finished same
          intro e mem
          rw [List.mem_singleton.mp mem]
          rfl
      · cases written

/-! ## Appending -/

theorem appendSendbuf_cases (wf : p.Wf) (live : p.heap cli = some c) {data : List UInt8}
    {addOk : Bool} (appended : appendSendbuf p cli data addOk = some (p', events)) :
    Callback p p' cli events ∧
      (p'.heap cli = none ∨ ∃ sendbuf, sdscatlen c.sendbuf data = some sendbuf ∧
        p'.heap cli = some { c with sendbuf := sendbuf } ∧ events = [.appended cli data] ∧
        (p'.ael.events c.fd).mask.writable = true) := by
  unfold appendSendbuf at appended
  rw [live, Option.bind_some] at appended
  obtain ⟨sendbuf, cat, rest⟩ := Option.bind_eq_some_iff.mp appended
  obtain ⟨tail, registered, rfl⟩ := ConnResult.of_after rest
  have filled : Callback p (p.setClient cli { c with sendbuf := sendbuf }) cli
      [.appended cli data] := by
    refine ⟨wf.setClient live rfl rfl, apart_setClient _ _ _, ?_⟩
    intro e mem
    rw [List.mem_singleton.mp mem]
    rfl
  have live' := heap_setClient_self p cli { c with sendbuf := sendbuf }
  split at registered
  · obtain ⟨callback, gone⟩ := Callback.close filled.wf live' registered
    exact ⟨filled.trans callback, .inl gone⟩
  · next ael created =>
      cases registered
      have entry := (events_of_aeCreateFileEvent created).2
      refine ⟨filled.trans ⟨filled.wf.register live' created, apart_setAel filled.wf live'
        (fun fd ne => events_of_aeCreateFileEvent_ne created ne), by simp⟩, .inr ?_⟩
      refine ⟨sendbuf, cat, live', rfl, ?_⟩
      simp [entry, AeFileEvent.register, AeMask.or, aeWritable]

/-- With the table in order, an append registers a write event. -/
theorem appendSendbuf_of_live (wf : p.Wf) (live : p.heap cli = some c) {data : List UInt8}
    {sendbuf : Sds} (cat : sdscatlen c.sendbuf data = some sendbuf) :
    ∃ p', appendSendbuf p cli data true = some (p', [.appended cli data]) ∧
      p'.heap cli = some { c with sendbuf := sendbuf } ∧ p'.connPid = p.connPid := by
  obtain ⟨ael, created⟩ : ∃ ael,
      aeCreateFileEvent p.ael c.fd aeWritable .writeToClient cli true = some ael := by
    unfold aeCreateFileEvent
    rw [if_neg (Nat.not_le.mpr (wf.live live).inside)]
    exact ⟨_, rfl⟩
  refine ⟨(p.setClient cli { c with sendbuf := sendbuf }).setAel ael, ?_,
    heap_setClient_self .., rfl⟩
  unfold appendSendbuf
  rw [live, Option.bind_some, cat, Option.bind_some]
  simp only [ConnProc.setClient, created]
  rfl

/-- A response for a live connection is appended. -/
theorem notifierMessage_of_live (msg : ShmMsg) (wf : p.Wf) (live : p.heap msg.cli = some c)
    (magic : msg.magic = connMsgMagic) (pid : p.connPid = msg.pid) (fd : c.fd = msg.fd)
    {closeConn : Bool} (flag : msg.closeConn = some closeConn) {sendbuf : Sds}
    (cat : sdscatlen c.sendbuf msg.data = some sendbuf) :
    ∃ p', notifierMessage p msg true =
        some (p', askedEvents msg.cli closeConn ++ [.appended msg.cli msg.data]) ∧
      p'.heap msg.cli = some { c with closeConn := closeConn, sendbuf := sendbuf } ∧
      p'.connPid = p.connPid := by
  have l := wf.live live
  have flagged : (p.setCloseConn msg.cli c closeConn).Wf := wf.setClient live rfl rfl
  obtain ⟨p', appended, live', pid'⟩ :=
    appendSendbuf_of_live flagged (heap_setClient_self ..) cat
  refine ⟨p', ?_, live', pid'⟩
  unfold notifierMessage
  rw [if_neg (Decidable.not_not.mpr magic), if_neg (Decidable.not_not.mpr pid),
    if_neg (Decidable.not_not.mpr (fd ▸ l.vec)), live, Option.bind_some,
    if_neg (Decidable.not_not.mpr l.magic), flag, Option.bind_some, appended]
  rfl

theorem notifierMessage_cases (wf : p.Wf) {msg : ShmMsg} {addOk : Bool}
    (handled : notifierMessage p msg addOk = some (p', events)) :
    (p' = p ∧ events = []) ∨
      ∃ c, p.heap msg.cli = some c ∧ c.fd = msg.fd ∧ Callback p p' msg.cli events ∧
        (p'.heap msg.cli = none ∨ ∃ c', p'.heap msg.cli = some c' ∧ c'.fd = c.fd ∧
          Effect p msg.cli c (p.ael.events c.fd) (.message msg addOk) events c'
            (p'.ael.events c'.fd)) := by
  unfold notifierMessage at handled
  split at handled
  · cases handled
  · split at handled
    · cases handled
      exact .inl ⟨rfl, rfl⟩
    · next pid =>
        split at handled
        · cases handled
          exact .inl ⟨rfl, rfl⟩
        · next vec =>
            obtain ⟨c, live, rest⟩ := Option.bind_eq_some_iff.mp handled
            split at rest
            · cases rest
            · obtain ⟨closeConn, flag, rest⟩ := Option.bind_eq_some_iff.mp rest
              obtain ⟨tail, appended, rfl⟩ := ConnResult.of_after rest
              have vec : p.connVec msg.fd = msg.cli := Decidable.not_not.mp vec
              have fd : c.fd = msg.fd := by
                have nonnull : p.connVec msg.fd ≠ 0 := vec ▸ (wf.live live).addr
                obtain ⟨c', live', fd⟩ := wf.vec nonnull
                rw [vec, live] at live'
                cases live'
                exact fd
              have flagged : Callback p (p.setCloseConn msg.cli c closeConn) msg.cli
                  (askedEvents msg.cli closeConn) :=
                ⟨wf.setClient live rfl rfl, apart_setClient _ _ _, askedEvents_about _ _⟩
              obtain ⟨callback, outcome⟩ :=
                appendSendbuf_cases flagged.wf (heap_setClient_self ..) appended
              refine .inr ⟨c, live, fd, flagged.trans callback, ?_⟩
              rcases outcome with gone | ⟨sendbuf, cat, there, rfl, set⟩
              · exact .inl gone
              · exact .inr ⟨_, there, rfl, .responded (Decidable.not_not.mp pid) vec fd rfl flag
                  cat set⟩

/-! ## Accepting -/

/-- `create_client` fails and leaves the tables as they were, or makes a connection. -/
theorem createClient_cases (wf : p.Wf) {fd : Nat} (ip : String) (port : Int) {env : CreateEnv}
    (unused : p.Unused fd) (isOpen : p.fdOpen fd = true) (fresh : p.FreshAddr env.addr) :
    (∃ q, createClient p fd ip port env = (none, q) ∧ q.Wf ∧ q.Unused fd ∧
      (∀ {other c}, q.heap other = some c →
        p.heap other = some c ∧ q.ael.events c.fd = p.ael.events c.fd)) ∨
    ∃ cli q, createClient p fd ip port env = (some cli, q) ∧ env.addr = some cli ∧
      p.heap cli = none ∧ Callback p q cli [.opened cli fd] ∧
      q.heap cli = some (newClient p fd ip port env.time) := by
  unfold createClient
  cases addr : env.addr with
  | none => exact .inl ⟨p, rfl, wf, unused, fun live => ⟨live, rfl⟩⟩
  | some cli =>
      rw [addr] at fresh
      simp only
      cases created : aeCreateFileEvent p.ael fd aeReadable .readFromClient cli env.addOk with
      | none =>
          exact .inl ⟨_, rfl, wf.setFdOpen unused false, ⟨unused.quiet, unused.noClient⟩,
            fun live => ⟨live, rfl⟩⟩
      | some ael =>
          have inside := (events_of_aeCreateFileEvent created).1
          have others : ∀ other, other ≠ fd → ael.events other = p.ael.events other :=
            fun other ne => events_of_aeCreateFileEvent_ne created ne
          simp only
          split
          · refine .inr ⟨cli, _, rfl, rfl, fresh.2, ⟨wf.create unused isOpen fresh.1 fresh.2 rfl rfl
              created, ?_, ?_⟩, Function.update_self ..⟩
            · intro other c ne live
              have before : p.heap other = some c := (Function.update_of_ne ne ..).symm.trans live
              exact ⟨before, others c.fd (unused.noClient before)⟩
            · intro e mem
              rw [List.mem_singleton.mp mem]
              rfl
          · -- the entry was unused before, and is unused again
            have entry : ael.events fd =
                (p.ael.events fd).register aeReadable .readFromClient cli := by
              rw [(events_of_aeCreateFileEvent created).2, Function.update_self]
            have quiet : ((aeDeleteFileEvent ael fd aeReadable).events fd).mask = aeNone := by
              rw [mask_aeDeleteFileEvent ael inside, entry]
              simp [AeFileEvent.register, AeMask.or, AeMask.andNot, unused.quiet, aeReadable,
                aeNone]
            have same : ∀ other, other ≠ fd →
                (aeDeleteFileEvent ael fd aeReadable).events other = p.ael.events other :=
              fun other ne => (events_aeDeleteFileEvent_ne _ _ ne).trans (others other ne)
            have restored := wf.setUnused unused same quiet
            exact .inl ⟨_, rfl, restored.setFdOpen ⟨quiet, unused.noClient⟩ false,
              ⟨quiet, unused.noClient⟩,
              fun live => ⟨live, same _ (unused.noClient live)⟩⟩

/-- Behind `handle_open`: the connection is closed, or is left open without data, or
with data and a write event. -/
theorem openAnswered_cases (wf : p.Wf) (live : p.heap cli = some c) {answer : OpenAnswer}
    {writeOk : Bool} (opened : openAnswered p cli answer writeOk = some (p', events)) :
    Callback p p' cli events ∧
      (p'.heap cli = none ∨
        (answer.retbuf = none ∧ events = askedEvents cli (answer.ret = verbenConnClose) ∧
          p'.heap cli = some { c with closeConn := answer.ret = verbenConnClose }) ∨
        ∃ data sendbuf, answer.retbuf = some data ∧ sdscatlen c.sendbuf data = some sendbuf ∧
          events = askedEvents cli (answer.ret = verbenConnClose) ++ [.appended cli data] ∧
          p'.heap cli =
            some { c with closeConn := answer.ret = verbenConnClose, sendbuf := sendbuf } ∧
          (p'.ael.events c.fd).mask.writable = true ∧ answer.ret ≠ verbenError) := by
  unfold openAnswered at opened
  split at opened
  · obtain ⟨callback, gone⟩ := Callback.close wf live opened
    exact ⟨callback, .inl gone⟩
  · next noError =>
    rw [live, Option.bind_some] at opened
    obtain ⟨tail, rest, rfl⟩ := ConnResult.of_after opened
    have flagged : Callback p (p.setCloseConn cli c (answer.ret = verbenConnClose)) cli
        (askedEvents cli (answer.ret = verbenConnClose)) :=
      ⟨wf.setClient live rfl rfl, apart_setClient _ _ _, askedEvents_about _ _⟩
    split at rest
    · next retbuf =>
        cases rest
        rw [List.append_nil]
        exact ⟨flagged, .inr (.inl ⟨retbuf, rfl, heap_setClient_self ..⟩)⟩
    · next data retbuf =>
        obtain ⟨callback, outcome⟩ :=
          appendSendbuf_cases flagged.wf (heap_setClient_self ..) rest
        refine ⟨flagged.trans callback, ?_⟩
        rcases outcome with gone | ⟨sendbuf, cat, there, rfl, set⟩
        · exact .inl gone
        · exact .inr (.inr ⟨data, sendbuf, retbuf, cat, rfl, there, set, noError⟩)

/-- A connection that `accept` gave is refused, or opened. -/
theorem acceptCommonHandler_cases (wf : p.Wf) {fd : Nat} {ip : String} {port : Int}
    {env : AcceptEnv} (unused : p.Unused fd) (isOpen : p.fdOpen fd = true)
    (fresh : p.FreshAddr env.addr)
    (accepted : acceptCommonHandler p fd ip port env = some (p', events)) :
    (p'.Wf ∧ events = [] ∧ ∀ {other c}, p'.heap other = some c →
      p.heap other = some c ∧ p'.ael.events c.fd = p.ael.events c.fd) ∨
    ∃ cli, p.heap cli = none ∧ Callback p p' cli events ∧
      (p'.heap cli = none ∨ ∃ c, p'.heap cli = some c ∧
        Opened p cli (.accept fd ip port env) events c (p'.ael.events c.fd)) := by
  unfold acceptCommonHandler at accepted
  rcases createClient_cases wf ip port unused isOpen fresh with
    ⟨q, created, qWf, qUnused, same⟩ | ⟨cli, q, created, addr, absent, callback, live⟩
  · rw [created] at accepted
    cases accepted
    exact .inl ⟨qWf.setFdOpen qUnused false, rfl, same⟩
  · rw [created] at accepted
    obtain ⟨tail, rest, rfl⟩ := ConnResult.of_after accepted
    refine .inr ⟨cli, absent, ?_⟩
    split at rest
    · obtain ⟨closed, gone⟩ := Callback.close callback.wf live rest
      exact ⟨callback.trans closed, .inl gone⟩
    · split at rest
      · next handleOpen =>
          cases rest
          rw [List.append_nil]
          exact ⟨callback, .inr ⟨_, live, .silent addr handleOpen⟩⟩
      · next answer handleOpen =>
          obtain ⟨answered, outcome⟩ := openAnswered_cases callback.wf live rest
          refine ⟨callback.trans answered, ?_⟩
          rcases outcome with gone | ⟨retbuf, rfl, there⟩ |
            ⟨data, sendbuf, retbuf, cat, rfl, there, set, noError⟩
          · exact .inl gone
          · exact .inr ⟨_, there, .quiet addr handleOpen retbuf⟩
          · exact .inr ⟨_, there, .welcomed addr handleOpen retbuf cat set noError⟩

/-! ## The timer -/

/-- `server_cron` closes connections and leaves the others alone. -/
theorem cronLoop_cases {nodes : List Nat} (wf : p.Wf)
    (looped : cronLoop p nodes = some (p', events)) :
    p'.Wf ∧ ∀ cli c, p'.heap cli = some c →
      p.heap cli = some c ∧ p'.ael.events c.fd = p.ael.events c.fd ∧
        ∀ e ∈ events, e.cli ≠ cli := by
  induction nodes generalizing p events with
  | nil =>
      cases looped
      exact ⟨wf, fun cli c live => ⟨live, rfl, by simp⟩⟩
  | cons node rest ih =>
      obtain ⟨c, live, body⟩ := Option.bind_eq_some_iff.mp looped
      split at body
      · rw [closeClient_of_live wf live, Option.bind_some] at body
        obtain ⟨tail, others, rfl⟩ := ConnResult.of_after body
        obtain ⟨wf', kept⟩ := ih (wf.drop live) others
        refine ⟨wf', fun cli c' live' => ?_⟩
        obtain ⟨before, entry, quiet⟩ := kept cli c' live'
        have ne : cli ≠ node := by
          intro same
          subst same
          rw [heap_drop_self] at before
          cases before
        obtain ⟨there, entry'⟩ := apart_drop wf live cli c' ne before
        refine ⟨there, entry.trans entry', ?_⟩
        intro e mem
        rcases List.mem_cons.mp mem with rfl | mem
        · exact fun same => ne same.symm
        · exact quiet e mem
      · exact ih wf body

/-! ## Steps -/

/-- What became of a connection that is live after a step. -/
inductive Fate (p p' : ConnProc) (act : ConnAct) (events : List ConnEvent) (cli : Nat)
    (c' : ClientConn) : Prop
  | same (live : p.heap cli = some c') (entry : p'.ael.events c'.fd = p.ael.events c'.fd)
      (quiet : ∀ e ∈ events, e.cli ≠ cli)
  | changed {c : ClientConn} (live : p.heap cli = some c) (about : ∀ e ∈ events, e.cli = cli)
      (effect : Effect p cli c (p.ael.events c.fd) act events c' (p'.ael.events c'.fd))
  | opened (absent : p.heap cli = none) (about : ∀ e ∈ events, e.cli = cli)
      (opened : Opened p cli act events c' (p'.ael.events c'.fd))

theorem Callback.fate {act : ConnAct} (callback : Callback p p' cli events)
    (target : ∀ c', p'.heap cli = some c' → Fate p p' act events cli c') :
    ∀ other c', p'.heap other = some c' → Fate p p' act events other c' := by
  intro other c' live
  by_cases same : other = cli
  · exact same ▸ target c' (same ▸ live)
  · obtain ⟨before, entry⟩ := callback.apart other c' same live
    exact .same before entry fun e mem about => same (about.symm.trans (callback.about e mem))

/-- A callback for a live connection closes it or has an effect on it. -/
theorem Callback.fate_of_outcome {act : ConnAct} (callback : Callback p p' cli events)
    (live : p.heap cli = some c)
    (outcome : p'.heap cli = none ∨ ∃ c', p'.heap cli = some c' ∧ c'.fd = c.fd ∧
      Effect p cli c (p.ael.events c.fd) act events c' (p'.ael.events c'.fd)) :
    ∀ other c', p'.heap other = some c' → Fate p p' act events other c' := by
  apply callback.fate
  intro c' live'
  rcases outcome with gone | ⟨c'', there, _, effect⟩
  · rw [gone] at live'
    cases live'
  · rw [there] at live'
    cases live'
    exact .changed live callback.about effect

/-- **The cases of a step.** The tables agree after it, and every connection that is
live then has one of the fates above. -/
theorem ConnProc.step_cases {act : ConnAct} (wf : p.Wf) (stepped : p.step act = some (p', events)) :
    p'.Wf ∧ ∀ cli c', p'.heap cli = some c' → Fate p p' act events cli c' := by
  cases act with
  | accept fd ip port env =>
      simp only [ConnProc.step] at stepped
      split at stepped
      · next allowed =>
          have unused := wf.unused allowed.1
          rcases acceptCommonHandler_cases (wf.setFdOpen unused true)
              ⟨unused.quiet, unused.noClient⟩ (Function.update_self ..) allowed.2 stepped with
            ⟨wf', rfl, same⟩ | ⟨cli, absent, callback, outcome⟩
          · exact ⟨wf', fun cli c' live => .same (same live).1 (same live).2 (by simp)⟩
          · have apart : Callback p p' cli events := ⟨callback.wf, callback.apart, callback.about⟩
            refine ⟨apart.wf, apart.fate fun c' live => ?_⟩
            rcases outcome with gone | ⟨c, there, opened⟩
            · rw [gone] at live
              cases live
            · rw [there] at live
              cases live
              refine .opened absent apart.about ?_
              cases opened with
              | silent addr handleOpen => exact .silent addr handleOpen
              | quiet addr handleOpen retbuf => exact .quiet addr handleOpen retbuf
              | welcomed addr handleOpen retbuf cat set accepted =>
                  exact .welcomed addr handleOpen retbuf cat set accepted
      · cases stepped
  | readable fd env =>
      simp only [ConnProc.step] at stepped
      split at stepped
      · next fired =>
          obtain ⟨cli, data, read⟩ := Option.bind_eq_some_iff.mp stepped
          obtain ⟨cli', c, data', live, rfl⟩ := wf.entry (.inl fired)
          cases data.symm.trans data'
          obtain ⟨callback, outcome⟩ := readFromClient_cases wf live read
          exact ⟨callback.wf, callback.fate_of_outcome live outcome⟩
      · cases stepped
  | writable fd result =>
      simp only [ConnProc.step] at stepped
      split at stepped
      · next fired =>
          obtain ⟨cli, data, written⟩ := Option.bind_eq_some_iff.mp stepped
          obtain ⟨cli', c, data', live, rfl⟩ := wf.entry (.inr fired.1)
          cases data.symm.trans data'
          obtain ⟨callback, outcome⟩ := writeToClient_cases wf live written
          exact ⟨callback.wf, callback.fate_of_outcome live outcome⟩
      · cases stepped
  | message msg addOk =>
      rcases notifierMessage_cases wf stepped with ⟨rfl, rfl⟩ | ⟨c, live, _, callback, outcome⟩
      · exact ⟨wf, fun cli c' live => .same live rfl (by simp)⟩
      · exact ⟨callback.wf, callback.fate_of_outcome live outcome⟩
  | cron now =>
      obtain ⟨wf', kept⟩ := cronLoop_cases (wf.setClock now) stepped
      refine ⟨wf', fun cli c' live => ?_⟩
      obtain ⟨there, entry, quiet⟩ := kept cli c' live
      exact .same there entry quiet

/-! ## The first state -/

theorem ConnProc.wf_init (boot : ConnBoot) : (ConnProc.init boot).Wf := by
  have entry : ∀ fd, ((ConnProc.init boot).ael.events fd).mask.writable = false ∧
      ((ConnProc.init boot).ael.events fd).rFileProc ≠ some .readFromClient ∧
      (boot.fdOpen fd = false → ((ConnProc.init boot).ael.events fd).mask = aeNone) := by
    intro fd
    simp only [ConnProc.init]
    by_cases listen : fd = boot.listenFd
    · subst listen
      simp [bootEvent, aeReadable, boot.listenOpen]
    · rw [Function.update_of_ne listen]
      by_cases notifier : fd = boot.notifierFd
      · subst notifier
        simp [bootEvent, aeReadable, boot.notifierOpen]
      · rw [Function.update_of_ne notifier]
        simp [aeNone]
  constructor
  case live =>
    intro cli c live
    cases live
  case listed =>
    intro cli mem
    cases mem
  case nodup => exact List.nodup_nil
  case vec =>
    intro fd set
    exact absurd rfl set
  case entry =>
    intro fd either
    rcases either with ⟨_, reader⟩ | writable
    · exact absurd reader (entry fd).2.1
    · rw [(entry fd).1] at writable
      cases writable
  case writer =>
    intro fd writable
    rw [(entry fd).1] at writable
    cases writable
  case shut =>
    intro fd closed
    exact (entry fd).2.2 closed

end Verben
