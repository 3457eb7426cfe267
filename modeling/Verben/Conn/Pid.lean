import Verben.Conn.Step

/-!
# The pid of the connection process

`conn_pid` is set once. The messages that the process pushed carry it, so responses to
them pass the check in `notifier_handler`.
-/

namespace Verben

variable {p p' : ConnProc} {cli : Nat} {events : List ConnEvent}

theorem closeClient_pid (closed : closeClient p cli = some (p', events)) :
    p'.connPid = p.connPid := by
  obtain ⟨c, _, rest⟩ := Option.bind_eq_some_iff.mp closed
  split at rest
  · cases rest
    rfl
  · cases rest

theorem dispatchFrame_pid {c : ClientConn} {env : ReadEnv}
    (dispatched : dispatchFrame p cli c env = some (p', events)) : p'.connPid = p.connPid := by
  obtain ⟨verdict, _, rest⟩ := Option.bind_eq_some_iff.mp dispatched
  cases verdict with
  | invalid => exact closeClient_pid rest
  | wait =>
      cases rest
      rfl
  | frame data =>
      simp only at rest
      split at rest
      · split at rest
        · obtain ⟨c', _, same⟩ := Option.map_eq_some_iff.mp rest
          cases same
          rfl
        · exact closeClient_pid (p := p.nextIdentifier) rest
      · exact closeClient_pid rest

theorem readFromClient_pid {env : ReadEnv} (read : readFromClient p cli env = some (p', events)) :
    p'.connPid = p.connPid := by
  obtain ⟨old, _, rest⟩ := Option.bind_eq_some_iff.mp read
  simp only at rest
  split at rest
  · cases rest
    rfl
  · exact closeClient_pid (p := p.setClient cli _) rest
  · exact closeClient_pid (p := p.setClient cli _) rest
  · split at rest
    · cases rest
    · obtain ⟨c', _, dispatched⟩ := Option.bind_eq_some_iff.mp rest
      obtain ⟨tail, dispatched, _⟩ := ConnResult.of_after dispatched
      exact dispatchFrame_pid (p := p.setClient cli c') dispatched

theorem finishWrite_pid {c : ClientConn} {n : Nat}
    (finished : finishWrite p cli c n = some (p', events)) : p'.connPid = p.connPid := by
  unfold finishWrite at finished
  split at finished
  · obtain ⟨sendbuf, _, rest⟩ := Option.bind_eq_some_iff.mp finished
    simp only at rest
    split at rest
    · exact closeClient_pid (p := ConnProc.setClient { p with ael := _ } cli _) rest
    · cases rest
      rfl
  · obtain ⟨sendbuf, _, same⟩ := Option.map_eq_some_iff.mp finished
    cases same
    rfl

theorem writeToClient_pid {result : WriteResult}
    (written : writeToClient p cli result = some (p', events)) : p'.connPid = p.connPid := by
  obtain ⟨old, _, rest⟩ := Option.bind_eq_some_iff.mp written
  simp only at rest
  split at rest
  · exact closeClient_pid (p := p.setClient cli _) rest
  · exact finishWrite_pid (p := p.setClient cli _) rest
  · split at rest
    · obtain ⟨bytes, _, finished⟩ := Option.bind_eq_some_iff.mp rest
      obtain ⟨tail, finished, _⟩ := ConnResult.of_after finished
      exact finishWrite_pid (p := p.setClient cli _) finished
    · cases rest

theorem appendSendbuf_pid {data : List UInt8} {addOk : Bool}
    (appended : appendSendbuf p cli data addOk = some (p', events)) : p'.connPid = p.connPid := by
  obtain ⟨c, _, rest⟩ := Option.bind_eq_some_iff.mp appended
  obtain ⟨sendbuf, _, rest⟩ := Option.bind_eq_some_iff.mp rest
  obtain ⟨tail, rest, _⟩ := ConnResult.of_after rest
  split at rest
  · exact closeClient_pid (p := p.setClient cli _) rest
  · cases rest
    rfl

theorem createClient_pid (fd : Nat) (ip : String) (port : Int) (env : CreateEnv) :
    (createClient p fd ip port env).2.connPid = p.connPid := by
  unfold createClient
  split
  · rfl
  · split
    · rfl
    · split <;> rfl

theorem openAnswered_pid {answer : OpenAnswer} {writeOk : Bool}
    (answered : openAnswered p cli answer writeOk = some (p', events)) :
    p'.connPid = p.connPid := by
  unfold openAnswered at answered
  split at answered
  · exact closeClient_pid answered
  · obtain ⟨c, _, rest⟩ := Option.bind_eq_some_iff.mp answered
    obtain ⟨tail, rest, _⟩ := ConnResult.of_after rest
    split at rest
    · cases rest
      rfl
    · exact appendSendbuf_pid (p := p.setCloseConn cli c _) rest

theorem acceptCommonHandler_pid {fd : Nat} {ip : String} {port : Int} {env : AcceptEnv}
    (accepted : acceptCommonHandler p fd ip port env = some (p', events)) :
    p'.connPid = p.connPid := by
  have created := createClient_pid (p := p) fd ip port env.toCreateEnv
  unfold acceptCommonHandler at accepted
  split at accepted
  · next q made =>
      rw [made] at created
      cases accepted
      exact created
  · next new q made =>
      rw [made] at created
      obtain ⟨tail, rest, _⟩ := ConnResult.of_after accepted
      split at rest
      · exact (closeClient_pid rest).trans created
      · split at rest
        · cases rest
          exact created
        · exact (openAnswered_pid rest).trans created

theorem notifierMessage_pid {msg : ShmMsg} {addOk : Bool}
    (handled : notifierMessage p msg addOk = some (p', events)) : p'.connPid = p.connPid := by
  unfold notifierMessage at handled
  split at handled
  · cases handled
  · split at handled
    · cases handled
      rfl
    · split at handled
      · cases handled
        rfl
      · obtain ⟨c, _, rest⟩ := Option.bind_eq_some_iff.mp handled
        split at rest
        · cases rest
        · obtain ⟨closeConn, _, rest⟩ := Option.bind_eq_some_iff.mp rest
          obtain ⟨tail, appended, _⟩ := ConnResult.of_after rest
          exact appendSendbuf_pid (p := p.setCloseConn msg.cli c closeConn) appended

theorem cronLoop_pid {nodes : List Nat} (looped : cronLoop p nodes = some (p', events)) :
    p'.connPid = p.connPid := by
  induction nodes generalizing p events with
  | nil =>
      cases looped
      rfl
  | cons cli rest ih =>
      obtain ⟨c, _, body⟩ := Option.bind_eq_some_iff.mp looped
      split at body
      · obtain ⟨⟨q, said⟩, closed, others⟩ := Option.bind_eq_some_iff.mp body
        obtain ⟨tail, later, _⟩ := ConnResult.of_after others
        exact (ih later).trans (closeClient_pid closed)
      · exact ih body

/-- The process keeps its pid. -/
theorem ConnProc.pid_of_step {act : ConnAct} (stepped : p.step act = some (p', events)) :
    p'.connPid = p.connPid := by
  cases act with
  | accept fd ip port env =>
      simp only [ConnProc.step] at stepped
      split at stepped
      · have kept := acceptCommonHandler_pid stepped
        exact kept
      · cases stepped
  | readable fd env =>
      simp only [ConnProc.step] at stepped
      split at stepped
      · obtain ⟨cli, _, read⟩ := Option.bind_eq_some_iff.mp stepped
        exact readFromClient_pid read
      · cases stepped
  | writable fd result =>
      simp only [ConnProc.step] at stepped
      split at stepped
      · obtain ⟨cli, _, written⟩ := Option.bind_eq_some_iff.mp stepped
        exact writeToClient_pid written
      · cases stepped
  | message msg addOk => exact notifierMessage_pid stepped
  | cron now => exact cronLoop_pid (p := { p with unixClock := now }) stepped

/-! ## The pid of the messages -/

theorem closeClient_not_pushed {msg : ShmMsg} (closed : closeClient p cli = some (p', events)) :
    .pushed msg ∉ events := by
  obtain ⟨c, _, rest⟩ := Option.bind_eq_some_iff.mp closed
  split at rest
  · cases rest
    intro mem
    cases List.mem_singleton.mp mem
  · cases rest

theorem dispatchFrame_pushed {c : ClientConn} {env : ReadEnv} {msg : ShmMsg}
    (dispatched : dispatchFrame p cli c env = some (p', events)) (pushed : .pushed msg ∈ events) :
    msg.pid = p.connPid := by
  obtain ⟨verdict, _, rest⟩ := Option.bind_eq_some_iff.mp dispatched
  cases verdict with
  | invalid => exact absurd pushed (closeClient_not_pushed rest)
  | wait =>
      cases rest
      cases pushed
  | frame data =>
      simp only at rest
      split at rest
      · split at rest
        · obtain ⟨c', _, same⟩ := Option.map_eq_some_iff.mp rest
          cases same
          cases List.mem_singleton.mp pushed
          rfl
        · exact absurd pushed (closeClient_not_pushed rest)
      · exact absurd pushed (closeClient_not_pushed rest)

/-- A message that a read pushes carries the pid of the process. -/
theorem readFromClient_pushed {env : ReadEnv} {msg : ShmMsg}
    (read : readFromClient p cli env = some (p', events)) (pushed : .pushed msg ∈ events) :
    msg.pid = p.connPid := by
  obtain ⟨old, _, rest⟩ := Option.bind_eq_some_iff.mp read
  simp only at rest
  split at rest
  · cases rest
    cases pushed
  · exact absurd pushed (closeClient_not_pushed rest)
  · exact absurd pushed (closeClient_not_pushed rest)
  · split at rest
    · cases rest
    · obtain ⟨c', _, dispatched⟩ := Option.bind_eq_some_iff.mp rest
      obtain ⟨tail, sent, rfl⟩ := ConnResult.of_after dispatched
      rcases List.mem_append.mp pushed with first | behind
      · rcases List.mem_cons.mp first with new | answered
        · cases new
        · unfold answeredEvents at answered
          split at answered
          · cases List.mem_singleton.mp answered
          · cases answered
      · exact dispatchFrame_pushed (p := p.setClient cli c') sent behind

end Verben
