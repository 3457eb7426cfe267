import Verben.Conn.Tables

/-!
# A batch of fired events

`ae_process_events` walks over the fds that the multiplexing layer reports, and looks at
the event table again before each callback. The walk is given with the list of the calls
it makes, each with the state it is made in, so that a call is on record even where the
callback does not return. Every walk is a run of the steps of `ConnProc.step`
(`walks_aeProcessFired`), and every client that is called back for is live
(`conn_tables_agree`).
-/

namespace Verben

open Transition

/-- What the callbacks on one fd depend on: the connection that `accept` gives, unless it
fails; the messages that `shmq_pop` gives behind `notifier_read`; and the answers for a
client. -/
structure FiredEnv : Type where
  accept : Option (Nat × String × Int × AcceptEnv)
  messages : List (ShmMsg × Bool)
  read : ReadEnv
  write : WriteResult

/-- `ae_fired_event`. -/
structure AeFired : Type where
  fd : Nat
  mask : AeMask
  env : FiredEnv

/-- A call of a callback, with the state in which it is made. -/
structure AeCall : Type where
  proc : FileProc
  fd : Nat
  clientData : Nat
  before : ConnProc

/-- A part of the walk: the calls it makes, and what the last of them leaves. -/
abbrev AeWalk : Type := List AeCall × ConnResult

/-- Go on from the state that a part of the walk leaves, if its callbacks return. -/
def AeWalk.next (walk : AeWalk) (rest : ConnProc → AeWalk) : AeWalk :=
  match walk.2 with
  | none => walk
  | some (p, events) => (walk.1 ++ (rest p).1, (rest p).2.after events)

/-- The loop of `notifier_handler`. -/
def notifierHandler (p : ConnProc) : List (ShmMsg × Bool) → ConnResult
  | [] => some (p, [])
  | (msg, addOk) :: rest =>
      (notifierMessage p msg addOk).bind fun done => (notifierHandler done.1 rest).after done.2

/-- `accept_handler`. -/
def acceptHandler (p : ConnProc) : Option (Nat × String × Int × AcceptEnv) → ConnResult
  | none => some (p, [])
  | some (cliFd, ip, port, env) => p.step (.accept cliFd ip port env)

/-- The body of a callback. -/
def fileProc (p : ConnProc) (clientData : Nat) (env : FiredEnv) (proc : FileProc) : ConnResult :=
  match proc with
  | .acceptHandler => acceptHandler p env.accept
  | .notifierHandler => notifierHandler p env.messages
  | .readFromClient => readFromClient p clientData env.read
  | .writeToClient => writeToClient p clientData env.write

/-- Call back with the client data of the entry. -/
def aeCallBack (p : ConnProc) (fd : Nat) (env : FiredEnv) (proc : Option FileProc) : AeWalk :=
  match proc, (p.ael.events fd).clientData with
  | some proc, some clientData => ([⟨proc, fd, clientData, p⟩], fileProc p clientData env proc)
  | _, _ => ([], none)

/-- The test and the call for `AE_READABLE`. -/
def aeFireReadable (p : ConnProc) (f : AeFired) : AeWalk :=
  let fe := p.ael.events f.fd
  if fe.mask.readable ∧ f.mask.readable then
    aeCallBack p f.fd f.env fe.rFileProc
  else
    ([], some (p, []))

/-- The test and the call for `AE_WRITABLE`, with the entry as it is by then. -/
def aeFireWritable (rfired : Bool) (f : AeFired) (p : ConnProc) : AeWalk :=
  let fe := p.ael.events f.fd
  if fe.mask.writable ∧ f.mask.writable then
    if rfired = false ∨ fe.wFileProc ≠ fe.rFileProc then
      aeCallBack p f.fd f.env fe.wFileProc
    else
      ([], some (p, []))
  else
    ([], some (p, []))

/-- One pass of the loop in `ae_process_events`. -/
def aeFire (p : ConnProc) (f : AeFired) : AeWalk :=
  let rfired := (p.ael.events f.fd).mask.readable && f.mask.readable
  (aeFireReadable p f).next (aeFireWritable rfired f)

/-- The loop of `ae_process_events` over the fired fds. -/
def aeProcessFired (p : ConnProc) : List AeFired → AeWalk
  | [] => ([], some (p, []))
  | f :: rest => (aeFire p f).next (aeProcessFired · rest)

/-- A call for a client is made with a client that is open on the fd. -/
def AeCall.Live (call : AeCall) : Prop :=
  call.proc.Own ∨ ∃ c, call.before.heap call.clientData = some c ∧ c.fd = call.fd

section Walks

variable {r : ConnRun} {walk : AeWalk} {fd : Nat} {env : FiredEnv}

/-- The process is in a state that a run from `r` reaches. -/
def ConnRun.Reaches (r : ConnRun) (p : ConnProc) : Prop :=
  ∃ r', Reach ConnRun.step always r r' ∧ r'.proc = p

/-- The calls of the walk are live, and made in states of a run, which the walk goes on. -/
structure Walks (r : ConnRun) (walk : AeWalk) : Prop where
  calls : ∀ call ∈ walk.1, call.Live ∧ r.Reaches call.before
  result : ∀ {p events}, walk.2 = some (p, events) → r.Reaches p

theorem ConnRun.Reaches.step {p p' : ConnProc} (here : r.Reaches p) {act : ConnAct}
    {events : List ConnEvent} (stepped : p.step act = some (p', events)) : r.Reaches p' := by
  obtain ⟨s, reach, rfl⟩ := here
  refine ⟨⟨p', events.foldl recordEvent s.hist⟩, reach.tail ⟨act, trivial, ?_⟩, rfl⟩
  unfold ConnRun.step
  rw [stepped]
  rfl

theorem Walks.stay {p : ConnProc} (here : r.Reaches p) : Walks r ([], some (p, [])) := by
  refine ⟨by simp, ?_⟩
  intro p' events same
  cases same
  exact here

theorem Walks.next {rest : ConnProc → AeWalk} (walks : Walks r walk)
    (more : ∀ {p}, r.Reaches p → Walks r (rest p)) : Walks r (walk.next rest) := by
  unfold AeWalk.next
  split
  · exact walks
  · next p events left =>
      have later := more (walks.result left)
      constructor
      · intro call mem
        rcases List.mem_append.mp mem with mem | mem
        · exact walks.calls call mem
        · exact later.calls call mem
      · intro p' all returned
        obtain ⟨tail, found, _⟩ := ConnResult.of_after returned
        exact later.result found

/-! ## Each callback is a run of steps -/

theorem reaches_notifierHandler {p p' : ConnProc} {messages : List (ShmMsg × Bool)}
    {events : List ConnEvent} (here : r.Reaches p)
    (handled : notifierHandler p messages = some (p', events)) : r.Reaches p' := by
  induction messages generalizing p events with
  | nil =>
      cases handled
      exact here
  | cons message rest ih =>
      obtain ⟨done, first, others⟩ := Option.bind_eq_some_iff.mp handled
      obtain ⟨tail, later, _⟩ := ConnResult.of_after others
      have stepped : p.step (.message message.1 message.2) = some (done.1, done.2) := first
      exact ih (here.step stepped) later

theorem walks_own {p : ConnProc} (here : r.Reaches p) {proc : FileProc} (own : proc.Own)
    (reader : (p.ael.events fd).clientData = some 0) :
    Walks r (aeCallBack p fd env (some proc)) := by
  unfold aeCallBack
  rw [reader]
  constructor
  · intro call mem
    rw [List.mem_singleton.mp mem]
    exact ⟨Or.inl own, here⟩
  · intro p' events ran
    cases proc with
    | acceptHandler =>
        change acceptHandler p env.accept = some (p', events) at ran
        unfold acceptHandler at ran
        split at ran
        · cases ran
          exact here
        · exact here.step ran
    | notifierHandler => exact reaches_notifierHandler here ran
    | readFromClient => exact absurd own id
    | writeToClient => exact absurd own id

theorem walks_read {p : ConnProc} (wf : p.Wf) (here : r.Reaches p)
    (set : (p.ael.events fd).mask.readable = true)
    (reader : (p.ael.events fd).rFileProc = some .readFromClient) :
    Walks r (aeCallBack p fd env (some .readFromClient)) := by
  obtain ⟨cli, c, data, live, rfl⟩ := wf.entry (Or.inl ⟨set, reader⟩)
  unfold aeCallBack
  rw [data]
  constructor
  · intro call mem
    rw [List.mem_singleton.mp mem]
    exact ⟨Or.inr ⟨c, live, rfl⟩, here⟩
  · intro p' events read
    exact here.step ((wf.step_readable live env.read).trans read)

theorem walks_write {p : ConnProc} (wf : p.Wf) (here : r.Reaches p)
    (set : (p.ael.events fd).mask.writable = true) :
    Walks r (aeCallBack p fd env (some .writeToClient)) := by
  obtain ⟨cli, c, data, live, rfl⟩ := wf.entry (Or.inr set)
  unfold aeCallBack
  rw [data]
  constructor
  · intro call mem
    rw [List.mem_singleton.mp mem]
    exact ⟨Or.inr ⟨c, live, rfl⟩, here⟩
  · intro p' events written
    have stepped : p.step (.writable c.fd env.write) = writeToClient p cli env.write := by
      simp only [ConnProc.step, set, wf.writer set, data, and_self, if_true, Option.bind_some]
    exact here.step (stepped.trans written)

/-! ## The walk -/

theorem walks_aeFire {p : ConnProc} {boot : ConnBoot}
    (start : Reach ConnRun.step always (ConnRun.init boot) r) (here : r.Reaches p) (f : AeFired) :
    Walks r (aeFire p f) := by
  have tables : ∀ {q}, r.Reaches q → q.Wf ∧ q.Reads := by
    intro q reached
    obtain ⟨s, reach, rfl⟩ := reached
    have tables := ConnRun.tables_of_reach (start.trans reach)
    exact ⟨tables.wf, tables.reads⟩
  unfold aeFire
  apply Walks.next
  · obtain ⟨wf, reads⟩ := tables here
    unfold aeFireReadable
    simp only
    split
    · next fired =>
        rcases reads f.fd fired.1 with reader | ⟨proc, reader, own, null⟩
        · rw [reader]
          exact walks_read wf here fired.1 reader
        · rw [reader]
          exact walks_own here own null
    · exact .stay here
  · intro q reached
    obtain ⟨wf, _⟩ := tables reached
    unfold aeFireWritable
    simp only
    split
    · next fired =>
        rw [wf.writer fired.1]
        split
        · exact walks_write wf reached fired.1
        · exact .stay reached
    · exact .stay reached

/-- The walk over a batch is a run. -/
theorem walks_aeProcessFired {p : ConnProc} {boot : ConnBoot}
    (start : Reach ConnRun.step always (ConnRun.init boot) r) (here : r.Reaches p)
    (batch : List AeFired) : Walks r (aeProcessFired p batch) := by
  induction batch generalizing p with
  | nil => exact .stay here
  | cons f rest ih => exact (walks_aeFire start here f).next ih

end Walks

/-- **The tables agree, and batches call back for live clients only.** In every state that
a run of the process reaches, the list, `conn_vec` and the read events describe the same
clients. A walk over any batch of fired fds makes each of its calls in such a state, and
every call for a client finds the client open on the fd. -/
theorem conn_tables_agree {boot : ConnBoot} {r : ConnRun}
    (reach : Reach ConnRun.step always (ConnRun.init boot) r) :
    r.proc.Agree ∧ ∀ batch : List AeFired, ∀ call ∈ (aeProcessFired r.proc batch).1,
      call.Live ∧ call.before.Agree := by
  refine ⟨ConnRun.agree_of_reach reach, ?_⟩
  intro batch call mem
  obtain ⟨live, s, later, same⟩ :=
    (walks_aeProcessFired reach ⟨r, .refl, rfl⟩ batch).calls call mem
  exact ⟨live, same ▸ ConnRun.agree_of_reach (reach.trans later)⟩

/-- The first connection of the default process. -/
theorem conn_tables_agree_first :
    firstConn.proc.Agree ∧ ∀ batch : List AeFired, ∀ call ∈ (aeProcessFired firstConn.proc batch).1,
      call.Live ∧ call.before.Agree :=
  conn_tables_agree reach_firstConn

end Verben
