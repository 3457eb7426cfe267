import Verben.Conn.Batch
import Verben.Conn.Events
import Verben.Conn.Own

/-!
# What a turn of the event loop delivers

Callbacks are called for live connections only, so the events of a connection that an earlier
callback of the same turn has closed are dropped. No others are: what the kernel reports reaches
its callback in the same turn, once, in the order of the report (`conn_turn_serves`).
-/

namespace Verben

open Transition

/-- The event that a call is for: the descriptor, and whether it is for writing. -/
def AeCall.event (call : AeCall) : Nat × Bool := (call.fd, decide (call.proc = .writeToClient))

/-- The event, if the entry reports it. -/
def AeFired.reported (f : AeFired) (write : Bool) : List (Nat × Bool) :=
  if (if write then f.mask.writable else f.mask.readable) then [(f.fd, write)] else []

def AeFired.events (f : AeFired) : List (Nat × Bool) := f.reported false ++ f.reported true

/-- The states that a walk goes through: before each call, and behind the last. -/
def AeWalk.states (walk : AeWalk) : List ConnProc :=
  walk.1.map AeCall.before ++ (walk.2.map Prod.fst).toList

/-- The callback is registered, with this client data. -/
def ConnProc.Registered (p : ConnProc) (fd : Nat) (proc : FileProc) (clientData : Nat) : Prop :=
  (p.ael.events fd).clientData = some clientData ∧
    if proc = .writeToClient then
      (p.ael.events fd).mask.writable = true ∧ (p.ael.events fd).wFileProc = some proc
    else
      (p.ael.events fd).mask.readable = true ∧ (p.ael.events fd).rFileProc = some proc

/-- The steps that a callback is. -/
def fileActs (fd : Nat) (env : FiredEnv) : FileProc → List ConnAct
  | .acceptHandler =>
      (env.accept.map fun got => .accept got.1 got.2.1 got.2.2.1 got.2.2.2).toList
  | .notifierHandler => env.messages.map fun got => .message got.1 got.2
  | .readFromClient => [.readable fd env.read]
  | .writeToClient => [.writable fd env.write]

variable {p q : ConnProc} {boot : ConnBoot} {walk : AeWalk} {rest : ConnProc → AeWalk}
  {f : AeFired} {batch pre post : List AeFired} {env : FiredEnv} {proc : FileProc}
  {fd cli data : Nat} {c c' : ClientConn} {events : List ConnEvent} {es es' : List (Nat × Bool)}

/-! ## Walks one behind the other -/

theorem AeWalk.next_of_some (left : walk.2 = some (q, events)) :
    walk.next rest = (walk.1 ++ (rest q).1, (rest q).2.after events) := by
  unfold AeWalk.next
  rw [left]

theorem AeWalk.next_of_none (stuck : walk.2 = none) : walk.next rest = walk := by
  unfold AeWalk.next
  rw [stuck]

theorem AeWalk.states_next (left : walk.2 = some (q, events)) :
    (walk.next rest).states = walk.1.map AeCall.before ++ (rest q).states := by
  have same : ((rest q).2.after events).map Prod.fst = (rest q).2.map Prod.fst :=
    Option.map_map ..
  rw [next_of_some left, AeWalk.states, AeWalk.states, List.map_append, List.append_assoc, same]

theorem AeWalk.mem_next {call : AeCall} (mem : call ∈ walk.1) : call ∈ (walk.next rest).1 := by
  cases left : walk.2 with
  | none => rwa [next_of_none left]
  | some result =>
      rw [next_of_some left]
      exact List.mem_append_left _ mem

theorem AeWalk.mem_next_of_rest {call : AeCall} (left : walk.2 = some (q, events))
    (mem : call ∈ (rest q).1) : call ∈ (walk.next rest).1 := by
  rw [next_of_some left]
  exact List.mem_append_right _ mem

theorem AeWalk.next_next {rest' : ConnProc → AeWalk} :
    (walk.next rest).next rest' = walk.next fun q => (rest q).next rest' := by
  cases left : walk.2 with
  | none => rw [next_of_none left, next_of_none left, next_of_none left]
  | some result =>
      obtain ⟨q, events⟩ := result
      rw [next_of_some left, next_of_some left]
      cases later : (rest q).2 with
      | none =>
          rw [next_of_none later, later, next_of_none rfl]
      | some result' =>
          obtain ⟨q', events'⟩ := result'
          have done : (walk.1 ++ (rest q).1, ConnResult.after events (some (q', events'))).2 =
              some (q', events ++ events') := rfl
          rw [next_of_some later, next_of_some done, List.append_assoc]
          unfold ConnResult.after
          rw [Option.map_map]
          exact congrArg _ (congrArg (Option.map · _)
            (funext fun last => Prod.ext rfl (List.append_assoc ..)))

theorem aeProcessFired_append :
    aeProcessFired p (pre ++ post) = (aeProcessFired p pre).next (aeProcessFired · post) := by
  induction pre generalizing p with
  | nil =>
      rw [aeProcessFired, AeWalk.next_of_some rfl]
      simp [ConnResult.after]
  | cons f pre ih =>
      rw [List.cons_append, aeProcessFired, aeProcessFired, AeWalk.next_next]
      exact congrArg _ (funext fun q => ih)

/-! ## Callbacks and steps -/

theorem run_single (p : ConnProc) (act : ConnAct) : run ConnProc.moved p [act] = p.moved act := by
  unfold run
  exact Option.bind_fun_some _

theorem run_messages {messages : List (ShmMsg × Bool)}
    (handled : notifierHandler p messages = some (q, events)) :
    run ConnProc.moved p (messages.map fun got => .message got.1 got.2) = some q := by
  induction messages generalizing p events with
  | nil =>
      cases handled
      rfl
  | cons got messages ih =>
      obtain ⟨done, first, others⟩ := Option.bind_eq_some_iff.mp handled
      obtain ⟨tail, later, -⟩ := ConnResult.of_after others
      exact run_cons (congrArg (Option.map Prod.fst) first) (ih later)

/-- A callback that is called for what it is registered for is the steps of the process. -/
theorem ConnProc.Registered.run_fileProc (registered : p.Registered fd proc data)
    (called : fileProc p data env proc = some (q, events)) :
    run ConnProc.moved p (fileActs fd env proc) = some q := by
  obtain ⟨client, set⟩ := registered
  cases proc with
  | acceptHandler =>
      change acceptHandler p env.accept = _ at called
      unfold fileActs
      unfold acceptHandler at called
      split at called
      · next none =>
          cases called
          rw [none]
          rfl
      · next got =>
          rw [got, Option.map_some, Option.toList_some, run_single]
          exact congrArg (Option.map Prod.fst) called
  | notifierHandler => exact run_messages called
  | readFromClient =>
      rw [if_neg (by simp)] at set
      rw [fileActs, run_single, ConnProc.moved, ConnProc.step, if_pos set, client]
      exact congrArg (Option.map Prod.fst) called
  | writeToClient =>
      rw [if_pos rfl] at set
      rw [fileActs, run_single, ConnProc.moved, ConnProc.step, if_pos set, client]
      exact congrArg (Option.map Prod.fst) called

/-! ## What stays registered -/

/-- A connection that outlives a step keeps its descriptor, and waits on unless it is written. -/
theorem ConnProc.Wf.stays_step {act : ConnAct} (wf : p.Wf) (moved : p.moved act = some q)
    (live : p.heap cli = some c) (live' : q.heap cli = some c') :
    c'.fd = c.fd ∧ ((p.ael.events c.fd).mask.writable = true →
      (∀ result, act ≠ .writable c.fd result) → (q.ael.events c.fd).mask.writable = true) := by
  obtain ⟨⟨q', events⟩, stepped, rfl⟩ := Option.map_eq_some_iff.mp moved
  cases (ConnProc.step_cases wf stepped).2 cli c' live' with
  | same there entry quiet =>
      cases live.symm.trans there
      exact ⟨rfl, fun writable _ => entry ▸ writable⟩
  | opened absent about opened =>
      rw [absent] at live
      cases live
  | changed there about effect =>
      cases live.symm.trans there
      have fd := effect.fd
      refine ⟨fd, fun writable other => ?_⟩
      rw [fd] at effect
      revert effect
      generalize q'.ael.events c.fd = fe'
      intro effect
      cases effect with
      | again => exact writable
      | wait => exact writable
      | frame => exact writable
      | drained => exact absurd rfl (other _)
      | shifted => exact writable
      | responded pid vec fd target flag cat set => exact set

/-- Messages open no connection. -/
theorem ConnProc.Wf.live_before (wf : p.Wf) {messages : List (ShmMsg × Bool)}
    (ran : run ConnProc.moved p (messages.map fun got => .message got.1 got.2) = some q)
    (live' : q.heap cli = some c') : ∃ c, p.heap cli = some c := by
  induction messages generalizing p with
  | nil =>
      cases ran
      exact ⟨c', live'⟩
  | cons got rest ih =>
      obtain ⟨p', moved, rest⟩ := Option.bind_eq_some_iff.mp ran
      obtain ⟨⟨p', events⟩, stepped, rfl⟩ := Option.map_eq_some_iff.mp moved
      obtain ⟨c₁, live₁⟩ := ih (ConnProc.step_cases wf stepped).1 rest
      rcases ConnProc.fd_of_step wf stepped live₁ with ⟨c, live, _⟩ | ⟨_, _, _, accept, _⟩
      · exact ⟨c, live⟩
      · cases accept

theorem ConnProc.Wf.stays_messages (wf : p.Wf) {messages : List (ShmMsg × Bool)}
    (ran : run ConnProc.moved p (messages.map fun got => .message got.1 got.2) = some q)
    (live : p.heap cli = some c) (live' : q.heap cli = some c') :
    c'.fd = c.fd ∧ ((p.ael.events c.fd).mask.writable = true →
      (q.ael.events c.fd).mask.writable = true) := by
  induction messages generalizing p c with
  | nil =>
      cases ran
      cases live.symm.trans live'
      exact ⟨rfl, id⟩
  | cons got rest ih =>
      obtain ⟨p', moved, rest⟩ := Option.bind_eq_some_iff.mp ran
      obtain ⟨⟨p', events⟩, stepped, rfl⟩ := Option.map_eq_some_iff.mp moved
      have wf' := (ConnProc.step_cases wf stepped).1
      obtain ⟨c₁, live₁⟩ := wf'.live_before rest live'
      obtain ⟨fd, first⟩ := wf.stays_step moved live live₁
      obtain ⟨fd', second⟩ := ih wf' rest live₁
      rw [fd] at second
      exact ⟨fd'.trans fd, fun writable => second (first writable fun _ => by simp)⟩

/-- A connection that outlives a call keeps its descriptor, and waits on unless the call is the one
that it waits for. -/
theorem ConnProc.Wf.stays_call (wf : p.Wf) (registered : p.Registered fd proc data)
    (called : fileProc p data env proc = some (q, events)) (live : p.heap cli = some c)
    (live' : q.heap cli = some c') :
    c'.fd = c.fd ∧ ((p.ael.events c.fd).mask.writable = true →
      (q.ael.events c.fd).mask.writable = true ∨
        proc = .writeToClient ∧ fd = c.fd ∧ data = cli) := by
  have ran := registered.run_fileProc called
  cases proc with
  | acceptHandler =>
      unfold fileActs at ran
      cases got : env.accept with
      | none =>
          rw [got] at ran
          cases ran
          cases live.symm.trans live'
          exact ⟨rfl, .inl⟩
      | some got' =>
          rw [got, Option.map_some, Option.toList_some, run_single] at ran
          obtain ⟨fd, waits⟩ := wf.stays_step ran live live'
          exact ⟨fd, fun writable => .inl (waits writable fun _ => by simp)⟩
  | notifierHandler =>
      obtain ⟨fd, waits⟩ := wf.stays_messages ran live live'
      exact ⟨fd, .inl ∘ waits⟩
  | readFromClient =>
      rw [fileActs, run_single] at ran
      obtain ⟨fd, waits⟩ := wf.stays_step ran live live'
      exact ⟨fd, fun writable => .inl (waits writable fun _ => by simp)⟩
  | writeToClient =>
      rw [fileActs, run_single] at ran
      obtain ⟨fd', waits⟩ := wf.stays_step ran live live'
      refine ⟨fd', fun writable => ?_⟩
      by_cases same : fd = c.fd
      · subst same
        have client := registered.1.symm.trans (wf.live live).data
        exact .inr ⟨rfl, rfl, Option.some.inj client⟩
      · exact .inl (waits writable fun result eq => same (ConnAct.writable.inj eq).1)

/-! ## Walks -/

/-- A walk calls for events of the list, each at most once and in order. A live connection is
closed on the way, or it is there behind the walk, on the same descriptor, and what it is to be
written is still waited for or was called for. -/
structure ConnProc.Serves (boot : ConnBoot) (p : ConnProc) (es : List (Nat × Bool))
    (walk : AeWalk) : Prop where
  once : (walk.1.map AeCall.event).Sublist es
  start : p ∈ walk.states
  hears : ∀ {q events}, walk.2 = some (q, events) → q.Hears boot
  keeps : ∀ {cli c}, p.heap cli = some c → (∃ q ∈ walk.states, q.heap cli = none) ∨
    ∀ {q events}, walk.2 = some (q, events) → ∃ c', q.heap cli = some c' ∧ c'.fd = c.fd ∧
      ((p.ael.events c.fd).mask.writable = true → (q.ael.events c.fd).mask.writable = true ∨
        ∃ call ∈ walk.1, call.event = (c.fd, true) ∧ call.clientData = cli)

theorem ConnProc.Hears.serves_nothing (hears : p.Hears boot) (es : List (Nat × Bool)) :
    p.Serves boot es ([], some (p, [])) where
  once := List.nil_sublist es
  start := List.mem_singleton_self p
  hears := by
    rintro q events ⟨⟩
    exact hears
  keeps := by
    refine fun {cli c} live => .inr ?_
    rintro q events ⟨⟩
    exact ⟨c, live, rfl, .inl⟩

theorem ConnProc.Hears.serves_call (hears : p.Hears boot) (registered : p.Registered fd proc data)
    (event : AeCall.event ⟨proc, fd, data, p⟩ ∈ es) :
    p.Serves boot es ([⟨proc, fd, data, p⟩], fileProc p data env proc) where
  once := List.singleton_sublist.mpr event
  start := List.mem_cons_self
  hears called := hears.of_run (registered.run_fileProc called)
  keeps {cli c} live := by
    cases called : fileProc p data env proc with
    | none => exact .inr (by rintro q events ⟨⟩)
    | some result =>
        obtain ⟨q, events⟩ := result
        cases live' : q.heap cli with
        | none =>
            refine .inl ⟨q, ?_, live'⟩
            rw [AeWalk.states, Option.map_some]
            exact List.mem_append_right _ List.mem_cons_self
        | some c' =>
            refine .inr ?_
            rintro _ _ ⟨⟩
            obtain ⟨fd, waits⟩ := hears.tables.wf.stays_call registered called live live'
            refine ⟨c', live', fd, fun writable => (waits writable).imp_right ?_⟩
            rintro ⟨rfl, rfl, rfl⟩
            exact ⟨_, List.mem_singleton_self _, rfl, rfl⟩

theorem ConnProc.Serves.next (serves : p.Serves boot es walk)
    (later : ∀ {q : ConnProc}, q.Hears boot → q.Serves boot es' (rest q)) :
    p.Serves boot (es ++ es') (walk.next rest) := by
  cases left : walk.2 with
  | none =>
      rw [AeWalk.next_of_none left]
      exact ⟨serves.once.trans (List.sublist_append_left ..), serves.start, serves.hears,
        serves.keeps⟩
  | some result =>
      obtain ⟨q, events⟩ := result
      have more := later (serves.hears left)
      -- the state behind the walk is the first one of the rest
      have states : ∀ s ∈ walk.states, s ∈ (walk.next rest).states := by
        intro s mem
        rw [AeWalk.states_next left]
        rw [AeWalk.states, left] at mem
        rcases List.mem_append.mp mem with mem | mem
        · exact List.mem_append_left _ mem
        · rw [List.mem_singleton.mp mem]
          exact List.mem_append_right _ more.start
      have done : ∀ {q' events'}, (walk.next rest).2 = some (q', events') →
          ∃ tail, (rest q).2 = some (q', tail) := by
        intro q' events' returned
        rw [AeWalk.next_of_some left] at returned
        obtain ⟨tail, found, -⟩ := ConnResult.of_after returned
        exact ⟨tail, found⟩
      refine ⟨?_, states _ serves.start, ?_, ?_⟩
      · rw [AeWalk.next_of_some left, List.map_append]
        exact serves.once.append more.once
      · intro q' events' returned
        obtain ⟨tail, found⟩ := done returned
        exact more.hears found
      · intro cli c live
        rcases serves.keeps live with ⟨s, mem, gone⟩ | kept
        · exact .inl ⟨s, states s mem, gone⟩
        · obtain ⟨c₁, live₁, fd₁, waits₁⟩ := kept left
          rcases more.keeps live₁ with ⟨s, mem, gone⟩ | kept'
          · refine .inl ⟨s, ?_, gone⟩
            rw [AeWalk.states_next left]
            exact List.mem_append_right _ mem
          · refine .inr fun returned => ?_
            obtain ⟨tail, found⟩ := done returned
            obtain ⟨c', live', fd', waits'⟩ := kept' found
            rw [fd₁] at fd' waits'
            refine ⟨c', live', fd', fun writable => ?_⟩
            rcases waits₁ writable with writable | ⟨call, mem, there⟩
            · rcases waits' writable with waits | ⟨call, mem, there⟩
              · exact .inl waits
              · exact .inr ⟨call, AeWalk.mem_next_of_rest left mem, there⟩
            · exact .inr ⟨call, AeWalk.mem_next mem, there⟩

/-! ## The loop -/

theorem mem_reported {write : Bool}
    (set : (if write then f.mask.writable else f.mask.readable) = true) :
    (f.fd, write) ∈ f.reported write := by
  unfold AeFired.reported
  rw [if_pos set]
  exact List.mem_singleton_self _

/-- The callback of an entry that is registered for reading. -/
theorem ConnProc.Hears.reader (hears : p.Hears boot)
    (set : (p.ael.events fd).mask.readable = true) :
    ∃ proc data, proc ≠ .writeToClient ∧ (p.ael.events fd).rFileProc = some proc ∧
      p.Registered fd proc data := by
  obtain ⟨wf, reads, -⟩ := hears.tables
  rcases reads fd set with reader | ⟨proc, reader, own, null⟩
  · obtain ⟨cli, c, client, live, -⟩ := wf.entry (.inl ⟨set, reader⟩)
    exact ⟨.readFromClient, cli, by simp, reader, client, set, reader⟩
  · have ne : proc ≠ .writeToClient := by
      rintro rfl
      exact own
    refine ⟨proc, 0, ne, reader, null, ?_⟩
    rw [if_neg ne]
    exact ⟨set, reader⟩

theorem aeCallBack_of (registered : (p.ael.events fd).clientData = some data) :
    aeCallBack p fd env (some proc) = ([⟨proc, fd, data, p⟩], fileProc p data env proc) := by
  unfold aeCallBack
  rw [registered]

theorem ConnProc.Hears.serves_readable (hears : p.Hears boot) (f : AeFired) :
    p.Serves boot (f.reported false) (aeFireReadable p f) := by
  unfold aeFireReadable
  simp only
  split
  · next fired =>
      obtain ⟨proc, data, ne, reader, registered⟩ := hears.reader fired.1
      rw [reader, aeCallBack_of registered.1]
      refine hears.serves_call registered ?_
      have event : AeCall.event ⟨proc, f.fd, data, p⟩ = (f.fd, false) :=
        congrArg _ (decide_eq_false ne)
      rw [event]
      exact mem_reported fired.2
  · exact hears.serves_nothing _

theorem ConnProc.Hears.serves_writable (hears : p.Hears boot) (rfired : Bool) (f : AeFired) :
    p.Serves boot (f.reported true) (aeFireWritable rfired f p) := by
  have wf := hears.tables.wf
  unfold aeFireWritable
  simp only
  split
  · next fired =>
      obtain ⟨cli, c, client, live, -⟩ := wf.entry (.inr fired.1)
      rw [wf.writer fired.1, aeCallBack_of client]
      split
      · exact hears.serves_call ⟨client, fired.1, wf.writer fired.1⟩ (mem_reported fired.2)
      · exact hears.serves_nothing _
  · exact hears.serves_nothing _

theorem ConnProc.Hears.serves_fire (hears : p.Hears boot) (f : AeFired) :
    p.Serves boot f.events (aeFire p f) :=
  (hears.serves_readable f).next fun hears => hears.serves_writable _ f

theorem ConnProc.Hears.serves_fired (hears : p.Hears boot) (batch : List AeFired) :
    p.Serves boot (batch.flatMap AeFired.events) (aeProcessFired p batch) := by
  induction batch generalizing p with
  | nil => exact hears.serves_nothing _
  | cons f rest ih =>
      rw [List.flatMap_cons]
      exact (hears.serves_fire f).next ih

/-- An entry that the loop comes to is tried. -/
theorem mem_aeProcessFired {call : AeCall} (left : (aeProcessFired p pre).2 = some (q, events))
    (mem : call ∈ (aeFire q f).1) : call ∈ (aeProcessFired p (pre ++ f :: post)).1 := by
  rw [aeProcessFired_append]
  refine AeWalk.mem_next_of_rest left ?_
  rw [aeProcessFired]
  exact AeWalk.mem_next mem

theorem aeFireReadable_of (registered : p.Registered f.fd proc data) (ne : proc ≠ .writeToClient)
    (reported : f.mask.readable = true) : ⟨proc, f.fd, data, p⟩ ∈ (aeFireReadable p f).1 := by
  obtain ⟨client, set⟩ := registered
  rw [if_neg ne] at set
  unfold aeFireReadable
  simp only
  rw [if_pos ⟨set.1, reported⟩, set.2, aeCallBack_of client]
  exact List.mem_singleton_self _

theorem aeFireWritable_of (wf : p.Wf) (live : p.heap cli = some c) (fd : f.fd = c.fd)
    (writable : (p.ael.events c.fd).mask.writable = true) (reported : f.mask.writable = true)
    (rfired : Bool) : ⟨.writeToClient, c.fd, cli, p⟩ ∈ (aeFireWritable rfired f p).1 := by
  have l := wf.live live
  unfold aeFireWritable
  simp only
  rw [fd, if_pos ⟨writable, reported⟩, wf.writer writable, l.reader, if_pos (.inr (by simp)),
    aeCallBack_of l.data]
  exact List.mem_singleton_self _

/-- What the loop makes of the events it gets. Each of them leads to one call at most, and they
are called for in order. When the loop comes to an entry, and the entry is about the listening
socket or the notifier, their callback is called. For what a connection is to read, and for what
it was to be written when the loop began, its callback is called, unless a call before has closed
the connection. -/
structure ConnProc.Turns (boot : ConnBoot) (p : ConnProc) (batch : List AeFired) : Prop where
  once : ((aeProcessFired p batch).1.map AeCall.event).Sublist (batch.flatMap AeFired.events)
  accepts : ∀ pre f post, batch = pre ++ f :: post → f.mask.readable = true →
    f.fd = boot.listenFd → ∀ q events, (aeProcessFired p pre).2 = some (q, events) →
      ⟨.acceptHandler, f.fd, 0, q⟩ ∈ (aeProcessFired p batch).1
  hears : ∀ pre f post, batch = pre ++ f :: post → f.mask.readable = true →
    f.fd = boot.notifierFd → ∀ q events, (aeProcessFired p pre).2 = some (q, events) →
      ⟨.notifierHandler, f.fd, 0, q⟩ ∈ (aeProcessFired p batch).1
  reads : ∀ pre f post, batch = pre ++ f :: post → f.mask.readable = true →
    ∀ cli c, p.heap cli = some c → f.fd = c.fd →
    ∀ q events, (aeProcessFired p pre).2 = some (q, events) →
      ⟨.readFromClient, c.fd, cli, q⟩ ∈ (aeProcessFired p batch).1 ∨
        ∃ s ∈ (aeProcessFired p pre).states, s.heap cli = none
  writes : ∀ pre f post, batch = pre ++ f :: post → f.mask.writable = true →
    ∀ cli c, p.heap cli = some c → f.fd = c.fd → (p.ael.events c.fd).mask.writable = true →
    ∀ s events, (aeProcessFired p pre).2 = some (s, events) →
    ∀ q events, (aeFireReadable s f).2 = some (q, events) →
      (∃ call ∈ (aeProcessFired p batch).1, call.event = (c.fd, true) ∧ call.clientData = cli) ∨
        ∃ t ∈ (aeProcessFired p pre).states ++ (aeFireReadable s f).states, t.heap cli = none

theorem ConnProc.Hears.own_called {f : AeFired} (hears : p.Hears boot)
    (own : ∀ {q : ConnProc}, q.Hears boot → q.ael.events f.fd = bootEvent proc)
    (ne : proc ≠ .writeToClient) (reported : f.mask.readable = true)
    (left : (aeProcessFired p pre).2 = some (q, events)) :
    ⟨proc, f.fd, 0, q⟩ ∈ (aeProcessFired p (pre ++ f :: post)).1 := by
  have entry := own ((hears.serves_fired pre).hears left)
  have registered : q.Registered f.fd proc 0 := by
    unfold ConnProc.Registered
    rw [entry, if_neg ne]
    exact ⟨rfl, rfl, rfl⟩
  exact mem_aeProcessFired left (AeWalk.mem_next (aeFireReadable_of registered ne reported))

/-- In every state that the connection process reaches, whatever the kernel reports. -/
theorem conn_turn_serves {boot : ConnBoot} (apart : boot.notifierFd ≠ boot.listenFd) {r : ConnRun}
    (reach : Reach ConnRun.step always (ConnRun.init boot) r) (batch : List AeFired) :
    r.proc.Turns boot batch := by
  have hears := ConnRun.hears_of_reach reach
  refine ⟨(hears.serves_fired batch).once, ?_, ?_, ?_, ?_⟩
  · rintro pre f post rfl reported listen q events left
    exact hears.own_called (fun hears => listen ▸ hears.listen) (by simp) reported left
  · rintro pre f post rfl reported notifier q events left
    exact hears.own_called (fun hears => notifier ▸ hears.notifier apart) (by simp) reported left
  · rintro pre f post rfl reported cli c live fd q events left
    have serves := hears.serves_fired pre
    refine (serves.keeps live).symm.imp_left fun kept => ?_
    obtain ⟨c', live', same, -⟩ := kept left
    have l := (serves.hears left).tables.wf.live live'
    have registered : q.Registered c'.fd .readFromClient cli := ⟨l.data, l.readable, l.reader⟩
    rw [same, ← fd] at registered
    rw [← fd]
    exact mem_aeProcessFired left
      (AeWalk.mem_next (aeFireReadable_of registered (by simp) reported))
  · rintro pre f post rfl reported cli c live fd writable s events left q events' read
    have first := hears.serves_fired pre
    have second := (first.hears left).serves_readable f
    rcases first.keeps live with ⟨t, mem, gone⟩ | kept
    · exact .inr ⟨t, List.mem_append_left _ mem, gone⟩
    obtain ⟨c₁, live₁, fd₁, waits₁⟩ := kept left
    rcases second.keeps live₁ with ⟨t, mem, gone⟩ | kept'
    · exact .inr ⟨t, List.mem_append_right _ mem, gone⟩
    obtain ⟨c₂, live₂, fd₂, waits₂⟩ := kept' read
    rw [fd₁] at fd₂ waits₂
    refine .inl ?_
    rcases waits₁ writable with writable | ⟨call, mem, there⟩
    · rcases waits₂ writable with writable | ⟨call, mem, there⟩
      · rw [← fd₂] at fd writable ⊢
        refine ⟨_, mem_aeProcessFired left (AeWalk.mem_next_of_rest read
          (aeFireWritable_of (second.hears read).tables.wf live₂ fd writable reported _)), ?_⟩
        exact ⟨rfl, rfl⟩
      · exact ⟨call, mem_aeProcessFired left (AeWalk.mem_next mem), there⟩
    · rw [aeProcessFired_append]
      exact ⟨call, AeWalk.mem_next mem, there⟩

/-- A callback that finds nothing, and one that finds the end of the stream. -/
def idleEnv : FiredEnv := ⟨none, [], ⟨.again, fun _ => 0, true, true⟩, .again⟩
def eofEnv : FiredEnv := { idleEnv with read := ⟨.data [], fun _ => 0, true, true⟩ }

/-- Both sockets of the process are ready, and a connection is that its client has closed. -/
def eofTurn : List AeFired :=
  [⟨3, aeReadable, idleEnv⟩, ⟨7, ⟨true, true⟩, eofEnv⟩, ⟨4, aeReadable, idleEnv⟩]

theorem conn_turn_serves_eof : firstConn.proc.Turns defaultBoot eofTurn :=
  conn_turn_serves (by decide) reach_firstConn eofTurn

end Verben
