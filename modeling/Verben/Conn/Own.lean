import Verben.Conn.Watched

/-!
# The process's own descriptors

Whatever the connection process does, it calls the event loop for descriptors of connections only.
So the listening socket and the notifier stay registered as they were at the start (`Hears`).
-/

namespace Verben

open Transition

def AeFdCall.fd {P D : Type} : AeFdCall P D → Nat
  | .opened fd => fd
  | .closed fd => fd
  | .create fd _ _ _ _ => fd
  | .delete fd _ => fd

variable {p p' : ConnProc} {cli fd : Nat} {c : ClientConn} {calls calls' : List ConnCall}
  {events : List ConnEvent} {boot : ConnBoot}

/-! ## The descriptors that are asked for -/

/-- The calls are about one descriptor. -/
def On (fd : Nat) (calls : List ConnCall) : Prop := ∀ call ∈ calls, call.fd = fd

theorem On.nil : On fd [] := by
  intro call mem
  cases mem

theorem On.cons {call : ConnCall} (about : call.fd = fd) (rest : On fd calls) :
    On fd (call :: calls) := by
  intro other mem
  rcases List.mem_cons.mp mem with rfl | mem
  · exact about
  · exact rest other mem

theorem On.append (first : On fd calls) (second : On fd calls') : On fd (calls ++ calls') := by
  intro call mem
  rcases List.mem_append.mp mem with mem | mem
  · exact first call mem
  · exact second call mem

theorem on_closeCalls (fd : Nat) : On fd (closeCalls fd) := .cons rfl (.cons rfl (.cons rfl .nil))

theorem on_dispatchCalls (c : ClientConn) (env : ReadEnv) : On c.fd (dispatchCalls c env) := by
  unfold dispatchCalls
  split
  · split
    · exact .nil
    · exact on_closeCalls c.fd
  · exact on_closeCalls c.fd
  · exact .nil

theorem on_readCalls (live : p.heap cli = some c) (env : ReadEnv) :
    On c.fd (readCalls p cli env) := by
  unfold readCalls
  rw [live]
  simp only
  split
  · exact .nil
  · exact on_closeCalls c.fd
  · exact on_closeCalls c.fd
  · split
    · exact .nil
    · next c' received => exact (receive_fd received).1 ▸ on_dispatchCalls c' env

theorem on_finishCalls (c : ClientConn) (nwrite : Nat) : On c.fd (finishCalls c nwrite) := by
  unfold finishCalls
  split
  · refine .cons rfl ?_
    split
    · exact on_closeCalls c.fd
    · exact .nil
  · exact .nil

theorem on_writeCalls (live : p.heap cli = some c) (result : WriteResult) :
    On c.fd (writeCalls p cli result) := by
  unfold writeCalls
  rw [live]
  simp only
  split
  · exact on_closeCalls c.fd
  · exact on_finishCalls c 0
  · exact on_finishCalls c _

theorem on_appendCalls (cli : Nat) (el : AeEventLoop FileProc Nat) (fd : Nat) (addOk : Bool) :
    On fd (appendCalls cli el fd addOk) := by
  unfold appendCalls
  refine .cons rfl ?_
  split
  · exact on_closeCalls fd
  · exact .nil

theorem on_createCalls (p : ConnProc) (fd : Nat) (env : CreateEnv) :
    On fd (createCalls p fd env) := by
  unfold createCalls
  split
  · exact .nil
  · refine .cons rfl ?_
    split
    · exact .cons rfl .nil
    · split
      · exact .nil
      · exact .cons rfl (.cons rfl .nil)

theorem on_openCalls (cli : Nat) (el : AeEventLoop FileProc Nat) (fd : Nat) (answer : OpenAnswer)
    (writeOk : Bool) : On fd (openCalls cli el fd answer writeOk) := by
  unfold openCalls
  split
  · exact on_closeCalls fd
  · split
    · exact .nil
    · exact on_appendCalls cli el fd writeOk

theorem on_acceptCalls (p : ConnProc) (fd : Nat) (ip : String) (port : Int) (env : AcceptEnv) :
    On fd (acceptCalls p fd ip port env) := by
  unfold acceptCalls
  refine (on_createCalls p fd env.toCreateEnv).append ?_
  split
  · exact .cons rfl .nil
  · split
    · exact on_closeCalls fd
    · split
      · exact .nil
      · exact on_openCalls _ _ fd _ _

/-- The descriptor of a live connection. -/
def ConnProc.Of (p : ConnProc) (fd : Nat) : Prop := ∃ cli c, p.heap cli = some c ∧ c.fd = fd

theorem of_cronCalls {nodes : List Nat} (wf : p.Wf) :
    ∀ call ∈ cronCalls p nodes, p.Of call.fd := by
  induction nodes generalizing p with
  | nil =>
      intro call mem
      cases mem
  | cons node rest ih =>
      intro call mem
      unfold cronCalls at mem
      split at mem
      · cases mem
      · next c live =>
          split at mem
          · rw [closeClient_of_live wf live] at mem
            rcases List.mem_append.mp mem with mem | mem
            · exact ⟨node, c, live, (on_closeCalls c.fd call mem).symm⟩
            · obtain ⟨cli', c', live', about⟩ := ih (wf.drop live) call mem
              have ne : cli' ≠ node := by
                rintro rfl
                rw [heap_drop_self] at live'
                cases live'
              exact ⟨cli', c', (heap_drop_ne p c.fd ne).symm.trans live', about⟩
          · exact ih wf call mem

/-- Every call of a step is about a live connection, or about the descriptor that it accepts. -/
theorem ConnProc.Wf.of_calls {act : ConnAct} (wf : p.Wf) (stepped : p.step act = some (p', events)) :
    ∀ call ∈ p.calls act, p.fdOpen call.fd = false ∨ p.Of call.fd := by
  intro call mem
  cases act with
  | accept fd ip port env =>
      simp only [ConnProc.step] at stepped
      split at stepped
      · next allowed =>
          have about : call.fd = fd := by
            rcases List.mem_cons.mp mem with rfl | mem
            · rfl
            · exact on_acceptCalls _ fd ip port env call mem
          exact .inl (about ▸ allowed.1)
      · cases stepped
  | readable fd env =>
      simp only [ConnProc.step] at stepped
      split at stepped
      · next fired =>
          obtain ⟨cli, c, data, live, rfl⟩ := wf.entry (.inl fired)
          rw [ConnProc.calls, data] at mem
          exact .inr ⟨cli, c, live, (on_readCalls live env call mem).symm⟩
      · cases stepped
  | writable fd result =>
      simp only [ConnProc.step] at stepped
      split at stepped
      · next fired =>
          obtain ⟨cli, c, data, live, rfl⟩ := wf.entry (.inr fired.1)
          rw [ConnProc.calls, data] at mem
          exact .inr ⟨cli, c, live, (on_writeCalls live result call mem).symm⟩
      · cases stepped
  | message msg addOk =>
      rw [ConnProc.calls, messageCalls] at mem
      split at mem
      · cases mem
      · split at mem
        · cases mem
        · next c live =>
            exact .inr ⟨msg.cli, c, live, (on_appendCalls msg.cli p.ael c.fd addOk call mem).symm⟩
  | cron now => exact .inr (of_cronCalls (wf.setClock now) call mem)

/-! ## What the event loop keeps -/

/-- A call for another descriptor. -/
theorem AeKernel.step_other {k k' : AeKernel FileProc Nat} {call : ConnCall} {own : Nat}
    (stepped : k.step call = some k') (ne : own ≠ call.fd) :
    k'.el.events own = k.el.events own ∧ k'.fdOpen own = k.fdOpen own := by
  cases call with
  | opened fd =>
      cases stepped
      exact ⟨rfl, Function.update_of_ne ne ..⟩
  | closed fd =>
      cases stepped
      exact ⟨rfl, Function.update_of_ne ne ..⟩
  | create fd mask proc clientData room =>
      obtain ⟨el, fdOpen⟩ := AeKernel.el_of_create stepped
      rw [el, fdOpen]
      refine ⟨?_, rfl⟩
      cases created : aeCreateFileEvent k.el fd mask proc clientData room with
      | none => rfl
      | some el' => exact events_of_aeCreateFileEvent_ne created ne
  | delete fd mask =>
      obtain ⟨el, fdOpen⟩ := AeKernel.el_of_delete stepped
      rw [el, fdOpen]
      exact ⟨events_aeDeleteFileEvent_ne k.el mask ne, rfl⟩

theorem AeKernel.run_other {k k' : AeKernel FileProc Nat} {own : Nat}
    (ran : run AeKernel.step k calls = some k') (others : ∀ call ∈ calls, own ≠ call.fd) :
    k'.el.events own = k.el.events own ∧ k'.fdOpen own = k.fdOpen own := by
  induction calls generalizing k with
  | nil =>
      cases ran
      exact ⟨rfl, rfl⟩
  | cons call calls ih =>
      obtain ⟨k₁, stepped, rest⟩ := Option.bind_eq_some_iff.mp ran
      obtain ⟨entry, isOpen⟩ := AeKernel.step_other stepped (others call List.mem_cons_self)
      obtain ⟨entry', isOpen'⟩ := ih rest fun call mem => others call (List.mem_cons_of_mem _ mem)
      exact ⟨entry'.trans entry, isOpen'.trans isOpen⟩

/-! ## The process -/

/-- The process hears of new connections and of responses. -/
structure ConnProc.Hears (boot : ConnBoot) (p : ConnProc) : Prop where
  tables : p.Tables
  listen : p.ael.events boot.listenFd = bootEvent .acceptHandler
  listenOpen : p.fdOpen boot.listenFd = true
  notifier : boot.notifierFd ≠ boot.listenFd →
    p.ael.events boot.notifierFd = bootEvent .notifierHandler
  notifierOpen : p.fdOpen boot.notifierFd = true

theorem ConnProc.hears_init (boot : ConnBoot) : (ConnProc.init boot).Hears boot where
  tables := ConnProc.tables_init boot
  listen := Function.update_self ..
  listenOpen := boot.listenOpen
  notifier := fun ne => (Function.update_of_ne ne ..).trans (Function.update_self ..)
  notifierOpen := boot.notifierOpen

/-- The process with the kernel that follows it. -/
theorem ConnProc.Wf.served (wf : p.Wf) : p.Served (.following p.ael p.fdOpen) where
  el := rfl
  fdOpen := rfl
  inv := by
    refine ⟨fun fd => ⟨rfl, rfl⟩, fun fd registered => ?_⟩
    by_contra closed
    exact registered (wf.shut (Bool.eq_false_iff.mpr closed))

theorem ConnProc.Hears.step {act : ConnAct} (hears : p.Hears boot)
    (stepped : p.step act = some (p', events)) : p'.Hears boot := by
  have wf := hears.tables.wf
  obtain ⟨k', ran, served⟩ := wf.traced stepped _ wf.served
  have kept : ∀ own, p.fdOpen own = true →
      (∀ proc, (p.ael.events own).rFileProc = some proc → proc ≠ .readFromClient) →
      p'.ael.events own = p.ael.events own ∧ p'.fdOpen own = p.fdOpen own := by
    intro own isOpen reader
    rw [← served.el, ← served.fdOpen]
    refine AeKernel.run_other ran fun call mem => ?_
    rintro rfl
    rcases wf.of_calls stepped call mem with closed | ⟨cli, c, live, about⟩
    · rw [closed] at isOpen
      cases isOpen
    · rw [← about] at reader
      exact reader _ (wf.live live).reader rfl
  have listen := kept boot.listenFd hears.listenOpen <| by
    rw [hears.listen]
    rintro proc ⟨⟩
    simp
  refine ⟨(hears.tables.step stepped).1, listen.1.trans hears.listen,
    listen.2.trans hears.listenOpen, fun ne => ?_, ?_⟩
  · have notifier := kept boot.notifierFd hears.notifierOpen <| by
      rw [hears.notifier ne]
      rintro proc ⟨⟩
      simp
    exact notifier.1.trans (hears.notifier ne)
  · by_cases same : boot.notifierFd = boot.listenFd
    · rw [same]
      exact listen.2.trans hears.listenOpen
    · have notifier := kept boot.notifierFd hears.notifierOpen <| by
        rw [hears.notifier same]
        rintro proc ⟨⟩
        simp
      exact notifier.2.trans hears.notifierOpen

theorem ConnProc.Hears.of_run {acts : List ConnAct} (hears : p.Hears boot)
    (ran : run ConnProc.moved p acts = some p') : p'.Hears boot := by
  refine (reach_of_run ran).invariant hears fun {q act q'} hears _ moved => ?_
  obtain ⟨⟨q', events⟩, stepped, rfl⟩ := Option.map_eq_some_iff.mp moved
  exact hears.step stepped

/-- In every state that a run of the process reaches. -/
theorem ConnRun.hears_of_reach {ok : ConnRun → ConnAct → Prop} {r : ConnRun}
    (reach : Reach ConnRun.step ok (ConnRun.init boot) r) : r.proc.Hears boot := by
  apply reach.invariant (P := fun r => r.proc.Hears boot) (ConnProc.hears_init boot)
  intro r act r' hears _ stepped
  obtain ⟨⟨p', events⟩, step, rfl⟩ := Option.map_eq_some_iff.mp stepped
  exact hears.step step

end Verben
