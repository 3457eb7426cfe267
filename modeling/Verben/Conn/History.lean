import Verben.Conn.Step
import Verben.Lib.Transition

/-!
# Runs of the connection process

A run carries, beside the process, the history of the connection at each address:
what was read from it and appended to it since it was accepted. `each_of_reach` is
the induction rule for properties of every live connection in every state a run
reaches; the steps are those of `ConnProc.step_cases`.
-/

namespace Verben

open Transition

/-- What happened on a connection since it was accepted: the bytes that `read` gave,
the answers of `handle_input`, the frames pushed to `recv_queue`, whether the plugin
asked to close, the bytes appended to `sendbuf`, and the bytes that `write` took. -/
structure Hist : Type where
  received : List UInt8
  answers : List Int
  frames : List (List UInt8)
  closeAsked : Bool
  appended : List UInt8
  written : List UInt8

def Hist.empty : Hist := ⟨[], [], [], false, [], []⟩

def Hist.add (h : Hist) : ConnEvent → Hist
  | .opened _ _ => .empty
  | .received _ bytes => { h with received := h.received ++ bytes }
  | .answered _ len => { h with answers := h.answers ++ [len] }
  | .pushed msg => { h with frames := h.frames ++ [msg.data] }
  | .closeAsked _ => { h with closeAsked := true }
  | .appended _ bytes => { h with appended := h.appended ++ bytes }
  | .wrote _ bytes => { h with written := h.written ++ bytes }
  | .closed _ => h

def Hist.addAll (h : Hist) (events : List ConnEvent) : Hist := events.foldl Hist.add h

/-- The process with the history of each connection. -/
structure ConnRun : Type where
  proc : ConnProc
  hist : Nat → Hist

/-- Add an event to the history of its connection. -/
def recordEvent (hist : Nat → Hist) (e : ConnEvent) : Nat → Hist :=
  Function.update hist e.cli ((hist e.cli).add e)

def ConnRun.init (boot : ConnBoot) : ConnRun := ⟨.init boot, fun _ => .empty⟩

def ConnRun.step (r : ConnRun) (act : ConnAct) : Option ConnRun :=
  (r.proc.step act).map fun done => ⟨done.1, done.2.foldl recordEvent r.hist⟩

/-- The process under the default configuration, with the fds up to 6 in use. -/
def defaultBoot : ConnBoot where
  listenFd := 3
  notifierFd := 4
  fdOpen := fun fd => decide (fd ≤ 6)
  listenOpen := rfl
  notifierOpen := rfl
  clientLimit := 0
  clientTimeout := 60
  connPid := 100

/-- An `accept` that finds the memory it needs, with the answer of `handle_open`. -/
def acceptOk (cli : Nat) (handleOpen : Option OpenAnswer) : AcceptEnv where
  addr := some cli
  addOk := true
  nodeOk := true
  time := 0
  handleOpen := handleOpen
  writeOk := true

/-- The first connection of the default process, by a plugin without `handle_open`. -/
def firstAccept : ConnAct := .accept 7 "10.0.0.1" 80 (acceptOk 1 none)

/-- That connection as it was accepted. -/
def firstClient : ClientConn := newClient (.init defaultBoot) 7 "10.0.0.1" 80 0

/-- The run that has just accepted it. -/
def firstConn : ConnRun :=
  ((ConnRun.init defaultBoot).step firstAccept).getD (ConnRun.init defaultBoot)

theorem step_firstAccept : (ConnRun.init defaultBoot).step firstAccept = some firstConn := by
  have accepted : ((ConnRun.init defaultBoot).step firstAccept).isSome = true := by
    decide +kernel
  unfold firstConn
  obtain ⟨r, stepped⟩ := Option.isSome_iff_exists.mp accepted
  rw [stepped]
  rfl

/-- A read of some bytes, whose frame is pushed if there is one. -/
def readOk (bytes : List UInt8) (handleInput : List UInt8 → Int) : ReadEnv where
  result := .data bytes
  handleInput := handleInput
  mallocOk := true
  pushOk := true

theorem recordEvents_of_about {events : List ConnEvent} {cli : Nat} (hist : Nat → Hist)
    (about : ∀ e ∈ events, e.cli = cli) :
    events.foldl recordEvent hist cli = (hist cli).addAll events := by
  induction events generalizing hist with
  | nil => rfl
  | cons e events ih =>
      have first := about e List.mem_cons_self
      rw [List.foldl_cons, ih _ fun e mem => about e (List.mem_cons_of_mem _ mem)]
      unfold recordEvent
      rw [first, Function.update_self]
      rfl

theorem recordEvents_of_quiet {events : List ConnEvent} {cli : Nat} (hist : Nat → Hist)
    (quiet : ∀ e ∈ events, e.cli ≠ cli) :
    events.foldl recordEvent hist cli = hist cli := by
  induction events generalizing hist with
  | nil => rfl
  | cons e events ih =>
      have first := quiet e List.mem_cons_self
      rw [List.foldl_cons, ih _ fun e mem => quiet e (List.mem_cons_of_mem _ mem)]
      exact Function.update_of_ne first.symm ..

/-- A property of every live connection, its history and the entry of its fd. -/
def ConnRun.Each (r : ConnRun) (Q : Hist → ClientConn → AeFileEvent FileProc Nat → Prop) : Prop :=
  ∀ {cli c}, r.proc.heap cli = some c → Q (r.hist cli) c (r.proc.ael.events c.fd)

/-- **The induction rule for connections.** A property that each opening establishes
and each effect keeps holds of every live connection in every state reached. -/
theorem each_of_reach {boot : ConnBoot} {ok : ConnRun → ConnAct → Prop} {r : ConnRun}
    {Q : Hist → ClientConn → AeFileEvent FileProc Nat → Prop}
    (reach : Reach ConnRun.step ok (ConnRun.init boot) r)
    (opened : ∀ {r act cli events c' fe'} (h : Hist), ok r act →
      Opened r.proc cli act events c' fe' → Q (h.addAll events) c' fe')
    (changed : ∀ {r act cli c events c' fe'}, ok r act → r.proc.Wf → r.proc.heap cli = some c →
      Q (r.hist cli) c (r.proc.ael.events c.fd) →
      Effect r.proc cli c (r.proc.ael.events c.fd) act events c' fe' →
      Q ((r.hist cli).addAll events) c' fe') :
    r.proc.Wf ∧ r.Each Q := by
  apply reach.invariant (P := fun r => r.proc.Wf ∧ r.Each Q)
  · refine ⟨ConnProc.wf_init boot, ?_⟩
    intro cli c live
    cases live
  · intro r act r' both guard stepped
    rcases both with ⟨wf, each⟩
    obtain ⟨⟨p', events⟩, step, rfl⟩ := Option.map_eq_some_iff.mp stepped
    obtain ⟨wf', fates⟩ := ConnProc.step_cases wf step
    refine ⟨wf', ?_⟩
    intro cli c' live
    simp only at live ⊢
    cases fates cli c' live with
    | same before entry quiet =>
        rw [recordEvents_of_quiet r.hist quiet, entry]
        exact each before
    | changed before about effect =>
        rw [recordEvents_of_about r.hist about]
        exact changed guard wf before (each before) effect
    | opened absent about open' =>
        rw [recordEvents_of_about r.hist about]
        exact opened _ guard open'

/-- The tables agree in every state reached. -/
theorem ConnRun.wf_of_reach {boot : ConnBoot} {ok : ConnRun → ConnAct → Prop} {r : ConnRun}
    (reach : Reach ConnRun.step ok (ConnRun.init boot) r) : r.proc.Wf :=
  (each_of_reach (Q := fun _ _ _ => True) reach (fun _ _ _ => trivial)
    (fun _ _ _ _ _ => trivial)).1

theorem reach_firstConn : Reach ConnRun.step always (ConnRun.init defaultBoot) firstConn :=
  .single ⟨firstAccept, trivial, step_firstAccept⟩

theorem wf_firstConn : firstConn.proc.Wf := ConnRun.wf_of_reach reach_firstConn

/-! ## Histories of the events of one effect -/

section Events

variable (h : Hist) (cli : Nat)

@[simp] theorem Hist.addAll_nil : h.addAll [] = h := rfl

@[simp] theorem Hist.addAll_cons (e : ConnEvent) (events : List ConnEvent) :
    h.addAll (e :: events) = (h.add e).addAll events := rfl

@[simp] theorem Hist.addAll_append (events events' : List ConnEvent) :
    h.addAll (events ++ events') = (h.addAll events).addAll events' :=
  List.foldl_append ..

@[simp] theorem Hist.addAll_asked (closeConn : Bool) :
    h.addAll (askedEvents cli closeConn) =
      { h with closeAsked := h.closeAsked || closeConn } := by
  cases closeConn <;> simp [askedEvents, Hist.add]

@[simp] theorem Hist.addAll_answered (before after : ClientConn) :
    h.addAll (answeredEvents cli before after) =
      { h with
        answers := h.answers ++ if before.recvProtLen = 0 then [after.recvProtLen] else [] } := by
  unfold answeredEvents
  split <;> simp [Hist.add]

/-- A write adds to the bytes written only. -/
theorem Hist.addAll_took {c : ClientConn} {result : WriteResult} {n : Nat}
    {events : List ConnEvent} (took : WriteTook cli c result n events) :
    ∃ bytes, h.addAll events = { h with written := h.written ++ bytes } ∧
      c.sendbuf.buf.load 0 n = some bytes := by
  cases took with
  | again =>
      refine ⟨[], by simp, ?_⟩
      unfold Region.load
      rw [if_pos (by simp)]
      rfl
  | @wrote n bytes most load => exact ⟨bytes, rfl, load⟩

end Events

end Verben
