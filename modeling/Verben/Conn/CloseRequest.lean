import Verben.Conn.History

/-!
# Requests to close

The plugin asks to close a connection from `handle_open`, or with a response marked
`close_conn`; the process sets `close_conn` and closes when `sendbuf` is drained. In
the runs described by `CloseKept` a request stays set and has a write event to act
on it. Outside them it can be dropped (`close_request_dropped`): `handle_open` may
ask without data, and then no write event comes; and a later response that is not
marked resets `close_conn`.
-/

namespace Verben

open Transition

/-- `close_conn` is set for the connection on an fd. -/
def ConnProc.closePending (p : ConnProc) (fd : Nat) : Bool :=
  match p.clientAt fd with
  | some c => c.closeConn
  | none => false

/-- `notifier_handler` takes the message for a connection it has. -/
def ConnProc.Handles (p : ConnProc) (msg : ShmMsg) : Prop :=
  p.connPid = msg.pid ∧ p.connVec msg.fd = msg.cli

instance (p : ConnProc) (msg : ShmMsg) : Decidable (p.Handles msg) :=
  inferInstanceAs (Decidable (_ ∧ _))

/-- `handle_open` asks to close with data only. -/
def AcceptEnv.closesWithData (env : AcceptEnv) : Bool :=
  match env.handleOpen with
  | some answer => answer.ret ≠ verbenConnClose || answer.retbuf.isSome
  | none => true

/-- The step keeps the requests to close: `handle_open` asks with data only, and no
response without `close_conn` is handled for a connection that has it set. -/
def CloseKept (r : ConnRun) : ConnAct → Prop
  | .accept _ _ _ env => env.closesWithData = true
  | .message msg _ =>
      r.proc.Handles msg → msg.closeConn = some false → r.proc.closePending msg.fd = false
  | _ => True

instance (r : ConnRun) : (act : ConnAct) → Decidable (CloseKept r act)
  | .accept _ _ _ _ => inferInstanceAs (Decidable (_ = _))
  | .message _ _ => inferInstanceAs (Decidable (_ → _ → _))
  | .readable _ _ => .isTrue trivial
  | .writable _ _ => .isTrue trivial
  | .cron _ => .isTrue trivial

/-- A request to close is still set, and a write event will act on it. -/
def ClosePending (h : Hist) (c : ClientConn) (fe : AeFileEvent FileProc Nat) : Prop :=
  h.closeAsked = true → c.closeConn = true ∧ fe.mask.writable = true

theorem closePending_of_opened {r : ConnRun} {cli : Nat} {act : ConnAct}
    {events : List ConnEvent} {c : ClientConn} {fe : AeFileEvent FileProc Nat} (h : Hist)
    (kept : CloseKept r act) (opened : Opened r.proc cli act events c fe) :
    ClosePending (h.addAll events) c fe := by
  cases opened with
  | silent addr handleOpen =>
      intro asked
      cases asked
  | quiet addr handleOpen retbuf =>
      simp only [CloseKept, AcceptEnv.closesWithData, handleOpen, retbuf, Option.isSome_none,
        Bool.or_false, decide_eq_true_eq] at kept
      intro asked
      simp [Hist.add, Hist.empty, kept] at asked
  | welcomed addr handleOpen retbuf cat set =>
      intro asked
      simp only [List.cons_append, Hist.addAll_cons, Hist.addAll_append, Hist.addAll_asked,
        Hist.addAll_nil, Hist.add, Hist.empty, Bool.false_or] at asked
      exact ⟨asked, set⟩

theorem closePending_of_effect {r : ConnRun} {act : ConnAct} {cli : Nat} {h : Hist}
    {events : List ConnEvent} {c c' : ClientConn} {fe fe' : AeFileEvent FileProc Nat}
    (kept : CloseKept r act) (wf : r.proc.Wf) (live : r.proc.heap cli = some c)
    (pending : ClosePending h c fe) (effect : Effect r.proc cli c fe act events c' fe') :
    ClosePending (h.addAll events) c' fe' := by
  cases effect with
  | again result => exact pending
  | wait result nonempty short received verdict =>
      obtain ⟨recvbuf, _, same⟩ := Option.map_eq_some_iff.mp received
      cases same
      simp only [Hist.addAll_cons, Hist.addAll_answered, Hist.add]
      exact pending
  | frame result nonempty short received verdict consume =>
      obtain ⟨recvbuf, _, same⟩ := Option.map_eq_some_iff.mp received
      cases same
      obtain ⟨recvbuf', _, same⟩ := Option.map_eq_some_iff.mp consume
      cases same
      simp only [List.cons_append, Hist.addAll_cons, Hist.addAll_append, Hist.addAll_answered,
        Hist.addAll_nil, Hist.add]
      exact pending
  | drained took all clear stay unset =>
      -- a drained connection with a request set is closed
      obtain ⟨bytes, same, _⟩ := Hist.addAll_took h cli took
      rw [same]
      intro asked
      exact absurd (pending asked).1 (by rw [stay]; simp)
  | shifted took part range =>
      obtain ⟨bytes, same, _⟩ := Hist.addAll_took h cli took
      rw [same]
      exact pending
  | @responded msg _ closeConn _ _ pid vec fd target flag cat set =>
      simp only [Hist.addAll_append, Hist.addAll_asked, Hist.addAll_cons, Hist.addAll_nil,
        Hist.add]
      intro asked
      refine ⟨?_, set⟩
      cases closeConn with
      | true => rfl
      | false =>
          have clear := kept ⟨pid, vec⟩ flag
          simp only [ConnProc.closePending, ← fd, wf.clientAt_eq live] at clear
          rw [Bool.or_false] at asked
          rw [(pending asked).1] at clear
          cases clear

/-- **A request to close is neither cancelled nor left waiting.** In every state that a
run reaches whose steps keep the requests to close: a connection that is still open
after the plugin asked to close it has `close_conn` set, and `write_to_client`
registered on its fd with the connection as client data. -/
theorem close_request_kept {boot : ConnBoot} {r : ConnRun}
    (reach : Reach ConnRun.step CloseKept (ConnRun.init boot) r) {cli : Nat} {c : ClientConn}
    (live : r.proc.heap cli = some c) (asked : (r.hist cli).closeAsked = true) :
    c.closeConn = true ∧
    (r.proc.ael.events c.fd).mask.writable = true ∧
    (r.proc.ael.events c.fd).wFileProc = some .writeToClient ∧
    (r.proc.ael.events c.fd).clientData = some cli := by
  obtain ⟨wf, each⟩ := each_of_reach (Q := ClosePending) reach
    (fun h kept opened => closePending_of_opened h kept opened)
    (fun kept wf live pending effect => closePending_of_effect kept wf live pending effect)
  obtain ⟨flag, writable⟩ := each live asked
  exact ⟨flag, writable, wf.writer writable, (wf.live live).data⟩

/-- A connection that is welcomed with three bytes and a request to close, of which
`write` takes two. -/
theorem close_request_kept_welcome :
    ∃ r c, runGuarded ConnRun.step CloseKept (ConnRun.init defaultBoot)
        [.accept 7 "10.0.0.1" 80 (acceptOk 1 (some ⟨verbenConnClose, some [1, 2, 3]⟩)),
          .writable 7 (.wrote 2)] = some r ∧ r.proc.heap 1 = some c ∧
      c.closeConn = true ∧
      (r.proc.ael.events c.fd).mask.writable = true ∧
      (r.proc.ael.events c.fd).wFileProc = some .writeToClient ∧
      (r.proc.ael.events c.fd).clientData = some 1 := by
  have evaluated : ((runGuarded ConnRun.step CloseKept (ConnRun.init defaultBoot)
      [.accept 7 "10.0.0.1" 80 (acceptOk 1 (some ⟨verbenConnClose, some [1, 2, 3]⟩)),
        .writable 7 (.wrote 2)]).bind fun r =>
          if (r.hist 1).closeAsked then r.proc.heap 1 else none).isSome = true := by
    decide +kernel
  obtain ⟨c, found⟩ := Option.isSome_iff_exists.mp evaluated
  obtain ⟨r, ran, asked⟩ := Option.bind_eq_some_iff.mp found
  split at asked
  · next flag => exact ⟨r, c, ran, asked, close_request_kept (reach_of_runGuarded ran) asked flag⟩
  · cases asked

/-- The connection at 1 is open, was asked to close, and has neither bytes to send nor
a write event. -/
def Stranded (r : ConnRun) : Prop :=
  (r.hist 1).closeAsked = true ∧
  ((r.proc.heap 1).map fun c => c.sendbuf.content) = some [] ∧
  ((r.proc.heap 1).map fun c => (r.proc.ael.events c.fd).mask.writable) = some false

instance (r : ConnRun) : Decidable (Stranded r) := inferInstanceAs (Decidable (_ ∧ _ ∧ _))

/-- **Two ways to drop a request to close**: `handle_open` asks without data; or two
responses are appended before a write, the first of them with `close_conn`. -/
theorem close_request_dropped :
    (∃ r, run ConnRun.step (ConnRun.init defaultBoot)
      [.accept 7 "10.0.0.1" 80 (acceptOk 1 (some ⟨verbenConnClose, none⟩))] = some r ∧
        Stranded r) ∧
    ∃ r, run ConnRun.step (ConnRun.init defaultBoot)
      [firstAccept,
        .message ⟨1, 7, 0, connMsgMagic, 100, "10.0.0.1", 80, some true, [1]⟩ true,
        .message ⟨1, 7, 1, connMsgMagic, 100, "10.0.0.1", 80, some false, [2]⟩ true,
        .writable 7 (.wrote 2)] = some r ∧ Stranded r := by
  have stranded : ∀ acts, (∃ ran : (run ConnRun.step (ConnRun.init defaultBoot) acts).isSome = true,
      Stranded ((run ConnRun.step (ConnRun.init defaultBoot) acts).get ran)) →
      ∃ r, run ConnRun.step (ConnRun.init defaultBoot) acts = some r ∧ Stranded r :=
    fun acts ⟨ran, stranded⟩ => ⟨_, (Option.some_get ran).symm, stranded⟩
  exact ⟨stranded _ ⟨by decide +kernel, by decide +kernel⟩,
    stranded _ ⟨by decide +kernel, by decide +kernel⟩⟩

end Verben
