import Verben.Conn.History
import Verben.Sds.Content

/-!
# No byte to be sent is lost

The sending half of a connection: in every state of every run, the bytes that
`write` took followed by `sendbuf` are the bytes appended, and a `sendbuf` with
bytes in it has a write event. The runs are those in which `sendbuf` stays below
2 ^ 31 bytes. Past that its `len` is negative, and the string is lost
(`sendbuf_lost`).
-/

namespace Verben

open Transition

/-- `sendbuf` holds what was appended and not written, and is waited for. -/
structure Sends (h : Hist) (c : ClientConn) (fe : AeFileEvent FileProc Nat) (buf : List UInt8) :
    Prop where
  holds : c.sendbuf.Holds buf
  bytes : h.written ++ buf = h.appended
  waiting : buf ≠ [] → fe.mask.writable = true

/-- How many bytes `sendbuf` holds for an fd. -/
def ConnProc.sendbufLen (p : ConnProc) (fd : Nat) : Nat :=
  match p.clientAt fd with
  | some c => c.sendbuf.content.length
  | none => 0

/-- How many bytes `handle_open` wants to send, unless it refuses the connection. -/
def AcceptEnv.welcomeLen (env : AcceptEnv) : Nat :=
  match env.handleOpen with
  | some answer => if answer.ret = verbenError then 0 else (answer.retbuf.getD []).length
  | none => 0

/-- `sendbuf` and the bytes appended to it fit an `int`. Nothing is appended when there is no memory
for a connection, or when a message is for another process or connection. -/
def AppendFits (r : ConnRun) : ConnAct → Prop
  | .accept _ _ _ env => env.addr.isSome = true → env.welcomeLen < 2 ^ 31
  | .message msg _ => r.proc.connPid = msg.pid → r.proc.connVec msg.fd = msg.cli →
      r.proc.sendbufLen msg.fd + msg.data.length < 2 ^ 31
  | _ => True

instance decidableAppendFits (r : ConnRun) : (act : ConnAct) → Decidable (AppendFits r act)
  | .accept _ _ _ _ => inferInstanceAs (Decidable (_ → _))
  | .message _ _ => inferInstanceAs (Decidable (_ → _ → _))
  | .readable _ _ => .isTrue trivial
  | .writable _ _ => .isTrue trivial
  | .cron _ => .isTrue trivial

section Invariant

variable {h : Hist} {c c' : ClientConn} {fe fe' : AeFileEvent FileProc Nat} {buf data : List UInt8}
  {sendbuf : Sds}

/-- Effects on the receiving half leave the sending half alone. -/
theorem Sends.congr {h' : Hist} (sends : Sends h c fe buf) (same : c'.sendbuf = c.sendbuf)
    (appended : h'.appended = h.appended) (written : h'.written = h.written) :
    Sends h' c' fe buf := by
  refine ⟨same ▸ sends.holds, ?_, sends.waiting⟩
  rw [written, appended]
  exact sends.bytes

/-- An append, with the write event registered. -/
theorem Sends.append (sends : Sends h c fe buf) (fits : buf.length + data.length < 2 ^ 31)
    (cat : sdscatlen c.sendbuf data = some sendbuf) (same : c'.sendbuf = sendbuf)
    (set : fe'.mask.writable = true) {h' : Hist} (appended : h'.appended = h.appended ++ data)
    (written : h'.written = h.written) : Sends h' c' fe' (buf ++ data) := by
  obtain ⟨sendbuf', cat', holds⟩ := sdscatlen_of_holds sends.holds fits
  cases cat'.symm.trans cat
  refine ⟨same ▸ holds, ?_, fun _ => set⟩
  rw [written, appended, ← List.append_assoc, sends.bytes]

/-- The bytes that `write` took are the first ones of `sendbuf`. -/
theorem load_sendbuf (sends : Sends h c fe buf) {n : Nat} {bytes : List UInt8}
    (inside : n ≤ buf.length) (load : c.sendbuf.buf.load 0 n = some bytes) :
    bytes = buf.take n := by
  have taken : (buf.take n).length = n := List.length_take_of_le inside
  have starts : c.sendbuf.buf.Starts (buf.take n ++ buf.drop n) := by
    rw [List.take_append_drop]
    exact sends.holds.data.of_append
  have whole := starts.load
  rw [taken] at whole
  exact Option.some_inj.mp (load.symm.trans whole)

/-- `write` took all, and the write event is gone. -/
theorem Sends.drained (sends : Sends h c fe buf) {n : Nat} {bytes : List UInt8}
    (load : c.sendbuf.buf.load 0 n = some bytes) (all : (n : Int) = sdslen c.sendbuf)
    (clear : sdsclear c.sendbuf = some sendbuf) (same : c'.sendbuf = sendbuf) {h' : Hist}
    (appended : h'.appended = h.appended) (written : h'.written = h.written ++ bytes) :
    Sends h' c' fe' [] := by
  obtain ⟨sendbuf', clear', holds⟩ := sdsclear_of_holds sends.holds
  cases clear'.symm.trans clear
  have count : n = buf.length := by
    rw [sends.holds.sdslen_eq] at all
    omega
  have taken := load_sendbuf sends (Nat.le_of_eq count) load
  rw [count, List.take_length] at taken
  refine ⟨same ▸ holds, ?_, fun some => absurd rfl some⟩
  rw [List.append_nil, written, appended, taken, sends.bytes]

/-- `write` took a part, and the rest moves to the front. -/
theorem Sends.shifted (sends : Sends h c fe buf) {n : Nat} {bytes : List UInt8}
    (inside : n ≤ buf.length) (load : c.sendbuf.buf.load 0 n = some bytes)
    (range : sdsrange c.sendbuf n (-1) = some sendbuf) (same : c'.sendbuf = sendbuf) {h' : Hist}
    (appended : h'.appended = h.appended) (written : h'.written = h.written ++ bytes) :
    Sends h' c' fe (buf.drop n) := by
  obtain ⟨sendbuf', range', holds⟩ := sdsrange_of_holds sends.holds inside
  cases range'.symm.trans range
  have taken := load_sendbuf sends inside load
  refine ⟨same ▸ holds, ?_, fun some => sends.waiting ?_⟩
  · rw [written, appended, taken, List.append_assoc, List.take_append_drop, sends.bytes]
  · intro same
    subst same
    exact some List.drop_nil

/-- `write` takes no more than `sendbuf` holds. -/
theorem WriteTook.le {cli : Nat} {result : WriteResult} {n : Nat} {events : List ConnEvent}
    (took : WriteTook cli c result n events) (holds : c.sendbuf.Holds buf) : n ≤ buf.length := by
  cases took with
  | again => exact Nat.zero_le _
  | wrote most load =>
      rw [holds.sdslen_eq] at most
      omega

theorem sends_nothing (empty : c.sendbuf = sdsempty) (appended : h.appended = [])
    (written : h.written = []) : Sends h c fe [] := by
  refine ⟨empty ▸ holds_sdsempty, ?_, fun some => absurd rfl some⟩
  rw [written, appended]
  rfl

/-- A new connection sends the welcome data, or nothing. -/
theorem sends_of_opened {r : ConnRun} {cli : Nat} {act : ConnAct} {events : List ConnEvent}
    (h : Hist) (fits : AppendFits r act) (opened : Opened r.proc cli act events c fe) :
    ∃ buf, Sends (h.addAll events) c fe buf := by
  cases opened with
  | silent addr handleOpen => exact ⟨[], sends_nothing rfl rfl rfl⟩
  | quiet addr handleOpen retbuf =>
      simp only [Hist.addAll_cons, Hist.add, Hist.addAll_asked]
      exact ⟨[], sends_nothing rfl rfl rfl⟩
  | @welcomed fd ip port env answer data sendbuf _ addr handleOpen retbuf cat set accepted =>
      have short : data.length < 2 ^ 31 := by
        have welcome := fits (Option.isSome_of_eq_some addr)
        simpa only [AcceptEnv.welcomeLen, handleOpen, if_neg accepted, retbuf, Option.getD_some]
          using welcome
      have fresh : Sends .empty (newClient r.proc fd ip port env.time) fe [] :=
        sends_nothing rfl rfl rfl
      simp only [List.cons_append, Hist.addAll_cons, Hist.addAll_append, Hist.addAll_asked,
        Hist.addAll_nil, Hist.add]
      exact ⟨_, fresh.append (by simpa using short) cat rfl set rfl rfl⟩

/-- Every effect keeps the sending half of its connection. -/
theorem sends_of_effect {r : ConnRun} {act : ConnAct} {cli : Nat} {events : List ConnEvent}
    (fits : AppendFits r act) (wf : r.proc.Wf) (live : r.proc.heap cli = some c)
    (sends : Sends h c fe buf) (effect : Effect r.proc cli c fe act events c' fe') :
    ∃ buf', Sends (h.addAll events) c' fe' buf' := by
  have touched : Sends h (c.touch r.proc.unixClock) fe buf := sends.congr rfl rfl rfl
  cases effect with
  | again result => exact ⟨_, touched⟩
  | wait result nonempty short received verdict =>
      obtain ⟨recvbuf, _, same⟩ := Option.map_eq_some_iff.mp received
      cases same
      simp only [Hist.addAll_cons, Hist.addAll_answered, Hist.add]
      exact ⟨_, sends.congr rfl rfl rfl⟩
  | frame result nonempty short received verdict consume =>
      obtain ⟨recvbuf, _, same⟩ := Option.map_eq_some_iff.mp received
      cases same
      obtain ⟨recvbuf', _, same⟩ := Option.map_eq_some_iff.mp consume
      cases same
      simp only [List.cons_append, Hist.addAll_cons, Hist.addAll_append, Hist.addAll_answered,
        Hist.addAll_nil, Hist.add]
      exact ⟨_, sends.congr rfl rfl rfl⟩
  | drained took all clear stay unset =>
      obtain ⟨bytes, same, load⟩ := Hist.addAll_took h cli took
      rw [same]
      exact ⟨_, touched.drained load all clear rfl rfl rfl⟩
  | shifted took part range =>
      obtain ⟨bytes, same, load⟩ := Hist.addAll_took h cli took
      rw [same]
      exact ⟨_, touched.shifted (took.le sends.holds) load range rfl rfl rfl⟩
  | @responded msg _ _ _ _ pid vec fd target flag cat set =>
      have room : buf.length + msg.data.length < 2 ^ 31 := by
        simpa only [ConnProc.sendbufLen, ← fd, wf.clientAt_eq live,
          sends.holds.content_eq] using fits pid vec
      simp only [Hist.addAll_append, Hist.addAll_asked, Hist.addAll_cons, Hist.addAll_nil,
        Hist.add]
      exact ⟨_, sends.append room cat rfl set rfl rfl⟩

end Invariant

/-- **No response byte is lost, repeated or left without a write event.** In every state
that a run reaches in which each append leaves `sendbuf` below 2 ^ 31 bytes, for every
connection that is open: the bytes that `write` took followed by `sendbuf` are the bytes
appended, and unless `sendbuf` is empty, its fd has `write_to_client` registered, with
the connection as client data. -/
theorem appended_bytes_kept {boot : ConnBoot} {r : ConnRun}
    (reach : Reach ConnRun.step AppendFits (ConnRun.init boot) r) {cli : Nat} {c : ClientConn}
    (live : r.proc.heap cli = some c) :
    (r.hist cli).written ++ c.sendbuf.content = (r.hist cli).appended ∧
    (c.sendbuf.content ≠ [] →
      (r.proc.ael.events c.fd).mask.writable = true ∧
      (r.proc.ael.events c.fd).wFileProc = some .writeToClient ∧
      (r.proc.ael.events c.fd).clientData = some cli) := by
  obtain ⟨wf, each⟩ := each_of_reach (Q := fun h c fe => ∃ buf, Sends h c fe buf) reach
    (fun h fits opened => sends_of_opened h fits opened)
    (fun fits wf live ⟨_, sends⟩ effect => sends_of_effect fits wf live sends effect)
  obtain ⟨buf, sends⟩ := each live
  rw [sends.holds.content_eq]
  refine ⟨sends.bytes, fun some => ?_⟩
  have writable := sends.waiting some
  exact ⟨writable, wf.writer writable, (wf.live live).data⟩

/-- A connection that is welcomed with three bytes, of which `write` takes two. -/
theorem appended_bytes_kept_three :
    ∃ r c, runGuarded ConnRun.step AppendFits (ConnRun.init defaultBoot)
        [.accept 7 "10.0.0.1" 80 (acceptOk 1 (some ⟨0, some [1, 2, 3]⟩)),
          .writable 7 (.wrote 2)] = some r ∧ r.proc.heap 1 = some c ∧
      (r.hist 1).written ++ c.sendbuf.content = (r.hist 1).appended ∧
      (c.sendbuf.content ≠ [] →
        (r.proc.ael.events c.fd).mask.writable = true ∧
        (r.proc.ael.events c.fd).wFileProc = some .writeToClient ∧
        (r.proc.ael.events c.fd).clientData = some 1) := by
  have evaluated : ((runGuarded ConnRun.step AppendFits (ConnRun.init defaultBoot)
      [.accept 7 "10.0.0.1" 80 (acceptOk 1 (some ⟨0, some [1, 2, 3]⟩)),
        .writable 7 (.wrote 2)]).bind fun r => r.proc.heap 1).isSome = true := by
    decide +kernel
  obtain ⟨c, found⟩ := Option.isSome_iff_exists.mp evaluated
  obtain ⟨r, ran, live⟩ := Option.bind_eq_some_iff.mp found
  exact ⟨r, c, ran, live, appended_bytes_kept (reach_of_runGuarded ran) live⟩

/-! ## Past 2 ^ 31 bytes -/

/-- A response of `k` zeros to the connection at 1 and fd 7. -/
def zeroResponse (k : Nat) : ConnAct :=
  .message ⟨1, 7, 0, connMsgMagic, 100, "10.0.0.1", 80, some false, List.replicate k 0⟩ true

/-- That connection after `n` zeros were appended and none written. -/
structure Backlog (r : ConnRun) (n : Nat) : Prop where
  wf : r.proc.Wf
  pid : r.proc.connPid = 100
  client : ∃ c, r.proc.heap 1 = some c ∧ c.fd = 7 ∧ c.sendbuf.Holds (List.replicate n 0)
  appended : (r.hist 1).appended = List.replicate n 0
  written : (r.hist 1).written = []

/-- A response is appended, whatever becomes of `sendbuf`. -/
theorem Backlog.respond {r : ConnRun} {n : Nat} (backlog : Backlog r n) {k : Nat} {c : ClientConn}
    (live : r.proc.heap 1 = some c) (fd : c.fd = 7) {sendbuf : Sds}
    (cat : sdscatlen c.sendbuf (List.replicate k 0) = some sendbuf) :
    ∃ r', r.step (zeroResponse k) = some r' ∧ r'.proc.Wf ∧ r'.proc.connPid = 100 ∧
      r'.proc.heap 1 = some { c with closeConn := false, sendbuf := sendbuf } ∧
      (r'.hist 1).appended = List.replicate (n + k) 0 ∧ (r'.hist 1).written = [] := by
  obtain ⟨p', handled, live', pid⟩ := notifierMessage_of_live ⟨1, 7, 0, connMsgMagic, 100,
    "10.0.0.1", 80, some false, List.replicate k 0⟩ backlog.wf live rfl backlog.pid fd rfl cat
  have about : ∀ e ∈ [ConnEvent.appended 1 (List.replicate k 0)], e.cli = 1 := by
    simp [ConnEvent.cli]
  have hist := recordEvents_of_about r.hist about
  simp only [Hist.addAll_cons, Hist.addAll_nil, Hist.add] at hist
  have stepped : r.step (zeroResponse k) =
      some ⟨p', [ConnEvent.appended 1 (List.replicate k 0)].foldl recordEvent r.hist⟩ := by
    unfold ConnRun.step zeroResponse
    change Option.map _ (notifierMessage r.proc _ true) = _
    rw [handled]
    rfl
  have taken : r.proc.step (zeroResponse k) = some (p', _) := handled
  have wf' : p'.Wf := (ConnProc.step_cases backlog.wf taken).1
  refine ⟨_, stepped, wf', pid.trans backlog.pid, live', ?_, ?_⟩
  · simp only [hist, backlog.appended]
    exact List.replicate_append_replicate
  · simp only [hist, backlog.written]

theorem Backlog.step {r : ConnRun} {n k : Nat} (backlog : Backlog r n) (fits : n + k < 2 ^ 31) :
    ∃ r', r.step (zeroResponse k) = some r' ∧ Backlog r' (n + k) := by
  rcases backlog.client with ⟨c, live, fd, holds⟩
  obtain ⟨sendbuf, cat, holds'⟩ := sdscatlen_of_holds (t := List.replicate k 0) holds
    (by rw [List.length_replicate, List.length_replicate]; exact fits)
  obtain ⟨r', stepped, wf, pid, live', appended, written⟩ := backlog.respond live fd cat
  rw [List.replicate_append_replicate] at holds'
  exact ⟨r', stepped, wf, pid, ⟨_, live', fd, holds'⟩, appended, written⟩

/-- One response too many. -/
theorem Backlog.overflow {r : ConnRun} {n k : Nat} (backlog : Backlog r n) (short : k < 2 ^ 31)
    (exceeds : 2 ^ 31 ≤ n + k) :
    ∃ r' c, r.step (zeroResponse k) = some r' ∧ r'.proc.heap 1 = some c ∧
      (r'.hist 1).written ++ c.sendbuf.content ≠ (r'.hist 1).appended := by
  rcases backlog.client with ⟨c, live, fd, holds⟩
  obtain ⟨sendbuf, cat, wrapped⟩ := sdscatlen_of_overflow (t := List.replicate k 0) holds
    (by rw [List.length_replicate]; exact short)
    (by rw [List.length_replicate, List.length_replicate]; exact exceeds)
  obtain ⟨r', stepped, _, _, live', appended, written⟩ := backlog.respond live fd cat
  refine ⟨r', _, stepped, live', ?_⟩
  rw [written, appended, wrapped.content_eq, List.append_nil]
  intro equal
  have lengths := congrArg List.length equal
  rw [List.length_nil, List.length_replicate] at lengths
  omega

/-- A client that reads nothing, and asks for responses of 2 ^ 19 bytes. -/
theorem backlog_of_run (responses : Nat) (fits : responses * 2 ^ 19 < 2 ^ 31) :
    ∃ r, run ConnRun.step firstConn (List.replicate responses (zeroResponse (2 ^ 19))) = some r ∧
      Backlog r (responses * 2 ^ 19) := by
  induction responses with
  | zero =>
      exact ⟨_, rfl, wf_firstConn, by decide +kernel, ⟨firstClient, by decide +kernel, rfl,
        holds_sdsempty⟩, by decide +kernel, by decide +kernel⟩
  | succ responses ih =>
      rw [Nat.succ_mul] at fits ⊢
      obtain ⟨r, ran, backlog⟩ := ih (Nat.lt_of_le_of_lt (Nat.le_add_right _ _) fits)
      obtain ⟨r', stepped, backlog'⟩ := backlog.step fits
      exact ⟨r', run_concat ran stepped, backlog'⟩

/-- **A client that reads nothing loses its responses.** After 4096 responses of 2 ^ 19
bytes `sendbuf` has a negative length. -/
theorem sendbuf_lost :
    ∃ r c, run ConnRun.step (ConnRun.init defaultBoot)
        (firstAccept :: List.replicate 4096 (zeroResponse (2 ^ 19))) = some r ∧
      r.proc.heap 1 = some c ∧
      (r.hist 1).written ++ c.sendbuf.content ≠ (r.hist 1).appended := by
  obtain ⟨r, ran, backlog⟩ := backlog_of_run 4095 (by decide)
  obtain ⟨r', c, stepped, live, lost⟩ :=
    backlog.overflow (k := 2 ^ 19) (by decide +kernel) (by decide +kernel)
  exact ⟨r', c, run_cons step_firstAccept (run_concat ran stepped), live, lost⟩

end Verben
