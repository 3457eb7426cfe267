import Verben.Conn.Receive
import Verben.Conn.Send
import Verben.Server.Answer

/-!
# One worker, and the echo plugin

With one worker the answers come in the order of the frames: what was appended to the
`sendbuf` of an open connection, and the answers to its requests in flight, are the
answers to all frames pushed for it, one after the other (`one_worker_in_order`). With the
plugin of `plugins/echo/echo.c` these are the frames themselves, so the client gets back
the bytes that it sent: what `write` took, `sendbuf` and the messages in flight are the
bytes read, in this order (`echo_returns`).
-/

namespace Verben

open Transition

/-- The response to a request, with its bytes. -/
def Plugin.answer (plugin : Plugin) (q : Parcel) : Parcel := (q.1, (plugin q.1 q.2).returned)

/-- The response that a worker has, or is to make. -/
def Phase.pending (plugin : Plugin) : Phase → List Parcel
  | .idle => []
  | .holding m => [plugin.answer m.parcel]
  | .replying m => [m.parcel]
  | .notifying => []

/-- The responses to the requests in flight, in the order in which they will be taken. -/
def Server.pending (plugin : Plugin) (s : Server Unit) : List Parcel :=
  s.sendQueue.map Datagram.parcel ++ (s.worker ()).phase.pending plugin ++
    s.recvQueue.map fun m => plugin.answer m.parcel

section Order

variable {plugin : Plugin} {r : ServerRun Unit} {s' : Server Unit} {act : ServerAct Unit}

/-- The responses taken and those to come are the answers to the frames, in order. -/
def ServerRun.InOrder (plugin : Plugin) (r : ServerRun Unit) : Prop :=
  r.taken ++ r.server.pending plugin = r.framed.map plugin.answer

theorem ServerRun.InOrder.next (inOrder : r.InOrder plugin) (stores : plugin.Stores)
    (wf : r.server.conn.Wf) (guard : Serves plugin r act) (moves : r.server.Moves act s') :
    (r.next act s').InOrder plugin := by
  change (r.next act s').taken ++ s'.pending plugin = (r.next act s').framed.map plugin.answer
  unfold ServerRun.InOrder Server.pending at inOrder
  unfold Server.pending
  cases moves with
  | quiet loop stepped plain =>
      rw [framed_next_quiet _ stepped plain.not_pushed, taken_next]
      exact inOrder
  | opened loop stepped addr absent plain =>
      rw [framed_next_quiet _ stepped (not_pushed_of_opened plain), taken_next]
      exact inOrder
  | framed loop stepped live fd plain =>
      rw [framed_next _ stepped plain, taken_next]
      simp only [List.map_append, ← List.append_assoc] at inOrder ⊢
      rw [inOrder]
      rfl
  | wake loop read =>
      rw [next_still _ rfl rfl rfl]
      exact inOrder
  | finish empty =>
      rw [next_still _ (said_finish empty).1 (said_finish empty).2 rfl]
      exact inOrder
  | discard draining queue stepped =>
      rw [framed_next_drain _ wf queue stepped, taken_next_drain _ queue, ← inOrder, queue]
      simp
  | append draining queue stepped live fd =>
      rw [framed_next_drain _ wf queue stepped, taken_next_drain _ queue, ← inOrder, queue]
      simp
  | pop idle queue =>
      rw [next_still _ rfl rfl rfl, ← inOrder, queue, idle, worker_setWorker_self]
      simp [Server.setWorker, Phase.pending]
  | process holding replied =>
      rw [next_still _ rfl rfl rfl, ← inOrder, holding, worker_setWorker_self]
      have data := data_of_replied stores guard.2 holding replied
      simp [Server.setWorker, Phase.pending, Datagram.parcel, Plugin.answer, data]
  | push replying =>
      rw [next_still _ rfl rfl rfl, ← inOrder, replying, worker_setWorker_self]
      simp [Server.setWorker, Phase.pending]
  | notify notifying =>
      rw [next_still _ rfl rfl rfl, ← inOrder, notifying, worker_setWorker_self]
      simp [Server.setWorker, Phase.pending]

theorem ServerRun.inOrder_of_reach {boot : ServerBoot Unit} (stores : plugin.Stores)
    (reach : Reach ServerRun.step (Serves plugin) (ServerRun.init boot) r) : r.InOrder plugin :=
  ServerRun.holds_of_reach reach rfl fun wf inOrder guard _ moves =>
    inOrder.next stores wf guard moves

end Order

/-- **With one worker the answers come in the order of the frames.** Whatever the plugin
answers, in every state that a run reaches, for every open connection: what was appended to
its `sendbuf`, followed by the responses to its requests in flight, is what it was welcomed
with and the answers to the frames pushed for it, in their order. -/
theorem one_worker_in_order {plugin : Plugin} {boot : ServerBoot Unit} {r : ServerRun Unit}
    (stores : plugin.Stores)
    (reach : Reach ServerRun.step (Serves plugin) (ServerRun.init boot) r) {cli : Nat}
    {c : ClientConn} (live : r.server.conn.heap cli = some c) :
    (r.hist cli).frames = parcelsTo (r.server.serial cli) r.framed ∧
    (r.hist cli).appended ++
        (parcelsTo (r.server.serial cli) (r.server.pending plugin)).flatten =
      r.welcome cli ++ (parcelsTo (r.server.serial cli) (r.framed.map plugin.answer)).flatten := by
  have told := (ServerRun.served_of_reach stores reach).told live
  have inOrder : r.taken ++ r.server.pending plugin = r.framed.map plugin.answer :=
    ServerRun.inOrder_of_reach stores reach
  refine ⟨told.frames, ?_⟩
  rw [told.appended, ← inOrder, parcelsTo_append, List.flatten_append, List.append_assoc]

/-! ## The echo plugin -/

/-- `handle_input` of the plugin. -/
def echoHandleInput (buf : List UInt8) : Int := buf.length

/-- `handle_process` of the plugin, which returns `VERBEN_OK`. -/
def echoHandleProcess (rcvbuf : List UInt8) : ProcessAnswer := ⟨0, some rcvbuf, some rcvbuf.length⟩

def echoPlugin : Plugin := fun _ data => echoHandleProcess data

theorem echoPlugin_stores : echoPlugin.Stores :=
  fun _ _ => .inl ⟨(by decide : (0 : Int) ≠ verbenError), rfl, rfl⟩

theorem echoPlugin_returned (q : Request) (data : List UInt8) :
    (echoPlugin q data).returned = data := by
  simp [echoPlugin, echoHandleProcess, ProcessAnswer.returned, verbenError]

theorem echoPlugin_answer (q : Parcel) : echoPlugin.answer q = q := by
  unfold Plugin.answer
  rw [echoPlugin_returned]

/-- The bytes that `read` gave. -/
def ReadResult.bytes : ReadResult → Option (List UInt8)
  | .data bytes => some bytes
  | .again => none
  | .error => none

/-- `handle_input` answers as the plugin does, which has no `handle_open`. -/
def EchoReads (r : ConnRun) : ConnAct → Prop
  | .accept _ _ _ env => env.handleOpen.isNone
  | .readable fd env =>
      ∀ c ∈ r.proc.clientAt fd, ∀ bytes ∈ env.result.bytes,
        env.handleInput (c.recvbuf.content ++ bytes) =
          echoHandleInput (c.recvbuf.content ++ bytes)
  | _ => True

instance (r : ConnRun) : (act : ConnAct) → Decidable (EchoReads r act)
  | .accept _ _ _ _ => inferInstanceAs (Decidable (_ = true))
  | .readable fd env =>
      inferInstanceAs (Decidable (∀ c ∈ r.proc.clientAt fd, ∀ bytes ∈ env.result.bytes,
        env.handleInput (c.recvbuf.content ++ bytes) =
          echoHandleInput (c.recvbuf.content ++ bytes)))
  | .writable _ _ => .isTrue trivial
  | .message _ _ => .isTrue trivial
  | .cron _ => .isTrue trivial

/-- The server has the echo plugin, and `sendbuf` fits an `int`. -/
def EchoServes (r : ServerRun Unit) (act : ServerAct Unit) : Prop :=
  Serves echoPlugin r act ∧
    ∀ a ∈ r.server.connAct act, EchoReads r.connRun a ∧ AppendFits r.connRun a

instance (r : ServerRun Unit) (act : ServerAct Unit) : Decidable (EchoServes r act) :=
  inferInstanceAs (Decidable (_ ∧ ∀ a ∈ r.server.connAct act, _ ∧ _))

section Echo

variable {h : Hist} {c c' : ClientConn} {bytes : List UInt8}

/-- What is read is a frame of its own: nothing is left of it. -/
structure Echoes (h : Hist) (c : ClientConn) : Prop where
  receives : Receives h c []
  asks : c.recvProtLen = 0

theorem fits_of_short (short : bytes.length < iobufSize) :
    ([] : List UInt8).length + bytes.length < 2 ^ 31 := by
  unfold iobufSize at short
  rw [List.length_nil]
  omega

theorem Echoes.receive (echoes : Echoes h c) {handleInput : List UInt8 → Int}
    (echo : handleInput bytes = bytes.length) (short : bytes.length < iobufSize)
    (received : c.receive bytes handleInput = some c') :
    c'.recvbuf.Holds bytes ∧ c'.recvProtLen = bytes.length := by
  obtain ⟨recvbuf, eq, holds⟩ :=
    receive_of_holds handleInput echoes.receives.holds (fits_of_short short)
  cases eq.symm.trans received
  refine ⟨holds, ?_⟩
  simp only [echoes.asks, if_true, List.nil_append]
  exact echo

theorem Echoes.congr {h' : Hist} (echoes : Echoes h c) (recvbuf : c'.recvbuf = c.recvbuf)
    (recvProtLen : c'.recvProtLen = c.recvProtLen) (received : h'.received = h.received)
    (answers : h'.answers = h.answers) (frames : h'.frames = h.frames) : Echoes h' c' :=
  ⟨echoes.receives.congr recvbuf recvProtLen received answers frames,
    recvProtLen.trans echoes.asks⟩

theorem Opened.asks {p : ConnProc} {cli : Nat} {act : ConnAct} {events : List ConnEvent}
    {fe : AeFileEvent FileProc Nat} (opened : Opened p cli act events c fe) :
    c.recvProtLen = 0 := by
  cases opened <;> rfl

theorem echoes_of_effect {r : ConnRun} {act : ConnAct} {cli : Nat} {events : List ConnEvent}
    {fe fe' : AeFileEvent FileProc Nat} (reads : EchoReads r act) (wf : r.proc.Wf)
    (live : r.proc.heap cli = some c) (echoes : Echoes h c)
    (effect : Effect r.proc cli c fe act events c' fe') : Echoes (h.addAll events) c' := by
  have touched : Echoes h (c.touch r.proc.unixClock) := echoes.congr rfl rfl rfl rfl rfl
  have answer : ∀ {env bytes}, act = .readable c.fd env → env.result = .data bytes →
      env.handleInput bytes = bytes.length := by
    intro env bytes same result
    subst same
    have asked := reads c (wf.clientAt_eq live) bytes (by rw [result]; rfl)
    rwa [echoes.receives.holds.content_eq, List.nil_append] at asked
  cases effect with
  | again result => exact touched
  | wait result nonempty short received verdict =>
      -- the frame is whole, so the connection does not wait
      obtain ⟨holds, len⟩ := touched.receive (answer rfl result) short received
      have some := List.length_pos_iff.mpr nonempty
      have waits := pending_of_wait holds verdict
      omega
  | @frame env bytes data _ _ result nonempty short received verdict consume =>
      obtain ⟨holds, len⟩ := touched.receive (answer rfl result) short received
      obtain ⟨_, len', _, _⟩ := take_of_frame holds verdict
      constructor
      · have whole : [] = ([] ++ bytes).drop data.length := by
          rw [List.nil_append, List.drop_eq_nil_iff.mpr (by omega)]
        rw [whole]
        exact touched.receives.frame (fits_of_short short) received verdict consume rfl
      · obtain ⟨recvbuf, _, same⟩ := Option.map_eq_some_iff.mp consume
        cases same
        rfl
  | drained took all clear stay unset =>
      obtain ⟨bytes, same, _⟩ := Hist.addAll_took h cli took
      rw [same]
      exact echoes.congr rfl rfl rfl rfl rfl
  | shifted took part range =>
      obtain ⟨bytes, same, _⟩ := Hist.addAll_took h cli took
      rw [same]
      exact echoes.congr rfl rfl rfl rfl rfl
  | responded pid vec fd target flag cat set =>
      simp only [Hist.addAll_append, Hist.addAll_asked, Hist.addAll_cons, Hist.addAll_nil,
        Hist.add]
      exact echoes.congr rfl rfl rfl rfl rfl

/-- What a server with the echo plugin keeps of every connection. -/
theorem ServerRun.echoes_of_reach {boot : ServerBoot Unit} {r : ServerRun Unit}
    (reach : Reach ServerRun.step EchoServes (ServerRun.init boot) r) {cli : Nat}
    (live : r.server.conn.heap cli = some c) :
    (r.hist cli).frames.flatten = (r.hist cli).received ∧
      (r.hist cli).written ++ c.sendbuf.content = (r.hist cli).appended := by
  have ran : Reach ConnRun.step (fun r act => EchoReads r act ∧ AppendFits r act)
      (ConnRun.init boot.toConnBoot) r.connRun :=
    ServerRun.reach_connRun (fun guard callback => guard.2 _ callback) reach
  obtain ⟨_, each⟩ := each_of_reach
    (Q := fun h c fe => Echoes h c ∧ ∃ buf, Sends h c fe buf) ran
    (fun h guard opened =>
      ⟨⟨receives_of_opened h opened, opened.asks⟩, sends_of_opened h guard.2 opened⟩)
    (fun guard wf live both effect => by
      obtain ⟨echoes, buf, sends⟩ := both
      exact ⟨echoes_of_effect guard.1 wf live echoes effect,
        sends_of_effect guard.2 wf live sends effect⟩)
  obtain ⟨echoes, buf, sends⟩ := each live
  constructor
  · have bytes := echoes.receives.bytes
    rwa [List.append_nil] at bytes
  · rw [sends.holds.content_eq]
    exact sends.bytes

/-- Nobody is welcomed. -/
theorem ServerRun.welcome_of_reach {boot : ServerBoot Unit} {r : ServerRun Unit}
    (reach : Reach ServerRun.step EchoServes (ServerRun.init boot) r) (cli : Nat) :
    r.welcome cli = [] := by
  refine reach.invariant (P := fun r => ∀ cli, r.welcome cli = []) (fun _ => rfl) ?_ cli
  intro r act r' silent guard stepped cli
  obtain ⟨s', step, rfl⟩ := Option.map_eq_some_iff.mp stepped
  change recordWelcome r.welcome act cli = []
  unfold recordWelcome
  split
  · split
    · have none := (guard.2 _ rfl).1
      unfold AcceptEnv.welcome
      rw [Option.isNone_iff_eq_none.mp none]
    · exact silent cli
  · exact silent cli

end Echo

/-- **The client gets back what it sent.** With one worker and the echo plugin, in every
state that a run reaches in which no `accept` gives the address and the fd of a message in
flight and `sendbuf` stays below 2 ^ 31 bytes, for every open connection: the bytes read
from it are those written to it, those in `sendbuf`, and those of its messages in flight,
in this order. -/
theorem echo_returns {boot : ServerBoot Unit} {r : ServerRun Unit}
    (reach : Reach ServerRun.step EchoServes (ServerRun.init boot) r) {cli : Nat} {c : ClientConn}
    (live : r.server.conn.heap cli = some c) :
    (r.hist cli).received =
      (r.hist cli).written ++ c.sendbuf.content ++
        (parcelsTo (r.server.serial cli) (r.server.pending echoPlugin)).flatten := by
  have served : Reach ServerRun.step (Serves echoPlugin) (ServerRun.init boot) r :=
    reach.weaken fun guard => guard.1
  obtain ⟨received, appended⟩ := ServerRun.echoes_of_reach reach live
  have told := (ServerRun.served_of_reach echoPlugin_stores served).told live
  have inOrder : r.taken ++ r.server.pending echoPlugin = r.framed.map echoPlugin.answer :=
    ServerRun.inOrder_of_reach echoPlugin_stores served
  have same : r.framed.map echoPlugin.answer = r.framed :=
    List.map_id'' echoPlugin_answer r.framed
  rw [← received, told.frames, ← same, ← inOrder, appended, told.appended,
    ServerRun.welcome_of_reach reach, List.nil_append, parcelsTo_append, List.flatten_append]

/-- A client sends two bytes and then one, and one byte is written to it. -/
def echoRun : List (ServerAct Unit) :=
  [.conn firstAccept, .conn (.readable 7 (readOk [65, 66] fun b => b.length)), .pop (),
    .process () ⟨0, some [65, 66], some 2⟩ (some fun _ => 0), .push (), .notify (),
    .conn (.readable 7 (readOk [67] fun b => b.length)), .wake, .drain true,
    .drain true, .conn (.writable 7 (.wrote 1))]

theorem one_worker_in_order_two :
    ∃ r c, runGuarded ServerRun.step (Serves echoPlugin) (ServerRun.init (defaultServer Unit))
        echoRun = some r ∧ r.server.conn.heap 1 = some c ∧
      (r.hist 1).frames = parcelsTo (r.server.serial 1) r.framed ∧
      (r.hist 1).appended ++
          (parcelsTo (r.server.serial 1) (r.server.pending echoPlugin)).flatten =
        r.welcome 1 ++
          (parcelsTo (r.server.serial 1) (r.framed.map echoPlugin.answer)).flatten := by
  have evaluated : ((runGuarded ServerRun.step (Serves echoPlugin)
      (ServerRun.init (defaultServer Unit)) echoRun).bind
        fun r => r.server.conn.heap 1).isSome = true := by
    decide +kernel
  obtain ⟨c, found⟩ := Option.isSome_iff_exists.mp evaluated
  obtain ⟨r, ran, live⟩ := Option.bind_eq_some_iff.mp found
  exact ⟨r, c, ran, live, one_worker_in_order echoPlugin_stores (reach_of_runGuarded ran) live⟩

theorem echo_returns_two :
    ∃ r c, runGuarded ServerRun.step EchoServes (ServerRun.init (defaultServer Unit)) echoRun =
        some r ∧ r.server.conn.heap 1 = some c ∧
      (r.hist 1).received =
        (r.hist 1).written ++ c.sendbuf.content ++
          (parcelsTo (r.server.serial 1) (r.server.pending echoPlugin)).flatten := by
  have evaluated : ((runGuarded ServerRun.step EchoServes (ServerRun.init (defaultServer Unit))
      echoRun).bind fun r => r.server.conn.heap 1).isSome = true := by
    decide +kernel
  obtain ⟨c, found⟩ := Option.isSome_iff_exists.mp evaluated
  obtain ⟨r, ran, live⟩ := Option.bind_eq_some_iff.mp found
  exact ⟨r, c, ran, live, echo_returns (reach_of_runGuarded ran) live⟩

end Verben
