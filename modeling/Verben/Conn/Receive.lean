import Verben.Conn.History
import Verben.Sds.Content

/-!
# No byte read is lost

The receiving half of a connection: in every state of every run, the frames pushed
for a connection followed by its `recvbuf` are the bytes that were read, and every
frame is as long as `handle_input` said. The runs are those in which `recvbuf`
stays below 2 ^ 31 bytes. Past that its `len` is negative, and the string is lost
(`recvbuf_lost`).
-/

namespace Verben

open CInt Transition

/-! ## The parts of a read -/

section Parts

variable {c c' : ClientConn} {buf bytes data : List UInt8} {handleInput : List UInt8 → Int}

/-- The bytes are appended, and an unknown length is what `handle_input` says of them. -/
theorem receive_of_holds (handleInput : List UInt8 → Int) (holds : c.recvbuf.Holds buf)
    (fits : buf.length + bytes.length < 2 ^ 31) :
    ∃ recvbuf, c.receive bytes handleInput = some { c with
        recvbuf := recvbuf
        recvProtLen := if c.recvProtLen = 0 then handleInput (buf ++ bytes) else c.recvProtLen } ∧
      recvbuf.Holds (buf ++ bytes) := by
  obtain ⟨recvbuf, cat, holds'⟩ := sdscatlen_of_holds holds fits
  refine ⟨recvbuf, ?_, holds'⟩
  unfold ClientConn.receive
  rw [cat, Option.map_some, holds'.content_eq]

/-- A connection waits for an unknown length, or for the rest of a frame. -/
theorem pending_of_wait (holds : c.recvbuf.Holds buf) (verdict : c.verdict = some .wait) :
    c.recvProtLen = 0 ∨ (buf.length < c.recvProtLen ∧ c.recvProtLen ≤ maxProtLen) := by
  unfold ClientConn.verdict maxProtLen at verdict
  rw [holds.sdslen_eq] at verdict
  split at verdict
  · cases verdict
  · split at verdict
    · exact .inl ‹_›
    · split at verdict
      · obtain ⟨_, _, same⟩ := Option.map_eq_some_iff.mp verdict
        cases same
      · next short =>
          rw [toUInt64_of_range (by omega) (by omega)] at short
          unfold maxProtLen
          omega

/-- A frame is the part of `recvbuf` that `recv_prot_len` counts. -/
theorem take_of_frame (holds : c.recvbuf.Holds buf) (verdict : c.verdict = some (.frame data)) :
    data = buf.take data.length ∧ c.recvProtLen = data.length ∧ 1 ≤ data.length ∧
      (data.length : Int) ≤ maxProtLen := by
  unfold ClientConn.verdict maxProtLen at verdict
  rw [holds.sdslen_eq] at verdict
  split at verdict
  · cases verdict
  · split at verdict
    · cases verdict
    · split at verdict
      · next whole =>
          rw [toUInt64_of_range (by omega) (by omega)] at whole
          obtain ⟨n, len⟩ := Int.eq_ofNat_of_zero_le (a := c.recvProtLen) (by omega)
          have taken : (buf.take n).length = n := List.length_take_of_le (by omega)
          have starts : c.recvbuf.buf.Starts (buf.take n ++ buf.drop n) := by
            rw [List.take_append_drop]
            exact holds.data.of_append
          have load := starts.load
          rw [taken] at load
          rw [len, load] at verdict
          cases verdict
          unfold maxProtLen
          rw [taken]
          exact ⟨rfl, len, by omega, by omega⟩
      · cases verdict

/-- A frame that was pushed leaves `recvbuf`. -/
theorem consume_of_holds (holds : c.recvbuf.Holds buf) {n : Nat} (len : c.recvProtLen = n)
    (inside : n ≤ buf.length) :
    ∃ recvbuf, c.consume = some { c with recvbuf := recvbuf, recvProtLen := 0 } ∧
      recvbuf.Holds (buf.drop n) := by
  obtain ⟨recvbuf, range, holds'⟩ := sdsrange_of_holds holds inside
  refine ⟨recvbuf, ?_, holds'⟩
  unfold ClientConn.consume
  rw [len, range]
  rfl

end Parts

/-! ## The invariant -/

/-- The lengths `handle_input` gave that are not used up: the pending one, if any. -/
def pendingLen (c : ClientConn) : List Int := if c.recvProtLen = 0 then [] else [c.recvProtLen]

/-- `recvbuf` holds what was read and not pushed, and the pushed frames are as long
as the answers of `handle_input`. -/
structure Receives (h : Hist) (c : ClientConn) (buf : List UInt8) : Prop where
  holds : c.recvbuf.Holds buf
  bytes : h.frames.flatten ++ buf = h.received
  lengths : h.answers.filter (· ≠ 0) = h.frames.map (fun f => (f.length : Int)) ++ pendingLen c
  frames : ∀ f ∈ h.frames, 1 ≤ f.length ∧ (f.length : Int) ≤ maxProtLen
  pending : c.recvProtLen = 0 ∨ (buf.length < c.recvProtLen ∧ c.recvProtLen ≤ maxProtLen)

/-- How many bytes `recvbuf` holds for an fd. -/
def ConnProc.recvbufLen (p : ConnProc) (fd : Nat) : Nat :=
  match p.clientAt fd with
  | some c => c.recvbuf.content.length
  | none => 0

/-- How many bytes `read` gave. -/
def ReadResult.length : ReadResult → Nat
  | .data bytes => bytes.length
  | .again => 0
  | .error => 0

/-- `recvbuf` and the bytes of a read fit an `int`. -/
def ReadFits (r : ConnRun) : ConnAct → Prop
  | .readable fd env => r.proc.recvbufLen fd + env.result.length < 2 ^ 31
  | _ => True

instance (r : ConnRun) : (act : ConnAct) → Decidable (ReadFits r act)
  | .readable _ _ => inferInstanceAs (Decidable (_ < _))
  | .accept _ _ _ _ => .isTrue trivial
  | .writable _ _ => .isTrue trivial
  | .message _ _ => .isTrue trivial
  | .cron _ => .isTrue trivial

section Invariant

variable {h : Hist} {c c' : ClientConn} {buf bytes : List UInt8} {handleInput : List UInt8 → Int}

/-- The lengths after a read: an unknown one is asked for, a known one stays. -/
theorem lengths_of_receive (receives : Receives h c buf)
    (fits : buf.length + bytes.length < 2 ^ 31)
    (received : c.receive bytes handleInput = some c') :
    (h.answers ++ if c.recvProtLen = 0 then [c'.recvProtLen] else []).filter (· ≠ 0) =
      h.frames.map (fun f => (f.length : Int)) ++ pendingLen c' := by
  have before := receives.lengths
  have len : c'.recvProtLen =
      if c.recvProtLen = 0 then handleInput (buf ++ bytes) else c.recvProtLen := by
    obtain ⟨recvbuf, eq, _⟩ := receive_of_holds handleInput receives.holds fits
    cases eq.symm.trans received
    rfl
  unfold pendingLen at before ⊢
  by_cases unknown : c.recvProtLen = 0
  · rw [if_pos unknown, List.append_nil] at before
    rw [if_pos unknown, List.filter_append, before]
    by_cases zero : c'.recvProtLen = 0 <;> simp [zero]
  · rw [if_neg unknown] at before
    rw [if_neg unknown] at len
    rw [if_neg unknown, List.append_nil, before, len, if_neg unknown]

theorem Receives.wait {cli : Nat} (receives : Receives h c buf)
    (fits : buf.length + bytes.length < 2 ^ 31)
    (received : c.receive bytes handleInput = some c') (verdict : c'.verdict = some .wait) :
    Receives (h.addAll (.received cli bytes :: answeredEvents cli c c')) c' (buf ++ bytes) := by
  obtain ⟨recvbuf, eq, holds⟩ := receive_of_holds handleInput receives.holds fits
  have lengths := lengths_of_receive receives fits received
  cases eq.symm.trans received
  refine ⟨holds, ?_, ?_, ?_, pending_of_wait holds verdict⟩
  · simp only [Hist.addAll_cons, Hist.addAll_answered, Hist.add]
    rw [← receives.bytes, List.append_assoc]
  · simp only [Hist.addAll_cons, Hist.addAll_answered, Hist.add]
    exact lengths
  · simp only [Hist.addAll_cons, Hist.addAll_answered, Hist.add]
    exact receives.frames

theorem Receives.frame {cli : Nat} {data : List UInt8} {c'' : ClientConn} {msg : ShmMsg}
    (receives : Receives h c buf) (fits : buf.length + bytes.length < 2 ^ 31)
    (received : c.receive bytes handleInput = some c')
    (verdict : c'.verdict = some (.frame data)) (consumed : c'.consume = some c'')
    (payload : msg.data = data) :
    Receives (h.addAll (.received cli bytes :: answeredEvents cli c c' ++ [.pushed msg])) c''
      ((buf ++ bytes).drop data.length) := by
  obtain ⟨recvbuf, eq, holds⟩ := receive_of_holds handleInput receives.holds fits
  have lengths := lengths_of_receive receives fits received
  cases eq.symm.trans received
  obtain ⟨taken, len, positive, most⟩ := take_of_frame holds verdict
  have inside : data.length ≤ (buf ++ bytes).length := by
    have := congrArg List.length taken
    rw [List.length_take] at this
    omega
  obtain ⟨recvbuf', eq', holds'⟩ := consume_of_holds holds len inside
  cases eq'.symm.trans consumed
  refine ⟨holds', ?_, ?_, ?_, .inl rfl⟩
  · simp only [List.cons_append, Hist.addAll_cons, Hist.addAll_append, Hist.addAll_answered,
      Hist.addAll_nil, Hist.add, payload, List.flatten_append, List.flatten_singleton]
    nth_rewrite 1 [taken]
    rw [List.append_assoc, List.take_append_drop, ← List.append_assoc, receives.bytes]
  · simp only [List.cons_append, Hist.addAll_cons, Hist.addAll_append, Hist.addAll_answered,
      Hist.addAll_nil, Hist.add, payload, List.map_append, List.map_singleton]
    have nonzero : (data.length : Int) ≠ 0 := by omega
    rw [lengths]
    unfold pendingLen
    simp only at len
    rw [len, if_neg nonzero, if_pos rfl, List.append_nil]
  · simp only [List.cons_append, Hist.addAll_cons, Hist.addAll_append, Hist.addAll_answered,
      Hist.addAll_nil, Hist.add, payload]
    intro f mem
    rcases List.mem_append.mp mem with mem | mem
    · exact receives.frames f mem
    · rw [List.mem_singleton.mp mem]
      exact ⟨positive, most⟩

/-- Effects on the sending half leave the receiving half alone. -/
theorem Receives.congr {h' : Hist} (receives : Receives h c buf) (recvbuf : c'.recvbuf = c.recvbuf)
    (recvProtLen : c'.recvProtLen = c.recvProtLen) (received : h'.received = h.received)
    (answers : h'.answers = h.answers) (frames : h'.frames = h.frames) :
    Receives h' c' buf := by
  refine ⟨recvbuf ▸ receives.holds, ?_, ?_, frames ▸ receives.frames, ?_⟩
  · rw [frames, received]
    exact receives.bytes
  · unfold pendingLen
    rw [answers, frames, recvProtLen]
    exact receives.lengths
  · rw [recvProtLen]
    exact receives.pending

theorem receives_nothing {h : Hist} (recvbuf : c.recvbuf = sdsempty)
    (recvProtLen : c.recvProtLen = 0) (received : h.received = []) (answers : h.answers = [])
    (frames : h.frames = []) : Receives h c [] := by
  refine ⟨recvbuf ▸ holds_sdsempty, ?_, ?_, ?_, .inl recvProtLen⟩
  · rw [frames, received]
    rfl
  · unfold pendingLen
    rw [answers, frames, recvProtLen]
    rfl
  · rw [frames]
    intro f mem
    cases mem

/-- A connection has received nothing when it is opened. -/
theorem receives_of_opened {p : ConnProc} {cli : Nat} {act : ConnAct} {events : List ConnEvent}
    {fe : AeFileEvent FileProc Nat} (h : Hist) (opened : Opened p cli act events c fe) :
    Receives (h.addAll events) c [] := by
  cases opened with
  | silent addr handleOpen => exact receives_nothing rfl rfl rfl rfl rfl
  | quiet addr handleOpen retbuf =>
      simp only [Hist.addAll_cons, Hist.add, Hist.addAll_asked]
      exact receives_nothing rfl rfl rfl rfl rfl
  | welcomed addr handleOpen retbuf cat set =>
      simp only [List.cons_append, Hist.addAll_cons, Hist.addAll_append, Hist.addAll_asked,
        Hist.addAll_nil, Hist.add]
      exact receives_nothing rfl rfl rfl rfl rfl

/-- Every effect keeps the receiving half of its connection. -/
theorem receives_of_effect {r : ConnRun} {act : ConnAct} {cli : Nat} {events : List ConnEvent}
    {fe fe' : AeFileEvent FileProc Nat} (fits : ReadFits r act) (wf : r.proc.Wf)
    (live : r.proc.heap cli = some c) (receives : Receives h c buf)
    (effect : Effect r.proc cli c fe act events c' fe') :
    ∃ buf', Receives (h.addAll events) c' buf' := by
  have touched : Receives h (c.touch r.proc.unixClock) buf :=
    receives.congr rfl rfl rfl rfl rfl
  have room : ∀ {env bytes}, act = .readable c.fd env → env.result = .data bytes →
      buf.length + bytes.length < 2 ^ 31 := by
    intro env bytes same result
    subst same
    simp only [ReadFits, ConnProc.recvbufLen, ReadResult.length, wf.clientAt_eq live, result,
      receives.holds.content_eq] at fits
    exact fits
  cases effect with
  | again result => exact ⟨_, touched⟩
  | wait result nonempty short received verdict =>
      exact ⟨_, touched.wait (room rfl result) received verdict⟩
  | frame result nonempty short received verdict consume =>
      exact ⟨_, touched.frame (room rfl result) received verdict consume rfl⟩
  | drained took all clear stay unset =>
      obtain ⟨bytes, same, _⟩ := Hist.addAll_took h cli took
      rw [same]
      exact ⟨_, receives.congr rfl rfl rfl rfl rfl⟩
  | shifted took part range =>
      obtain ⟨bytes, same, _⟩ := Hist.addAll_took h cli took
      rw [same]
      exact ⟨_, receives.congr rfl rfl rfl rfl rfl⟩
  | responded pid vec fd target flag cat set =>
      simp only [Hist.addAll_append, Hist.addAll_asked, Hist.addAll_cons, Hist.addAll_nil,
        Hist.add]
      exact ⟨_, receives.congr rfl rfl rfl rfl rfl⟩

end Invariant

/-- **No byte is lost, and every frame is as long as it should be.** In every state
that a run reaches in which each read leaves `recvbuf` below 2 ^ 31 bytes, for every
connection that is open: the frames pushed for it followed by `recvbuf` are the bytes
read from it; each frame has 1 to `MAX_PROT_LEN` bytes, and the lengths of the frames,
followed by the pending `recv_prot_len`, are the answers of `handle_input` other than
0; `recv_prot_len` is 0 or greater than the length of `recvbuf`. -/
theorem received_bytes_kept {boot : ConnBoot} {r : ConnRun}
    (reach : Reach ConnRun.step ReadFits (ConnRun.init boot) r) {cli : Nat} {c : ClientConn}
    (live : r.proc.heap cli = some c) :
    (r.hist cli).frames.flatten ++ c.recvbuf.content = (r.hist cli).received ∧
    (∀ f ∈ (r.hist cli).frames, 1 ≤ f.length ∧ (f.length : Int) ≤ maxProtLen) ∧
    (r.hist cli).answers.filter (· ≠ 0) =
      (r.hist cli).frames.map (fun f => (f.length : Int)) ++ pendingLen c ∧
    (c.recvProtLen = 0 ∨ (c.recvbuf.content.length : Int) < c.recvProtLen) := by
  obtain ⟨_, each⟩ := each_of_reach (Q := fun h c _ => ∃ buf, Receives h c buf) reach
    (fun h _ opened => ⟨[], receives_of_opened h opened⟩)
    (fun fits wf live ⟨_, receives⟩ effect => receives_of_effect fits wf live receives effect)
  obtain ⟨buf, receives⟩ := each live
  rw [receives.holds.content_eq]
  exact ⟨receives.bytes, receives.frames, receives.lengths, receives.pending.imp_right And.left⟩

/-- A connection that sends three bytes, of which `handle_input` takes two. -/
theorem received_bytes_kept_three :
    ∃ r c, runGuarded ConnRun.step ReadFits (ConnRun.init defaultBoot)
        [firstAccept, .readable 7 (readOk [1, 2, 3] fun _ => 2)] =
          some r ∧ r.proc.heap 1 = some c ∧
      (r.hist 1).frames.flatten ++ c.recvbuf.content = (r.hist 1).received ∧
      (∀ f ∈ (r.hist 1).frames, 1 ≤ f.length ∧ (f.length : Int) ≤ maxProtLen) ∧
      (r.hist 1).answers.filter (· ≠ 0) =
        (r.hist 1).frames.map (fun f => (f.length : Int)) ++ pendingLen c ∧
      (c.recvProtLen = 0 ∨ (c.recvbuf.content.length : Int) < c.recvProtLen) := by
  have evaluated : ((runGuarded ConnRun.step ReadFits (ConnRun.init defaultBoot)
      [firstAccept,
        .readable 7 (readOk [1, 2, 3] fun _ => 2)]).bind fun r => r.proc.heap 1).isSome = true := by
    decide +kernel
  obtain ⟨c, found⟩ := Option.isSome_iff_exists.mp evaluated
  obtain ⟨r, ran, live⟩ := Option.bind_eq_some_iff.mp found
  exact ⟨r, c, ran, live, received_bytes_kept (reach_of_runGuarded ran) live⟩

/-! ## Reads that go through -/

section Reads

variable {r : ConnRun} {cli : Nat} {c c' : ClientConn} {bytes : List UInt8}
  {handleInput : List UInt8 → Int}

/-- The events of a read, with those of the dispatch behind it. -/
def readEvents (r : ConnRun) (cli : Nat) (c c' : ClientConn) (bytes : List UInt8)
    (dispatched : List ConnEvent) : List ConnEvent :=
  .received cli bytes :: answeredEvents cli (c.touch r.proc.unixClock) c' ++ dispatched

theorem hist_readEvents {dispatched : List ConnEvent} (about : ∀ e ∈ dispatched, e.cli = cli) :
    (readEvents r cli c c' bytes dispatched).foldl recordEvent r.hist cli =
      ({ r.hist cli with
        received := (r.hist cli).received ++ bytes
        answers := (r.hist cli).answers ++
          if (c.touch r.proc.unixClock).recvProtLen = 0 then [c'.recvProtLen] else [] } :
        Hist).addAll dispatched := by
  have about' : ∀ e ∈ readEvents r cli c c' bytes dispatched, e.cli = cli := by
    intro e mem
    rcases List.mem_append.mp mem with mem | mem
    · rcases List.mem_cons.mp mem with rfl | mem
      · rfl
      · exact answeredEvents_about _ _ _ e mem
    · exact about e mem
  rw [recordEvents_of_about r.hist about']
  unfold readEvents
  rw [Hist.addAll_append, Hist.addAll_cons, Hist.addAll_answered]
  rfl

variable (wf : r.proc.Wf) (live : r.proc.heap cli = some c) (nonempty : bytes ≠ [])
  (short : bytes.length < iobufSize)

include wf live nonempty short

/-- A read whose bytes cannot be appended does not return. -/
theorem ConnRun.step_of_refused
    (refused : (c.touch r.proc.unixClock).receive bytes handleInput = none) :
    r.step (.readable c.fd (readOk bytes handleInput)) = none := by
  unfold ConnRun.step
  rw [wf.step_readable live, readFromClient_of_data live rfl nonempty short]
  change Option.map _ (Option.bind ((c.touch r.proc.unixClock).receive bytes handleInput) _) = _
  rw [refused]
  rfl

variable (received : (c.touch r.proc.unixClock).receive bytes handleInput = some c')

include received

/-- A read that completes no frame. -/
theorem ConnRun.step_of_wait (verdict : c'.verdict = some .wait) :
    ∃ r', r.step (.readable c.fd (readOk bytes handleInput)) = some r' ∧ r'.proc.Wf ∧
      r'.proc.heap cli = some c' ∧ (r'.hist cli).frames = (r.hist cli).frames ∧
      (r'.hist cli).received = (r.hist cli).received ++ bytes := by
  obtain ⟨fd, magic⟩ := receive_fd received
  have about : ∀ e ∈ ([] : List ConnEvent), e.cli = cli := by simp
  refine ⟨⟨r.proc.setClient cli c', (readEvents r cli c c' bytes []).foldl recordEvent r.hist⟩,
    ?_, wf.setClient live fd magic, heap_setClient_self .., ?_, ?_⟩
  · unfold ConnRun.step
    rw [wf.step_readable live, readFromClient_of_data live rfl nonempty short]
    change Option.map _ (Option.bind ((c.touch r.proc.unixClock).receive bytes handleInput) _) = _
    rw [received, Option.bind_some]
    unfold dispatchFrame
    rw [verdict]
    rfl
  · simp only [hist_readEvents about, Hist.addAll_nil]
  · simp only [hist_readEvents about, Hist.addAll_nil]

/-- A read that completes a frame. -/
theorem ConnRun.step_of_frame {data : List UInt8} (verdict : c'.verdict = some (.frame data))
    {c'' : ClientConn} (consumed : c'.consume = some c'') :
    ∃ r', r.step (.readable c.fd (readOk bytes handleInput)) = some r' ∧ r'.proc.Wf ∧
      r'.proc.heap cli = some c'' ∧ (r'.hist cli).frames = (r.hist cli).frames ++ [data] ∧
      (r'.hist cli).received = (r.hist cli).received ++ bytes := by
  obtain ⟨fd, magic⟩ := receive_fd received
  obtain ⟨fd', magic'⟩ := consume_fd consumed
  let msg := r.proc.message cli c' data
  have about : ∀ e ∈ [ConnEvent.pushed msg], e.cli = cli := by
    intro e mem
    rw [List.mem_singleton.mp mem]
    rfl
  have appended := wf.setClient live fd magic
  refine ⟨⟨(r.proc.setClient cli c').nextIdentifier.setClient cli c'',
    (readEvents r cli c c' bytes [.pushed msg]).foldl recordEvent r.hist⟩, ?_,
    appended.nextIdentifier.setClient (heap_setClient_self ..) fd' magic',
    heap_setClient_self .., ?_, ?_⟩
  · unfold ConnRun.step
    rw [wf.step_readable live, readFromClient_of_data live rfl nonempty short]
    change Option.map _ (Option.bind ((c.touch r.proc.unixClock).receive bytes handleInput) _) = _
    rw [received, Option.bind_some]
    unfold dispatchFrame
    rw [verdict, Option.bind_some]
    simp only [readOk, if_true, consumed]
    rfl
  · simp only [hist_readEvents about, Hist.addAll_cons, Hist.addAll_nil, Hist.add]
    rfl
  · simp only [hist_readEvents about, Hist.addAll_cons, Hist.addAll_nil, Hist.add]

end Reads

/-! ## Past 2 ^ 31 bytes -/

/-- The connection at 1 and fd 7 after `n` zeros of which `handle_input` knew nothing. -/
structure SilentBytes (r : ConnRun) (n : Nat) : Prop where
  wf : r.proc.Wf
  client : ∃ c, r.proc.heap 1 = some c ∧ c.fd = 7 ∧ c.recvProtLen = 0 ∧
    c.recvbuf.Holds (List.replicate n 0)
  received : (r.hist 1).received = List.replicate n 0
  frames : (r.hist 1).frames = []

/-- A read of `k` zeros, of which `handle_input` knows nothing. -/
def silentRead (k : Nat) : ConnAct := .readable 7 (readOk (List.replicate k 0) fun _ => 0)

/-- They are appended, whatever becomes of `recvbuf`. -/
theorem SilentBytes.read {r : ConnRun} {n k : Nat} (silent : SilentBytes r n) (some : 0 < k)
    (short : k < iobufSize) {c : ClientConn} (live : r.proc.heap 1 = .some c) (fd : c.fd = 7)
    (unknown : c.recvProtLen = 0) {recvbuf : Sds}
    (cat : sdscatlen c.recvbuf (List.replicate k 0) = .some recvbuf) :
    ∃ r', r.step (silentRead k) = .some r' ∧ r'.proc.Wf ∧
      r'.proc.heap 1 = .some { c with
        accessTime := r.proc.unixClock, recvbuf := recvbuf, recvProtLen := 0 } ∧
      (r'.hist 1).frames = [] ∧ (r'.hist 1).received = List.replicate (n + k) 0 := by
  have nonempty : List.replicate k (0 : UInt8) ≠ [] := by
    rw [Ne, List.replicate_eq_nil_iff]
    omega
  have received : (c.touch r.proc.unixClock).receive (List.replicate k 0) (fun _ => 0) =
      .some { c with accessTime := r.proc.unixClock, recvbuf := recvbuf, recvProtLen := 0 } := by
    unfold ClientConn.receive ClientConn.touch
    rw [cat, Option.map_some, if_pos unknown]
  obtain ⟨r', stepped, wf, live', frames, bytes⟩ := ConnRun.step_of_wait silent.wf live nonempty
    (by rwa [List.length_replicate]) received rfl
  rw [fd] at stepped
  rw [silent.frames] at frames
  rw [silent.received, List.replicate_append_replicate] at bytes
  exact ⟨r', stepped, wf, live', frames, bytes⟩

theorem SilentBytes.step {r : ConnRun} {n k : Nat} (silent : SilentBytes r n) (some : 0 < k)
    (short : k < iobufSize) (fits : n + k < 2 ^ 31) :
    ∃ r', r.step (silentRead k) = .some r' ∧ SilentBytes r' (n + k) := by
  rcases silent.client with ⟨c, live, fd, unknown, holds⟩
  obtain ⟨recvbuf, cat, holds'⟩ := sdscatlen_of_holds (t := List.replicate k 0) holds
    (by rw [List.length_replicate, List.length_replicate]; exact fits)
  obtain ⟨r', stepped, wf, live', frames, received⟩ :=
    silent.read some short live fd unknown cat
  rw [List.replicate_append_replicate] at holds'
  exact ⟨r', stepped, wf, ⟨_, live', fd, rfl, holds'⟩, received, frames⟩

/-- One silent read too many. -/
theorem SilentBytes.overflow {r : ConnRun} {n k : Nat} (silent : SilentBytes r n) (some : 0 < k)
    (short : k < iobufSize) (exceeds : 2 ^ 31 ≤ n + k) :
    ∃ r' c, r.step (silentRead k) = .some r' ∧ r'.proc.heap 1 = .some c ∧
      (r'.hist 1).frames.flatten ++ c.recvbuf.content ≠ (r'.hist 1).received := by
  rcases silent.client with ⟨c, live, fd, unknown, holds⟩
  have small : k < 2 ^ 31 := by
    unfold iobufSize at short
    omega
  obtain ⟨recvbuf, cat, wrapped⟩ := sdscatlen_of_overflow (t := List.replicate k 0) holds
    (by rw [List.length_replicate]; exact small)
    (by rw [List.length_replicate, List.length_replicate]; exact exceeds)
  obtain ⟨r', stepped, _, live', frames, received⟩ := silent.read some short live fd unknown cat
  refine ⟨r', _, stepped, live', ?_⟩
  rw [frames, received, wrapped.content_eq]
  intro equal
  have lengths := congrArg List.length equal
  rw [List.length_replicate] at lengths
  simp only [List.flatten_nil, List.append_nil, List.length_nil] at lengths
  omega

theorem silentBytes_of_run (reads : Nat) (fits : reads * 4095 < 2 ^ 31) :
    ∃ r, run ConnRun.step firstConn (List.replicate reads (silentRead 4095)) = some r ∧
      SilentBytes r (reads * 4095) := by
  induction reads with
  | zero =>
      exact ⟨_, rfl, wf_firstConn, ⟨firstClient, by decide +kernel, rfl, rfl, holds_sdsempty⟩,
        by decide +kernel, by decide +kernel⟩
  | succ reads ih =>
      rw [Nat.succ_mul] at fits ⊢
      obtain ⟨r, ran, silent⟩ := ih (Nat.lt_of_le_of_lt (Nat.le_add_right _ _) fits)
      obtain ⟨r', stepped, silent'⟩ := silent.step (k := 4095) (by decide) (by decide +kernel) fits
      exact ⟨r', run_concat ran stepped, silent'⟩

/-- **A connection that never completes a frame loses its bytes.** After 524417 reads
of 4095 bytes, of which `handle_input` knows no length, `recvbuf` has a negative length. -/
theorem recvbuf_lost :
    ∃ r c, run ConnRun.step (ConnRun.init defaultBoot)
        (firstAccept :: List.replicate 524417 (silentRead 4095)) = some r ∧
      r.proc.heap 1 = some c ∧
      (r.hist 1).frames.flatten ++ c.recvbuf.content ≠ (r.hist 1).received := by
  obtain ⟨r, ran, silent⟩ := silentBytes_of_run 524416 (by decide)
  obtain ⟨r', c, stepped, live, lost⟩ :=
    silent.overflow (k := 4095) (by decide) (by decide +kernel) (by decide +kernel)
  exact ⟨r', c, run_cons step_firstAccept (run_concat ran stepped), live, lost⟩

end Verben
