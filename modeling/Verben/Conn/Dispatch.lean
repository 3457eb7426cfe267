import Verben.Conn.Receive
import Verben.Lib.Framing

/-!
# One frame for each read

`read_from_client` looks for a frame once for each read. With a prefix-stable
`handle_input` it is the receiver `oneEach` of greedy framing (`dispatches_of_run`),
as long as `recvbuf` stays below 2 ^ 31 bytes; after that it never catches up with
the stream again (`Behind.step`). It finds all frames of a stream exactly when no
final part of the reads completes more frames than it has reads
(`frames_dispatched_iff`).
-/

namespace Verben

open CInt Framing Transition

/-- The reads of a stream from the connection on an fd. -/
def feed (fd : Nat) (f : List UInt8 → Nat) (reads : List (List UInt8)) : List ConnAct :=
  reads.map fun bytes => .readable fd (readOk bytes fun s => f s)

/-- The sizes of reads that leave room for the NUL. -/
def ReadSizes (reads : List (List UInt8)) : Prop :=
  ∀ bytes ∈ reads, 1 ≤ bytes.length ∧ bytes.length < iobufSize

/-- A run has accepted the connection, and nothing was read from it yet. -/
structure JustAccepted (r : ConnRun) (cli : Nat) (c : ClientConn) : Prop where
  reach : ∃ boot, Reach ConnRun.step always (ConnRun.init boot) r
  live : r.proc.heap cli = some c
  recvbuf : c.recvbuf = sdsempty
  recvProtLen : c.recvProtLen = 0
  frames : (r.hist cli).frames = []

theorem JustAccepted.wf {r : ConnRun} {cli : Nat} {c : ClientConn}
    (accepted : JustAccepted r cli c) : r.proc.Wf := by
  rcases accepted.reach with ⟨boot, reach⟩
  exact ConnRun.wf_of_reach reach

/-! ## A read of a string that fits -/

/-- The connection has dispatched the frames `state.1` and keeps the bytes `state.2`. -/
structure Dispatches (f : List UInt8 → Nat) (r : ConnRun) (cli fd : Nat)
    (state : List (List UInt8) × List UInt8) : Prop where
  wf : r.proc.Wf
  client : ∃ c, r.proc.heap cli = some c ∧ c.fd = fd ∧ c.recvbuf.Holds state.2 ∧
    (c.recvProtLen = 0 ∨ c.recvProtLen = f state.2)
  frames : (r.hist cli).frames = state.1

section Client

variable {c : ClientConn} {buf : List UInt8}

/-- The verdict on a length in range. -/
theorem verdict_of_holds (holds : c.recvbuf.Holds buf) {n : Nat} (len : c.recvProtLen = n)
    (most : (n : Int) ≤ maxProtLen) :
    c.verdict = some (if 0 < n ∧ n ≤ buf.length then .frame (buf.take n) else .wait) := by
  unfold maxProtLen at most
  unfold ClientConn.verdict maxProtLen
  rw [len, holds.sdslen_eq, if_neg (by omega), toUInt64_of_range (by omega) (by omega)]
  by_cases zero : n = 0
  · rw [if_pos (by omega), if_neg (by omega)]
  · rw [if_neg (by omega)]
    by_cases whole : n ≤ buf.length
    · have taken : (buf.take n).length = n := List.length_take_of_le whole
      have starts : c.recvbuf.buf.Starts (buf.take n ++ buf.drop n) := by
        rw [List.take_append_drop]
        exact holds.data.of_append
      have load := starts.load
      rw [taken] at load
      rw [if_pos (by omega), load, if_pos ⟨by omega, whole⟩]
      rfl
    · rw [if_neg (by omega), if_neg (by omega)]

/-- With a length that is too much for the string, every frame seems to be there. -/
theorem verdict_of_wrapped (wrapped : c.recvbuf.Wrapped buf) {n : Nat} (len : c.recvProtLen = n)
    (most : (n : Int) ≤ maxProtLen) :
    c.verdict = some (if 0 < n then .frame (buf.take n) else .wait) := by
  have long := wrapped.long
  unfold maxProtLen at most
  unfold ClientConn.verdict maxProtLen
  rw [len, wrapped.sdslen_eq, if_neg (by omega), toUInt64_of_range (by omega) (by omega)]
  by_cases zero : n = 0
  · rw [if_pos (by omega), if_neg (by omega)]
  · have taken : (buf.take n).length = n := List.length_take_of_le (by omega)
    have starts : c.recvbuf.buf.Starts (buf.take n ++ buf.drop n) := by
      rw [List.take_append_drop]
      exact wrapped.data.of_append
    have load := starts.load
    rw [taken] at load
    rw [if_neg (by omega), if_pos (by omega), load, if_pos (by omega)]
    rfl

end Client

section Step

variable {f : List UInt8 → Nat} {r : ConnRun} {cli fd : Nat} {bytes : List UInt8}

/-- The length that `read_from_client` goes by is that of the whole `recvbuf`. -/
theorem receive_of_stable (stable : PrefixStable f) {c : ClientConn} {buf : List UInt8}
    (holds : c.recvbuf.Holds buf) (known : c.recvProtLen = 0 ∨ c.recvProtLen = f buf)
    (fits : buf.length + bytes.length < 2 ^ 31) :
    ∃ c', c.receive bytes (fun s => f s) = some c' ∧ c'.fd = c.fd ∧
      c'.recvbuf.Holds (buf ++ bytes) ∧ c'.recvProtLen = f (buf ++ bytes) := by
  obtain ⟨recvbuf, received, holds'⟩ := receive_of_holds (fun s => f s) holds fits
  refine ⟨_, received, rfl, holds', ?_⟩
  simp only
  split
  · rfl
  · next unknown =>
      have len : c.recvProtLen = f buf := known.resolve_left unknown
      rw [len, stable buf bytes (by omega)]

/-- **A read dispatches as `takeOne` does.** -/
theorem Dispatches.step {state : List (List UInt8) × List UInt8} (stable : PrefixStable f)
    (most : ∀ s, (f s : Int) ≤ maxProtLen) (dispatches : Dispatches f r cli fd state)
    (nonempty : bytes ≠ []) (short : bytes.length < iobufSize)
    (fits : state.2.length + bytes.length < 2 ^ 31) :
    ∃ r', r.step (.readable fd (readOk bytes fun s => f s)) = some r' ∧
      Dispatches f r' cli fd (takeOne f state bytes) := by
  rcases dispatches.client with ⟨c, live, rfl, holds, known⟩
  obtain ⟨c', received, fd, holds', len⟩ := receive_of_stable (c := c.touch r.proc.unixClock)
    stable holds known fits
  have verdict := verdict_of_holds holds' len (most _)
  by_cases complete : Complete f (state.2 ++ bytes)
  · have frame := verdict.trans (congrArg some (if_pos complete))
    obtain ⟨recvbuf, consumed, holds''⟩ := consume_of_holds holds' len complete.2
    obtain ⟨r', stepped, wf, live', frames, _⟩ := ConnRun.step_of_frame dispatches.wf live nonempty
      short received frame consumed
    rw [takeOne_of_complete complete]
    exact ⟨r', stepped, wf, ⟨_, live', fd, holds'', .inl rfl⟩,
      frames.trans (by rw [dispatches.frames])⟩
  · have wait := verdict.trans (congrArg some (if_neg complete))
    obtain ⟨r', stepped, wf, live', frames, _⟩ := ConnRun.step_of_wait dispatches.wf live nonempty
      short received wait
    rw [takeOne_of_incomplete complete]
    exact ⟨r', stepped, wf, ⟨_, live', fd, holds', .inr len⟩, frames.trans dispatches.frames⟩

end Step

/-! ## Past 2 ^ 31 bytes -/

/-- `recv_prot_len` is one that `read_from_client` does not refuse. -/
def LenInRange (c : ClientConn) : Prop :=
  ∃ len : Nat, c.recvProtLen = len ∧ (len : Int) ≤ maxProtLen

/-- The connection has dispatched fewer bytes than it was sent, and `recvbuf` does not
show the others. -/
structure Behind (r : ConnRun) (cli fd sent : Nat) : Prop where
  wf : r.proc.Wf
  client : ∃ c, r.proc.heap cli = some c ∧ c.fd = fd ∧ LenInRange c ∧
    ((∃ buf, c.recvbuf.Holds buf) ∨ ∃ buf, c.recvbuf.Wrapped buf) ∧
    (r.hist cli).frames.flatten.length + c.recvbuf.content.length < sent

section Past

variable {f : List UInt8 → Nat} {r : ConnRun} {cli sent : Nat} {c c' : ClientConn}
  {bytes buf : List UInt8}

theorem receive_of_sdscatlen (most : ∀ s, (f s : Int) ≤ maxProtLen) (known : LenInRange c)
    {recvbuf : Sds} (cat : sdscatlen c.recvbuf bytes = some recvbuf) :
    ∃ c', c.receive bytes (fun s => f s) = some c' ∧ c'.fd = c.fd ∧ c'.recvbuf = recvbuf ∧
      LenInRange c' := by
  refine ⟨_, congrArg _ cat, rfl, rfl, ?_⟩
  unfold LenInRange
  simp only
  split
  · exact ⟨_, rfl, most _⟩
  · exact known

variable (most : ∀ s, (f s : Int) ≤ maxProtLen) (wf : r.proc.Wf)
  (live : r.proc.heap cli = some c) (known : LenInRange c) (holds : c.recvbuf.Holds buf)
  (nonempty : bytes ≠ []) (short : bytes.length < iobufSize)

include most wf live known holds nonempty short

/-- The read that takes `recvbuf` past 2 ^ 31 - 1 bytes loses all of it. -/
theorem behind_of_overflow (exceeds : 2 ^ 31 ≤ buf.length + bytes.length)
    (atMost : (r.hist cli).frames.flatten.length + buf.length ≤ sent) :
    ∃ r', r.step (.readable c.fd (readOk bytes fun s => f s)) = some r' ∧
      Behind r' cli c.fd (sent + bytes.length) := by
  have shortInt : bytes.length < 2 ^ 31 := by
    unfold iobufSize at short
    omega
  obtain ⟨recvbuf, cat, wrapped⟩ := sdscatlen_of_overflow holds shortInt exceeds
  obtain ⟨c', received, fd, rfl, len, known', small⟩ :=
    receive_of_sdscatlen (c := c.touch r.proc.unixClock) most known cat
  have verdict := verdict_of_wrapped wrapped known' small
  have total : (buf ++ bytes).length = buf.length + bytes.length := List.length_append
  by_cases zero : len = 0
  · obtain ⟨r', stepped, wf', live', frames, _⟩ := ConnRun.step_of_wait wf live nonempty short
      received (verdict.trans (congrArg some (if_neg (by omega))))
    refine ⟨r', stepped, wf', c', live', fd, ⟨len, known', small⟩, .inr ⟨_, wrapped⟩, ?_⟩
    rw [frames, wrapped.content_eq, List.length_nil]
    omega
  · unfold maxProtLen at small
    obtain ⟨emptied, range, holds'⟩ := sdsrange_of_wrapped wrapped (n := len) (by omega) (by omega)
    have consumed : c'.consume = some { c' with recvbuf := emptied, recvProtLen := 0 } := by
      unfold ClientConn.consume
      rw [known', range]
      rfl
    obtain ⟨r', stepped, wf', live', frames, _⟩ := ConnRun.step_of_frame wf live nonempty short
      received (verdict.trans (congrArg some (if_pos (by omega)))) consumed
    refine ⟨r', stepped, wf', _, live', fd, ⟨0, rfl, by decide⟩, .inl ⟨_, holds'⟩, ?_⟩
    rw [frames, holds'.content_eq, List.flatten_concat, List.length_append, List.length_take,
      List.length_nil]
    omega

/-- A read that fits does not make up for what was lost. -/
theorem behind_of_fits (fits : buf.length + bytes.length < 2 ^ 31)
    (lost : (r.hist cli).frames.flatten.length + buf.length < sent) :
    ∃ r', r.step (.readable c.fd (readOk bytes fun s => f s)) = some r' ∧
      Behind r' cli c.fd (sent + bytes.length) := by
  obtain ⟨recvbuf, cat, holds'⟩ := sdscatlen_of_holds holds fits
  obtain ⟨c', received, fd, rfl, len, known', small⟩ :=
    receive_of_sdscatlen (c := c.touch r.proc.unixClock) most known cat
  have verdict := verdict_of_holds holds' known' small
  have total : (buf ++ bytes).length = buf.length + bytes.length := List.length_append
  by_cases complete : 0 < len ∧ len ≤ (buf ++ bytes).length
  · obtain ⟨recvbuf, consumed, holds''⟩ := consume_of_holds holds' known' complete.2
    obtain ⟨r', stepped, wf', live', frames, _⟩ := ConnRun.step_of_frame wf live nonempty short
      received (verdict.trans (congrArg some (if_pos complete))) consumed
    refine ⟨r', stepped, wf', _, live', fd, ⟨0, rfl, by decide⟩, .inl ⟨_, holds''⟩, ?_⟩
    rw [frames, holds''.content_eq, List.flatten_concat, List.length_append, List.length_take,
      List.length_drop]
    omega
  · obtain ⟨r', stepped, wf', live', frames, _⟩ := ConnRun.step_of_wait wf live nonempty short
      received (verdict.trans (congrArg some (if_neg complete)))
    refine ⟨r', stepped, wf', c', live', fd, ⟨len, known', small⟩, .inl ⟨_, holds'⟩, ?_⟩
    rw [frames, holds'.content_eq]
    omega

end Past

/-- **A connection that is behind stays behind**, or does not return from a read. -/
theorem Behind.step {f : List UInt8 → Nat} {r r' : ConnRun} {cli fd sent : Nat}
    {bytes : List UInt8} (behind : Behind r cli fd sent) (most : ∀ s, (f s : Int) ≤ maxProtLen)
    (nonempty : bytes ≠ []) (short : bytes.length < iobufSize)
    (stepped : r.step (.readable fd (readOk bytes fun s => f s)) = some r') :
    Behind r' cli fd (sent + bytes.length) := by
  rcases behind.client with ⟨c, live, rfl, known, ⟨buf, holds⟩ | ⟨buf, wrapped⟩, lost⟩
  · rw [holds.content_eq] at lost
    obtain ⟨r'', stepped', behind'⟩ : ∃ r'', r.step _ = some r'' ∧
        Behind r'' cli c.fd (sent + bytes.length) := by
      by_cases fits : buf.length + bytes.length < 2 ^ 31
      · exact behind_of_fits most behind.wf live known holds nonempty short fits lost
      · exact behind_of_overflow most behind.wf live known holds nonempty short
          (Nat.not_lt.mp fits) (Nat.le_of_lt lost)
    cases stepped'.symm.trans stepped
    exact behind'
  · have refused : (c.touch r.proc.unixClock).receive bytes (fun s => f s) = none :=
      congrArg _ (sdscatlen_of_wrapped wrapped bytes)
    rw [ConnRun.step_of_refused behind.wf live nonempty short refused] at stepped
    cases stepped

/-! ## Whole streams -/

/-- Every read fits: `recvbuf` stays below 2 ^ 31 bytes. -/
def ReadsFit (f : List UInt8 → Nat) (reads : List (List UInt8)) : Prop :=
  ∀ early bytes late, reads = early ++ bytes :: late →
    (oneEach f early).2.length + bytes.length < 2 ^ 31

/-- No final part of the reads completes more frames than it has reads. -/
def FramesNotAhead (f : List UInt8 → Nat) (reads : List (List UInt8)) : Prop :=
  ∀ early late, reads = early ++ late → completed f reads ≤ completed f early + late.length

/-- The reads of the stream end with all its frames pushed. What is left of it is in
`recvbuf`, and no complete frame with it. -/
def FramedWhole (f : List UInt8 → Nat) (r : ConnRun) (cli fd : Nat) (reads : List (List UInt8)) :
    Prop :=
  ∃ r' c, run ConnRun.step r (feed fd f reads) = some r' ∧ r'.proc.heap cli = some c ∧
    (r'.hist cli).frames = Framing.frames f reads.flatten ∧
    c.recvbuf.content = rest f reads.flatten ∧ ¬ Complete f c.recvbuf.content

section Streams

variable {f : List UInt8 → Nat} {r : ConnRun} {cli : Nat} {c : ClientConn}

theorem readsFit_concat (reads : List (List UInt8)) (bytes : List UInt8) :
    ReadsFit f (reads ++ [bytes]) ↔
      ReadsFit f reads ∧ (oneEach f reads).2.length + bytes.length < 2 ^ 31 := by
  constructor
  · intro fits
    refine ⟨?_, fits reads bytes [] rfl⟩
    intro early first late same
    subst same
    exact fits early first (late ++ [bytes]) (by simp)
  · intro both early first late split
    rcases both with ⟨fits, last⟩
    induction late using List.reverseRecOn with
    | nil =>
        obtain ⟨rfl, same⟩ := List.append_inj' split rfl
        cases same
        exact last
    | append_singleton late piece _ =>
        rw [← List.cons_append, ← List.append_assoc] at split
        obtain ⟨rfl, _⟩ := List.append_inj' split rfl
        exact fits early first late rfl

theorem feed_concat (fd : Nat) (reads : List (List UInt8)) (bytes : List UInt8) :
    run ConnRun.step r (feed fd f (reads ++ [bytes])) =
      (run ConnRun.step r (feed fd f reads)).bind fun r' =>
        r'.step (.readable fd (readOk bytes fun s => f s)) := by
  unfold feed
  rw [List.map_append, run_append]
  congr 1
  funext r'
  exact Option.bind_fun_some _

variable (stable : PrefixStable f) (most : ∀ s, (f s : Int) ≤ maxProtLen)
  (accepted : JustAccepted r cli c)

include stable most accepted

/-- Reads that fit dispatch as `oneEach` does. -/
theorem dispatches_of_run {reads : List (List UInt8)} (sizes : ReadSizes reads)
    (fits : ReadsFit f reads) :
    ∃ r', run ConnRun.step r (feed c.fd f reads) = some r' ∧
      Dispatches f r' cli c.fd (oneEach f reads) := by
  induction reads using List.reverseRecOn with
  | nil =>
      refine ⟨r, rfl, accepted.wf, ⟨c, accepted.live, rfl, ?_, .inl accepted.recvProtLen⟩,
        accepted.frames⟩
      rw [accepted.recvbuf]
      exact holds_sdsempty
  | append_singleton reads bytes ih =>
      obtain ⟨early, last⟩ := (readsFit_concat reads bytes).mp fits
      obtain ⟨r', ran, dispatches⟩ := ih (fun b mem => sizes b (List.mem_append_left _ mem)) early
      obtain ⟨some, short⟩ := sizes bytes (List.mem_append_right _ List.mem_cons_self)
      obtain ⟨r'', stepped, dispatches'⟩ := dispatches.step stable most
        (List.ne_nil_of_length_pos some) short last
      rw [feed_concat, ran, oneEach_concat]
      exact ⟨r'', stepped, dispatches'⟩

/-- Reads that do not fit leave the connection behind. -/
theorem behind_of_run {reads : List (List UInt8)} (sizes : ReadSizes reads)
    (exceeds : ¬ ReadsFit f reads) {r' : ConnRun}
    (ran : run ConnRun.step r (feed c.fd f reads) = some r') :
    Behind r' cli c.fd reads.flatten.length := by
  induction reads using List.reverseRecOn generalizing r' with
  | nil => exact absurd (fun early bytes late split => by simp at split) exceeds
  | append_singleton reads bytes ih =>
      have sizes' : ReadSizes reads := fun b mem => sizes b (List.mem_append_left _ mem)
      obtain ⟨some, short⟩ := sizes bytes (List.mem_append_right _ List.mem_cons_self)
      have nonempty := List.ne_nil_of_length_pos some
      rw [feed_concat] at ran
      obtain ⟨mid, ran, stepped⟩ := Option.bind_eq_some_iff.mp ran
      rw [List.flatten_concat, List.length_append]
      by_cases fits : ReadsFit f reads
      · have last := mt (fun last => (readsFit_concat reads bytes).mpr ⟨fits, last⟩) exceeds
        obtain ⟨mid', ran', dispatches⟩ :=
          dispatches_of_run stable most accepted sizes' fits
        cases ran'.symm.trans ran
        rcases dispatches.client with ⟨c', live, fd, holds, len⟩
        have known : LenInRange c' := by
          rcases len with len | len
          · exact ⟨0, len, by decide⟩
          · exact ⟨_, len, most _⟩
        have total := congrArg List.length (flatten_oneEach f reads)
        rw [List.length_append, ← dispatches.frames] at total
        obtain ⟨r'', stepped', behind⟩ := behind_of_overflow most dispatches.wf live known holds
          nonempty short (Nat.not_lt.mp last) (Nat.le_of_eq total)
        rw [fd] at stepped' behind
        cases stepped'.symm.trans stepped
        exact behind
      · exact (ih sizes' fits ran).step most nonempty short stepped

/-- **When the frames that were pushed are those of the stream.** For every
prefix-stable `handle_input` with frames of at most `MAX_PROT_LEN` bytes and every
split of a stream into reads of 1 to 4095 bytes: the payloads pushed after the last
read are the greedy framing of the stream, and `recvbuf` is what is left of it, without
a complete frame, if and only if no final part of the reads completes more frames than
it has reads, and `recvbuf` stays below 2 ^ 31 bytes. -/
theorem frames_dispatched_iff {reads : List (List UInt8)} (sizes : ReadSizes reads) :
    FramedWhole f r cli c.fd reads ↔ FramesNotAhead f reads ∧ ReadsFit f reads := by
  by_cases fits : ReadsFit f reads
  · obtain ⟨r', ran, dispatches⟩ := dispatches_of_run stable most accepted sizes fits
    rcases dispatches.client with ⟨c', live, _, holds, _⟩
    rw [and_iff_left fits]
    refine Iff.trans ?_ (oneEach_eq_frames_iff stable reads)
    constructor
    · intro both
      rcases both with ⟨r'', c'', ran', live', frames, content, _⟩
      cases ran'.symm.trans ran
      cases live'.symm.trans live
      rw [dispatches.frames] at frames
      rw [holds.content_eq] at content
      exact Prod.ext frames content
    · intro same
      refine ⟨r', c', ran, live, ?_, ?_, ?_⟩
      · rw [dispatches.frames, same]
      · rw [holds.content_eq, same]
      · rw [holds.content_eq, same]
        exact incomplete_rest f _
  · refine iff_of_false ?_ fun both => fits both.2
    intro both
    rcases both with ⟨r', c', ran, live, frames, content, _⟩
    obtain ⟨c'', live', _, _, _, lost⟩ := (behind_of_run stable most accepted sizes fits ran).client
    cases live'.symm.trans live
    rw [frames, content, ← List.length_append, flatten_frames] at lost
    exact Nat.lt_irrefl _ lost

end Streams

/-! ## Frames of two bytes -/

/-- A `handle_input` whose frames have two bytes. -/
def twoBytes (s : List UInt8) : Nat := if s.length < 2 then 0 else 2

theorem prefixStable_twoBytes : PrefixStable twoBytes := by
  intro s t known
  unfold twoBytes at known ⊢
  rw [List.length_append]
  split at known <;> split <;> first | rfl | omega

theorem twoBytes_le (s : List UInt8) : (twoBytes s : Int) ≤ maxProtLen := by
  unfold twoBytes maxProtLen
  split <;> omega

theorem justAccepted_firstConn : JustAccepted firstConn 1 firstClient where
  reach := ⟨defaultBoot, reach_firstConn⟩
  live := by decide +kernel
  recvbuf := rfl
  recvProtLen := rfl
  frames := by decide +kernel

/-- Two reads that each complete one frame. -/
theorem frames_dispatched_two : FramedWhole twoBytes firstConn 1 7 [[1, 2], [3, 4]] := by
  have sizes : ReadSizes [[1, 2], [3, 4]] := by
    unfold ReadSizes iobufSize
    decide
  refine (frames_dispatched_iff prefixStable_twoBytes twoBytes_le justAccepted_firstConn
    sizes).mpr ⟨?_, ?_⟩
  · rintro (_ | ⟨a, _ | ⟨b, _ | ⟨c, early⟩⟩⟩) late split <;> cases split <;> decide +kernel
  · intro either bytes late split
    rcases either with _ | ⟨a, _ | ⟨b, early⟩⟩
    · cases split
      decide +kernel
    · cases split
      decide +kernel
    · simp at split

/-- **Two frames in one read.** The second stays in `recvbuf`, though the same bytes
in two reads have both frames pushed. -/
theorem frame_left_behind :
    PrefixStable twoBytes ∧ (∀ s, (twoBytes s : Int) ≤ maxProtLen) ∧
      ReadSizes [[1, 2, 3, 4]] ∧ ¬ FramedWhole twoBytes firstConn 1 7 [[1, 2, 3, 4]] := by
  refine ⟨prefixStable_twoBytes, twoBytes_le, by unfold ReadSizes iobufSize; decide, ?_⟩
  intro both
  rcases both with ⟨r, c, ran, live, frames, _⟩
  have evaluated : (run ConnRun.step firstConn (feed 7 twoBytes [[1, 2, 3, 4]])).map
      (fun r => (r.hist 1).frames) = some [[1, 2]] := by
    decide +kernel
  rw [ran, Option.map_some, Option.some_inj, frames] at evaluated
  revert evaluated
  decide +kernel

end Verben
