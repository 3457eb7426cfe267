import Verben.Conn.Receive

/-!
# The buffers of a read

Which reads stay inside their buffers, in every state that a run reaches. The terminating NUL of
a read of `IOBUF_SIZE` bytes goes behind `buf`, and nothing can be appended to a `recvbuf` that
has got 2 ^ 31 bytes or more, since its `len` is negative; every other read is inside
(`read_inside_iff`).
-/

namespace Verben

open Transition

/-- Every access of a read stays inside: the call goes through, the bytes read are put behind
those in `recvbuf`, and a message has the bytes that were allocated for it, which `recvbuf`
has. -/
def ReadInside (p : ConnProc) (cli : Nat) (c : ClientConn) (env : ReadEnv) (bytes : List UInt8) :
    Prop :=
  ∃ p' events c', readFromClient p cli env = some (p', events) ∧
    (c.touch p.unixClock).receive bytes env.handleInput = some c' ∧
    c'.recvbuf.buf.Starts (c.recvbuf.content ++ bytes) ∧
    ∀ msg, .pushed msg ∈ events →
      (msg.data.length : Int) = c'.recvProtLen ∧ msg.data <+: c.recvbuf.content ++ bytes

/-- A string that holds its bytes, or has got too many of them. -/
def Sds.Sound (s : Sds) : Prop := ∃ bytes, s.Holds bytes ∨ s.Wrapped bytes

section Parts

variable {s s' : Sds} {c c' : ClientConn} {all bytes : List UInt8}

theorem sound_sdsempty : sdsempty.Sound := ⟨[], .inl holds_sdsempty⟩

/-- An append to a string that holds its bytes. -/
theorem sdscatlen_of_sound (bytes : List UInt8) (holds : s.Holds all)
    (short : bytes.length < 2 ^ 31) :
    ∃ s', sdscatlen s bytes = some s' ∧ (s'.Holds (all ++ bytes) ∨ s'.Wrapped (all ++ bytes)) := by
  by_cases fits : all.length + bytes.length < 2 ^ 31
  case pos =>
    obtain ⟨s', cat, holds'⟩ := sdscatlen_of_holds holds fits
    exact ⟨s', cat, .inl holds'⟩
  case neg =>
    obtain ⟨s', cat, wrapped⟩ := sdscatlen_of_overflow holds short (Nat.le_of_not_lt fits)
    exact ⟨s', cat, .inr wrapped⟩

theorem Sds.Sound.cat (sound : s.Sound) (short : bytes.length < 2 ^ 31)
    (cat : sdscatlen s bytes = some s') : s'.Sound := by
  obtain ⟨all, holds | wrapped⟩ := sound
  · obtain ⟨s'', cat', sound⟩ := sdscatlen_of_sound _ holds short
    cases cat.symm.trans cat'
    exact ⟨_, sound⟩
  · rw [sdscatlen_of_wrapped wrapped] at cat
    cases cat

/-- The bytes of a string, and how many there are. -/
theorem starts_of_sound (sound : s.Holds all ∨ s.Wrapped all) :
    s.buf.Starts (all ++ [0]) ∧
      (sdslen s = all.length ∨ (2 ^ 31 ≤ all.length ∧ 2 ^ 31 ≤ sdslen s)) := by
  rcases sound with holds | wrapped
  · exact ⟨holds.data, .inl holds.sdslen_eq⟩
  · refine ⟨wrapped.data, .inr ⟨wrapped.long.1, ?_⟩⟩
    rw [wrapped.sdslen_eq]
    omega

/-- The comparisons of `recv_prot_len` let no copy leave `recvbuf`. -/
theorem verdict_of_sound (sound : c.recvbuf.Holds all ∨ c.recvbuf.Wrapped all) :
    c.verdict = some .invalid ∨ c.verdict = some .wait ∨
      ∃ data, c.verdict = some (.frame data) ∧ data <+: all ∧
        (data.length : Int) = c.recvProtLen ∧ 1 ≤ data.length ∧ data.length < 2 ^ 31 := by
  obtain ⟨starts, len⟩ := starts_of_sound sound
  unfold ClientConn.verdict maxProtLen
  by_cases invalid : c.recvProtLen < 0 ∨ 4096 < c.recvProtLen
  case pos => exact .inl (if_pos invalid)
  case neg =>
    rw [if_neg invalid]
    by_cases unknown : c.recvProtLen = 0
    case pos => exact .inr (.inl (if_pos unknown))
    case neg =>
      rw [if_neg unknown, CInt.toUInt64_of_range (by omega) (by omega)]
      by_cases whole : c.recvProtLen ≤ sdslen c.recvbuf
      case neg => exact .inr (.inl (if_neg whole))
      case pos =>
        obtain ⟨n, same⟩ := Int.eq_ofNat_of_zero_le (a := c.recvProtLen) (by omega)
        have inside : n ≤ all.length := by omega
        have starts' : c.recvbuf.buf.Starts (all.take n ++ all.drop n) := by
          rw [List.take_append_drop]
          exact starts.of_append
        have load := starts'.load
        rw [List.length_take_of_le inside] at load
        refine .inr (.inr ⟨all.take n, ?_, List.take_prefix n all, ?_, ?_, ?_⟩)
        · rw [if_pos whole, same, load]
          rfl
        · rw [List.length_take_of_le inside]
          exact same.symm
        · rw [List.length_take_of_le inside]
          omega
        · rw [List.length_take_of_le inside]
          omega

/-- A frame that was copied can be dropped from `recvbuf`. -/
theorem consume_of_sound (sound : c.recvbuf.Holds all ∨ c.recvbuf.Wrapped all) {n : Nat}
    (len : c.recvProtLen = n) (positive : 1 ≤ n) (small : n < 2 ^ 31) (inside : n ≤ all.length) :
    ∃ c', c.consume = some c' ∧ c'.recvbuf.Sound := by
  rcases sound with holds | wrapped
  · obtain ⟨recvbuf, consumed, holds'⟩ := consume_of_holds holds len inside
    exact ⟨_, consumed, _, .inl holds'⟩
  · obtain ⟨recvbuf, range, holds'⟩ := sdsrange_of_wrapped wrapped positive small
    refine ⟨{ c with recvbuf := recvbuf, recvProtLen := 0 }, ?_, _, .inl holds'⟩
    unfold ClientConn.consume
    rw [len, range]
    rfl

theorem receive_sound {handleInput : List UInt8 → Int} (sound : c.recvbuf.Sound)
    (short : bytes.length < iobufSize) (received : c.receive bytes handleInput = some c') :
    c'.recvbuf.Sound := by
  unfold iobufSize at short
  obtain ⟨recvbuf, cat, rfl⟩ := Option.map_eq_some_iff.mp received
  exact sound.cat (by omega) cat

end Parts

section Call

variable {p : ConnProc} {cli : Nat} {c : ClientConn} {env : ReadEnv} {all bytes : List UInt8}

/-- Behind the call of `handle_input` nothing leaves a buffer. -/
theorem dispatchFrame_of_sound (wf : p.Wf) (live : p.heap cli = some c) (env : ReadEnv)
    (sound : c.recvbuf.Holds all ∨ c.recvbuf.Wrapped all) :
    ∃ p' events, dispatchFrame p cli c env = some (p', events) ∧
      ∀ msg, .pushed msg ∈ events →
        (msg.data.length : Int) = c.recvProtLen ∧ msg.data <+: all := by
  have closed : ∃ p' events, closeClient p cli = some (p', events) ∧
      ∀ msg, ConnEvent.pushed msg ∉ events := by
    exact ⟨_, _, closeClient_of_live wf live, by simp⟩
  have quiet : ∀ {events : List ConnEvent}, (∀ msg, ConnEvent.pushed msg ∉ events) →
      ∀ msg, .pushed msg ∈ events →
        (msg.data.length : Int) = c.recvProtLen ∧ msg.data <+: all :=
    fun none msg mem => absurd mem (none msg)
  unfold dispatchFrame
  rcases verdict_of_sound sound with invalid | wait | ⟨data, frame, part, len, positive, small⟩
  · rw [invalid, Option.bind_some]
    obtain ⟨p', events, done, none⟩ := closed
    exact ⟨p', events, done, quiet none⟩
  · rw [wait, Option.bind_some]
    exact ⟨p, [], rfl, quiet (by simp)⟩
  · rw [frame, Option.bind_some]
    dsimp only
    split
    · split
      · obtain ⟨c', consumed, _⟩ :=
          consume_of_sound sound len.symm positive small part.length_le
        rw [consumed]
        refine ⟨_, _, rfl, ?_⟩
        intro msg mem
        cases ConnEvent.pushed.inj (List.mem_singleton.mp mem)
        exact ⟨len, part⟩
      · exact ⟨_, _, closeClient_of_live wf.nextIdentifier live, quiet (by simp)⟩
    · obtain ⟨p', events, done, none⟩ := closed
      exact ⟨p', events, done, quiet none⟩

theorem readInside_of_holds (wf : p.Wf) (live : p.heap cli = some c)
    (holds : c.recvbuf.Holds all) (result : env.result = .data bytes) (nonempty : bytes ≠ [])
    (short : bytes.length < iobufSize) : ReadInside p cli c env bytes := by
  have small : bytes.length < 2 ^ 31 := by
    unfold iobufSize at short
    omega
  obtain ⟨recvbuf, cat, sound⟩ := sdscatlen_of_sound bytes holds small
  obtain ⟨c', received, recvbuf'⟩ : ∃ c', (c.touch p.unixClock).receive bytes env.handleInput =
      some c' ∧ c'.recvbuf = recvbuf := by
    unfold ClientConn.receive ClientConn.touch
    rw [cat]
    exact ⟨_, rfl, rfl⟩
  obtain ⟨fd, magic⟩ := receive_fd received
  rw [← recvbuf'] at sound
  obtain ⟨p', events, dispatched, pushed⟩ := dispatchFrame_of_sound
    (wf.setClient live fd magic) (heap_setClient_self p cli c') env sound
  refine ⟨p', .received cli bytes :: answeredEvents cli (c.touch p.unixClock) c' ++ events, c',
    ?_, received, ?_, ?_⟩
  · rw [readFromClient_of_data live result nonempty short, received, Option.bind_some,
      dispatched]
    rfl
  · rw [holds.content_eq]
    exact (starts_of_sound sound).1.of_append
  · intro msg mem
    rw [holds.content_eq]
    rcases List.mem_append.mp mem with mem | mem
    · rcases List.mem_cons.mp mem with same | mem
      · cases same
      · unfold answeredEvents at mem
        split at mem
        · cases List.mem_singleton.mp mem
        · cases mem
    · exact pushed msg mem

/-- The terminating NUL of a read that fills `buf`. -/
theorem not_readInside_of_full (live : p.heap cli = some c) (result : env.result = .data bytes)
    (full : iobufSize ≤ bytes.length) : ¬ ReadInside p cli c env bytes := by
  rintro ⟨p', events, c', read, _⟩
  unfold readFromClient at read
  rw [live, Option.bind_some, result] at read
  cases bytes with
  | nil => exact absurd full (by decide)
  | cons b bs =>
      simp only [full, if_true] at read
      cases read

end Call

section Runs

variable {r : ConnRun} {cli : Nat} {c : ClientConn}

/-- In every run, every open connection has a `recvbuf` that holds its bytes or has got too many
of them. -/
theorem recvbuf_sound {boot : ConnBoot} (reach : Reach ConnRun.step always (ConnRun.init boot) r) :
    r.proc.Wf ∧ ∀ {cli c}, r.proc.heap cli = some c → c.recvbuf.Sound := by
  apply each_of_reach (Q := fun _ c _ => c.recvbuf.Sound) reach
  case opened =>
    intro r act cli events c' fe' h _ opened
    cases opened with
    | silent _ _ => exact sound_sdsempty
    | quiet _ _ _ => exact sound_sdsempty
    | welcomed _ _ _ _ _ => exact sound_sdsempty
  case changed =>
    intro r act cli c events c' fe' _ _ _ sound effect
    have sound : (c.touch r.proc.unixClock).recvbuf.Sound := sound
    cases effect with
    | again _ => exact sound
    | wait _ _ short received _ => exact receive_sound sound short received
    | frame _ _ short received verdict consumed =>
        obtain ⟨all, sound'⟩ := receive_sound sound short received
        rcases verdict_of_sound sound' with
          other | other | ⟨data', frame, part, len, positive, small⟩
        · cases other.symm.trans verdict
        · cases other.symm.trans verdict
        · obtain ⟨c'', consumed', sound''⟩ :=
            consume_of_sound sound' len.symm positive small part.length_le
          cases consumed.symm.trans consumed'
          exact sound''
    | drained _ _ _ _ _ => exact sound
    | shifted _ _ _ => exact sound
    | responded _ _ _ _ _ _ _ => exact sound

/-- **Which reads stay inside.** In every state that a run reaches, for every connection that is
open, and for whatever `read` gives it up to `IOBUF_SIZE` bytes and `handle_input` answers: every
access of `read_from_client` is inside its buffer, if and only if the read does not fill `buf` and
`recvbuf` has not got so many bytes before that its length is negative. -/
theorem read_inside_iff {boot : ConnBoot}
    (reach : Reach ConnRun.step always (ConnRun.init boot) r) (live : r.proc.heap cli = some c)
    {env : ReadEnv} {bytes : List UInt8} (result : env.result = .data bytes)
    (some' : 1 ≤ bytes.length) (most : bytes.length ≤ iobufSize) :
    ReadInside r.proc cli c env bytes ↔ bytes.length < iobufSize ∧ 0 ≤ c.recvbuf.len := by
  have nonempty : bytes ≠ [] := List.ne_nil_of_length_pos some'
  obtain ⟨wf, sound⟩ := recvbuf_sound reach
  obtain ⟨all, holds | wrapped⟩ := sound live
  · have len : 0 ≤ c.recvbuf.len := by
      rw [holds.len]
      omega
    constructor
    · intro inside
      refine ⟨Nat.lt_of_le_of_ne most fun full => ?_, len⟩
      exact not_readInside_of_full live result (Nat.le_of_eq full.symm) inside
    · intro both
      exact readInside_of_holds wf live holds result nonempty both.1
  · have len : ¬ 0 ≤ c.recvbuf.len := by
      have long := wrapped.long
      rw [wrapped.len]
      omega
    refine iff_of_false ?_ fun both => len both.2
    rintro ⟨_, _, c', _, received, _⟩
    unfold ClientConn.receive ClientConn.touch at received
    rw [sdscatlen_of_wrapped wrapped] at received
    cases received

end Runs

/-- Three bytes on the first connection, of which `handle_input` takes two. -/
theorem read_inside_iff_first :
    ReadInside firstConn.proc 1 firstClient (readOk [1, 2, 3] fun _ => 2) [1, 2, 3] ↔
      ([1, 2, 3] : List UInt8).length < iobufSize ∧ 0 ≤ firstClient.recvbuf.len :=
  read_inside_iff reach_firstConn (by decide +kernel) rfl
    (by decide) (by decide)

/-- A read that gives the 4096 bytes that were asked for. -/
theorem read_leaves_buf :
    ∃ r c, Reach ConnRun.step always (ConnRun.init defaultBoot) r ∧ r.proc.heap 1 = some c ∧
      ¬ ReadInside r.proc 1 c (readOk (List.replicate 4096 0) fun _ => 0)
        (List.replicate 4096 0) := by
  refine ⟨firstConn, firstClient, reach_firstConn, by decide +kernel, ?_⟩
  refine not_readInside_of_full (by decide +kernel) rfl ?_
  rw [List.length_replicate]
  exact Nat.le_refl _

end Verben
