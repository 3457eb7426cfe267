import Verben.Log.Model

/-!
# What a call of `log_write` stores

`log_write` takes the place of the newline from the return value of `vsnprintf`, which is the
length of the whole message. A message that does not fit is stored up to the end of the buffer,
but the newline goes behind it, and the bytes up to there are written out
(`log_line_in_buffer_iff`).
-/

namespace Verben

open Region

/-- The prefix, the message up to the room that is left, and a newline. -/
def logExpected (env : LogEnv) (level : LogLevel) (text : List UInt8) : List UInt8 :=
  logPrefix env level ++ text.take (logBufferSize - 1 - (logPrefix env level).length) ++ [10]

section Line

variable {env : LogEnv} {buf buf' : LogBuffer} {level : LogLevel} {text : List UInt8}

theorem LogBuffer.store_starts {before : List UInt8} (bs : List UInt8)
    (starts : buf.1.Starts before)
    (room : before.length + bs.length ≤ logBufferSize) :
    ∃ buf', buf.store before.length bs = some buf' ∧ buf'.1.Starts (before ++ bs) := by
  obtain ⟨r, stored, length, starts'⟩ := starts.store (buf.2.symm ▸ room)
  refine ⟨⟨r, length.trans buf.2⟩, ?_, starts'⟩
  unfold LogBuffer.store
  split
  · next none' => rw [stored] at none'; cases none'
  · next r' some' =>
      cases Option.some.inj (stored.symm.trans some')
      rfl

/-- A store behind the buffer has no result. -/
theorem LogBuffer.store_eq_none {off : Int} {bs : List UInt8}
    (outside : (logBufferSize : Int) < off + bs.length) : buf.store off bs = none := by
  have length := buf.2
  have out : buf.1.store off bs = none := by
    unfold Region.store
    rw [if_neg (by omega)]
  unfold LogBuffer.store
  split
  · rfl
  · next r some' => rw [out] at some'; cases some'

theorem LogBuffer.region_of_store {off : Int} {bs : List UInt8}
    (stored : buf.store off bs = some buf') : buf.1.store off bs = some buf'.1 := by
  unfold LogBuffer.store at stored
  split at stored
  · cases stored
  · next r some' =>
      cases stored
      exact some'

theorem starts_nil (r : Region) : r.Starts [] := List.nil_prefix

/-- A message that fits goes into the buffer with its newline. -/
theorem logLine_of_fits (buf : LogBuffer)
    (fits : (logPrefix env level).length + text.length < logBufferSize) :
    ∃ buf', logLine env buf level text =
        some (buf', (logPrefix env level ++ text ++ [10]).length) ∧
      buf'.1.Starts (logPrefix env level ++ text ++ [10]) := by
  have text' : text.take (logBufferSize - (logPrefix env level).length - 1) = text :=
    List.take_of_length_le (by omega)
  have small : text.length < 2 ^ 31 := by
    unfold logBufferSize at fits
    omega
  have room : logBufferSize - (logPrefix env level).length ≠ 0 := by omega
  obtain ⟨buf₁, stored₁, starts₁⟩ :=
    LogBuffer.store_starts (logPrefix env level ++ [0]) (starts_nil buf.1)
    (by simp only [List.length_nil, List.length_append, List.length_singleton]; omega)
  rw [List.nil_append] at starts₁
  obtain ⟨buf₂, stored₂, starts₂⟩ := LogBuffer.store_starts (text ++ [0])
    starts₁.of_append (by rw [List.length_append, List.length_singleton]; omega)
  rw [← List.append_assoc] at starts₂
  obtain ⟨buf₃, stored₃, starts₃⟩ := LogBuffer.store_starts [10] starts₂.of_append
    (by rw [List.length_append, List.length_singleton]; omega)
  refine ⟨buf₃, ?_, starts₃⟩
  have place : (text.length : Int) + (logPrefix env level).length =
      ((logPrefix env level ++ text).length : Nat) := by
    rw [List.length_append]
    omega
  have whole : ((logPrefix env level ++ text ++ [10]).length : Int) =
      (logPrefix env level ++ text).length + 1 := by
    simp only [List.length_append, List.length_singleton]
    omega
  have first : buf.store 0 (logPrefix env level ++ [0]) = some buf₁ := stored₁
  unfold logLine vsnprintf
  simp only [first, Option.bind_eq_bind, Option.bind_some, room, if_false, small, if_true, text',
    stored₂, place, stored₃, whole]

/-- The prefix ends with a bracket. -/
theorem logPrefix_eq_concat (env : LogEnv) (level : LogLevel) :
    ∃ before, logPrefix env level = before ++ [93] := ⟨_, rfl⟩

/-- A byte of a prefix of the buffer. -/
theorem starts_getElem? {r : Region} {bs : List UInt8} (starts : r.Starts bs) {i : Nat}
    (inside : i < bs.length) : r[i]? = some (some bs[i]) := by
  have long : i < r.length := Nat.lt_of_lt_of_le inside starts.length_le
  have same := List.IsPrefix.getElem starts (by rwa [List.length_map])
  rw [List.getElem?_eq_getElem long, ← same, List.getElem_map]

/-- The newline of a message whose length is no `int` goes over the bracket of the prefix. -/
theorem not_starts_of_newline {stored : LogBuffer}
    (newline : buf.store (-1 + ((logPrefix env level).length : Int)) [10] = some stored) :
    ¬ stored.1.Starts (logExpected env level text) := by
  intro starts
  obtain ⟨before, split⟩ := logPrefix_eq_concat env level
  have place : -1 + ((logPrefix env level).length : Int) = (before.length : Int) := by
    rw [split, List.length_append, List.length_singleton]
    omega
  rw [place] at newline
  have region := LogBuffer.region_of_store newline
  unfold Region.store at region
  split at region
  · next inside =>
      have long : before.length ≤ buf.1.length := by omega
      have here : stored.1[before.length]? = some (some 10) := by
        rw [← Option.some.inj region, Int.toNat_natCast, List.append_assoc,
          List.getElem?_append_right (List.length_take_le _ _), List.length_take,
          Nat.min_eq_left long, Nat.sub_self]
        rfl
      have there : stored.1[before.length]? = some (some 93) := by
        unfold logExpected at starts
        rw [split, List.append_assoc, List.append_assoc] at starts
        rw [starts_getElem? starts (by simp), List.getElem_append_right (Nat.le_refl _)]
        simp only [Nat.sub_self, List.cons_append, List.getElem_cons_zero]
      rw [here] at there
      exact absurd there (by decide)
  · cases region

/-- A message that does not fit: there is no line, or it is not the one that was to be written. -/
theorem not_starts_of_long (long : logBufferSize ≤ (logPrefix env level).length + text.length)
    {len : Int} (line : logLine env buf level text = some (buf', len)) :
    ¬ buf'.1.Starts (logExpected env level text) := by
  unfold logLine vsnprintf at line
  obtain ⟨buf₁, -, line⟩ := Option.bind_eq_some_iff.mp line
  obtain ⟨buf₂, -, line⟩ := Option.bind_eq_some_iff.mp line
  obtain ⟨buf₃, newline, line⟩ := Option.bind_eq_some_iff.mp line
  cases line
  by_cases small : text.length < 2 ^ 31
  case pos =>
    rw [if_pos small] at newline
    rw [LogBuffer.store_eq_none (by rw [List.length_singleton]; omega)] at newline
    cases newline
  case neg =>
    rw [if_neg small] at newline
    exact not_starts_of_newline newline

end Line

section Write

variable {env : LogEnv} {log : Log} {level : LogLevel} {text : List UInt8}

/-- The buffer of a call, mapped on the first one. -/
def Log.mapped (log : Log) (env : LogEnv) : Option LogBuffer :=
  log.buffer.or (if env.mmap then some .zero else none)

/-- A call whose level is not logged does nothing. -/
theorem logWrite_of_above (above : log.level < level.toInt) :
    logWrite env log level text = some ⟨log, none⟩ := if_pos above

theorem logWrite_of_unmapped (unmapped : log.mapped env = none) :
    logWrite env log level text = some ⟨log, none⟩ := by
  unfold Log.mapped at unmapped
  unfold logWrite
  rw [unmapped]
  split
  · rfl
  · rfl

/-- A line goes out as it is in the buffer, or not at all. -/
theorem logOutput_of_load {index : LogLevel} {buf : LogBuffer} {len : Int} {bytes : List UInt8}
    (loaded : buf.1.load 0 len = some bytes) :
    ∃ out, logOutput env log index buf len = some out ∧ out.log.buffer = some buf ∧
      (out.wrote = none ∨ out.wrote = some bytes) := by
  unfold logOutput
  rw [loaded]
  dsimp only
  by_cases unopened : logFd env log index = -1 ∧ env.openFile < 0
  case pos =>
    rw [if_pos unopened]
    exact ⟨_, rfl, rfl, .inl rfl⟩
  case neg =>
    rw [if_neg unopened]
    exact ⟨_, rfl, rfl, .inr rfl⟩

theorem logOutput_buffer {index : LogLevel} {buf : LogBuffer} {len : Int} {out : LogOut}
    (wrote : logOutput env log index buf len = some out) : out.log.buffer = some buf := by
  unfold logOutput at wrote
  dsimp only at wrote
  by_cases unopened : logFd env log index = -1 ∧ env.openFile < 0
  case pos =>
    rw [if_pos unopened] at wrote
    exact Option.some.inj wrote ▸ rfl
  case neg =>
    rw [if_neg unopened] at wrote
    obtain ⟨bytes, -, rfl⟩ := Option.map_eq_some_iff.mp wrote
    rfl

/-- A call that returns has put a line together, and leaves it in the buffer. -/
theorem line_of_logWrite {buf : LogBuffer} {out : LogOut}
    (logged : ¬ log.level < level.toInt) (mapped : log.mapped env = some buf)
    (wrote : logWrite env log level text = some out) :
    ∃ buf' len, logLine env buf level text = some (buf', len) ∧ out.log.buffer = some buf' := by
  unfold Log.mapped at mapped
  unfold logWrite at wrote
  rw [if_neg logged, mapped] at wrote
  obtain ⟨⟨buf', len⟩, line, wrote⟩ := Option.bind_eq_some_iff.mp wrote
  exact ⟨buf', len, line, logOutput_buffer wrote⟩

/-- A call that puts a line together leaves it in the buffer, and writes out no other bytes. -/
theorem logWrite_of_line {buf buf' : LogBuffer} {len : Int} {bytes : List UInt8}
    (logged : ¬ log.level < level.toInt) (mapped : log.mapped env = some buf)
    (line : logLine env buf level text = some (buf', len))
    (loaded : buf'.1.load 0 len = some bytes) :
    ∃ out, logWrite env log level text = some out ∧ out.log.buffer = some buf' ∧
      (out.wrote = none ∨ out.wrote = some bytes) := by
  unfold Log.mapped at mapped
  unfold logWrite
  rw [if_neg logged, mapped]
  simp only [line, Option.bind_eq_bind, Option.bind_some]
  exact logOutput_of_load loaded

/-- Every byte that a call stores or writes out is in the buffer; what it writes out is the
expected line, and that line is in the buffer after a call at a level that is logged. -/
def LineInBuffer (env : LogEnv) (log : Log) (level : LogLevel) (text : List UInt8) : Prop :=
  ∃ out, logWrite env log level text = some out ∧
    (∀ bytes, out.wrote = some bytes →
      bytes = logExpected env level text ∧ bytes.length ≤ logBufferSize) ∧
    (level.toInt ≤ log.level → ∀ buf, out.log.buffer = some buf →
      buf.1.Starts (logExpected env level text))

/-- The line of a message that fits. -/
theorem logExpected_of_fits
    (fits : (logPrefix env level).length + text.length < logBufferSize) :
    logExpected env level text = logPrefix env level ++ text ++ [10] := by
  unfold logExpected
  rw [List.take_of_length_le (by omega)]

theorem lineInBuffer_of_above (above : log.level < level.toInt) :
    LineInBuffer env log level text := by
  refine ⟨_, logWrite_of_above above, ?_, ?_⟩
  · intro bytes wrote
    cases wrote
  · intro logged
    omega

theorem Log.mapped_eq_none_iff :
    log.mapped env = none ↔ log.buffer = none ∧ env.mmap = false := by
  unfold Log.mapped
  rw [Option.or_eq_none_iff]
  cases env.mmap with
  | true => simp
  | false => simp

theorem lineInBuffer_of_unmapped (unmapped : log.mapped env = none) :
    LineInBuffer env log level text := by
  refine ⟨_, logWrite_of_unmapped unmapped, ?_, ?_⟩
  · intro bytes wrote
    cases wrote
  · intro _ buf buffer
    rw [(Log.mapped_eq_none_iff.mp unmapped).1] at buffer
    cases buffer

theorem lineInBuffer_of_fits {buf : LogBuffer} (logged : ¬ log.level < level.toInt)
    (mapped : log.mapped env = some buf)
    (fits : (logPrefix env level).length + text.length < logBufferSize) :
    LineInBuffer env log level text := by
  obtain ⟨buf', line, starts⟩ := logLine_of_fits buf fits
  obtain ⟨out, wrote, buffer, bytes⟩ := logWrite_of_line logged mapped line starts.load_all
  refine ⟨out, wrote, ?_, ?_⟩
  · intro bs written
    rcases bytes with unwritten | same
    · rw [unwritten] at written
      cases written
    · rw [← Option.some.inj (same.symm.trans written), logExpected_of_fits fits]
      refine ⟨rfl, ?_⟩
      rw [List.length_append, List.length_append, List.length_singleton]
      exact fits
  · intro _ buf'' buffer'
    rw [← Option.some.inj (buffer.symm.trans buffer'), logExpected_of_fits fits]
    exact starts

/-- A message that does not fit is not put together and written out as it should be. -/
theorem fits_of_lineInBuffer {buf : LogBuffer} (kept : LineInBuffer env log level text)
    (logged : ¬ log.level < level.toInt) (mapped : log.mapped env = some buf) :
    (logPrefix env level).length + text.length < logBufferSize := by
  obtain ⟨out, wrote, -, starts⟩ := kept
  by_contra long
  obtain ⟨buf', len, line, buffer⟩ := line_of_logWrite logged mapped wrote
  exact not_starts_of_long (Nat.le_of_not_lt long) line (starts (Int.not_lt.mp logged) _ buffer)

/-- A line is put together and written out as it should be just when the message fits into the
buffer behind the prefix, with its newline, or when no line is put together. -/
theorem log_line_in_buffer_iff (env : LogEnv) (log : Log) (level : LogLevel)
    (text : List UInt8) :
    LineInBuffer env log level text ↔
      log.level < level.toInt ∨ (log.buffer = none ∧ env.mmap = false) ∨
        (logPrefix env level).length + text.length < logBufferSize := by
  rw [← Log.mapped_eq_none_iff]
  constructor
  case mp =>
    intro kept
    by_cases above : log.level < level.toInt
    case pos => exact .inl above
    case neg =>
      cases mapped : log.mapped env with
      | none => exact .inr (.inl rfl)
      | some buf => exact .inr (.inr (fits_of_lineInBuffer kept above mapped))
  case mpr =>
    rintro (above | unmapped | fits)
    · exact lineInBuffer_of_above above
    · exact lineInBuffer_of_unmapped unmapped
    · by_cases above : log.level < level.toInt
      case pos => exact lineInBuffer_of_above above
      case neg =>
        cases mapped : log.mapped env with
        | none => exact lineInBuffer_of_unmapped mapped
        | some buf => exact lineInBuffer_of_fits above mapped fits

end Write

/-- A notice of 4096 bytes, logged on the first call. -/
theorem log_line_leaves_buffer :
    ¬ LineInBuffer
      { mmap := true
        tm := { year := 112, mon := 5, mday := 1, hour := 12, min := 30, sec := 0 }
        pid := 4321
        rotate := fun _ => -1
        openFile := 3 }
      { buffer := none, level := 4, multi := false, fd := fun _ => -1 }
      .notice (List.replicate 4096 97) := by
  intro kept
  have fits := fits_of_lineInBuffer kept (by decide) rfl
  rw [List.length_replicate] at fits
  exact Nat.not_lt.mpr (Nat.le_add_left _ _) fits

end Verben
