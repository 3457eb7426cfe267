import Verben.Lib.Archive
import Verben.Log.Call

/-!
# What rotation keeps of a log

The files of a log are an archive: the files with a number are the pieces that are kept, in the
order of their numbers and without a gap, the log file is the open piece, and a piece is dropped
when the first number is given to the next file. So what the files hold is the end of all that
was written, and what is gone are whole files, the oldest ones (`log_rotation_keeps`). This
holds as long as the names of the files are not cut off.
-/

namespace Verben

/-- The files hold the pieces of the archive. -/
structure FilesDenote (files : LogFiles) (path : List UInt8) (n : Nat) (ar : Archive LogLine) :
    Prop where
  bound : ar.kept.length ≤ n
  kept : ∀ i < n, files.content (rotatedPath path i) = ar.kept[i]?
  active : files.content path = ar.active
  dropped : files.replaced = ar.dropped

/-- A log whose files hold the pieces of the archive. -/
structure LogState.Denotes (st : LogState) (index : LogLevel) (ar : Archive LogLine) : Prop where
  number : 0 < st.number
  opens : st.OpenOn index
  stored : FilesDenote st.files (st.path index) st.number.toNat ar

/-- The call is logged, and comes to a name that is cut off. -/
def LogState.CutsNameIn (st : LogState) (c : LogCall) : Prop :=
  c.level.toInt ≤ st.log.level ∧ st.CutsName (st.index c.level)

section Turn

variable {st : LogState} {c : LogCall} {index : LogLevel} {ar : Archive LogLine} {ret : Int}
  {files : LogFiles}

/-- The number that is free is the next one. -/
theorem FilesDenote.length_eq {path : List UInt8} {n i : Nat}
    (denote : FilesDenote files path n ar) (low : i < n)
    (before : ∀ j < i, (files.content (rotatedPath path j)).isSome)
    (free : files.content (rotatedPath path i) = none) : ar.kept.length = i := by
  rw [denote.kept i low, List.getElem?_eq_none_iff] at free
  refine Nat.le_antisymm free ?_
  by_contra short
  have there := before ar.kept.length (Nat.lt_of_not_le short)
  rw [denote.kept _ (by omega), List.getElem?_eq_none (Nat.le_refl _)] at there
  cases there

theorem FilesDenote.moved {path : List UInt8} {n i : Nat} {files' : LogFiles}
    (denote : FilesDenote files path n ar) (low : i < n)
    (before : ∀ j < i, (files.content (rotatedPath path j)).isSome)
    (free : files.content (rotatedPath path i) = none)
    (active : (files.content path).isSome)
    (renamed : files.rename path (rotatedPath path i) = some files') :
    FilesDenote files' path n ar.rotate := by
  have length := denote.length_eq low before free
  obtain ⟨named, gone, others, replaced, -⟩ :=
    Files.rename_eq_some renamed (rotatedPath_ne path i).symm
  refine
    { bound := ?_
      kept := fun j below => ?_
      active := gone
      dropped := ?_ }
  · unfold Archive.rotate
    dsimp only
    rw [List.length_append, List.length_singleton, length]
    exact low
  · unfold Archive.rotate
    dsimp only
    by_cases same : j = i
    case pos =>
      subst same
      rw [named, List.getElem?_append_right (Nat.le_of_eq length), length, Nat.sub_self,
        List.getElem?_cons_zero, ← denote.active]
      obtain ⟨lines, content⟩ := Option.isSome_iff_exists.mp active
      rw [content, Option.getD_some]
    case neg =>
      rw [others _ (rotatedPath_ne path j) fun eq => same (rotatedPath_injective eq),
        denote.kept j below]
      by_cases less : j < i
      case pos => rw [List.getElem?_append_left (length ▸ less)]
      case neg =>
        rw [List.getElem?_eq_none (by omega), List.getElem?_eq_none]
        rw [List.length_append, List.length_singleton]
        omega
  · rw [replaced, free, Option.toList_none, List.append_nil]
    exact denote.dropped

theorem FilesDenote.shifted {path : List UInt8} {n : Nat} {files' : LogFiles}
    (denote : FilesDenote files path n ar) (many : 1 < n)
    (all : ∀ i < n, (files.content (rotatedPath path i)).isSome)
    (shifted : Files.Shifted (rotatedPath path) (n - 1) files files') :
    FilesDenote files' path n ar.drop := by
  have length : ar.kept.length = n := by
    refine Nat.le_antisymm denote.bound ?_
    by_contra short
    have there := all ar.kept.length (Nat.lt_of_not_le short)
    rw [denote.kept _ (Nat.lt_of_not_le short), List.getElem?_eq_none (Nat.le_refl _)] at there
    cases there
  have apart : ∀ i ≤ n - 1, path ≠ rotatedPath path i := fun i _ =>
    (rotatedPath_ne path i).symm
  refine
    { bound := ?_
      kept := fun i below => ?_
      active := ?_
      dropped := ?_ }
  · unfold Archive.drop
    dsimp only
    rw [List.length_tail]
    omega
  · unfold Archive.drop
    dsimp only
    rw [List.getElem?_tail]
    by_cases top : i = n - 1
    case pos =>
      subst top
      rw [shifted.top, if_neg (by omega), List.getElem?_eq_none (by omega)]
    case neg => rw [shifted.down i (by omega), denote.kept (i + 1) (by omega)]
  · exact (shifted.others path apart).trans denote.active
  · have first := denote.kept 0 (by omega)
    rw [shifted.replaced, if_neg (by omega), first, denote.dropped]
    unfold Archive.drop
    dsimp only
    cases ar.kept with
    | nil => rfl
    | cons piece rest => rfl

/-- Rotation changes the pieces of the archive, and nothing of what they hold. -/
theorem LogState.Denotes.turn (denotes : st.Denotes (st.index c.level) ar)
    (turns : st.Turns c (st.index c.level) ret files) :
    ∃ ar' : Archive LogLine, ar'.all = ar.all ∧
      FilesDenote files (st.path (st.index c.level)) st.number.toNat ar' := by
  cases turns with
  | closed | unknown | small => exact ⟨ar, rfl, denotes.stored⟩
  | moved i _ large low before free renamed =>
      obtain ⟨lines, content, -⟩ := large
      refine ⟨ar.rotate, Archive.all_rotate ar, ?_⟩
      exact denotes.stored.moved low before free (by rw [content]; rfl) renamed
  | shifted _ _ all shifted =>
      have number := denotes.number
      by_cases many : 1 < st.number.toNat
      case pos =>
        exact ⟨ar.drop, Archive.all_drop ar, denotes.stored.shifted many all shifted⟩
      case neg =>
        have one : st.number.toNat - 1 = 0 := by omega
        rw [one] at shifted
        refine ⟨ar, rfl, ?_⟩
        refine
          { bound := denotes.stored.bound
            kept := fun i low => ?_
            active := ?_
            dropped := ?_ }
        · have zero : i = 0 := by omega
          rw [zero, shifted.top, if_pos rfl, denotes.stored.kept 0 (by omega)]
        · rw [shifted.others _ fun i _ => (rotatedPath_ne _ i).symm, denotes.stored.active]
        · rw [shifted.replaced, if_pos rfl, List.append_nil, denotes.stored.dropped]

/-- What a name stands for is all that counts. -/
theorem FilesDenote.congr {path : List UInt8} {n : Nat} {files' : LogFiles}
    (denote : FilesDenote files path n ar) (same : ∀ a, files'.content a = files.content a)
    (replaced : files'.replaced = files.replaced) : FilesDenote files' path n ar :=
  ⟨denote.bound, fun i low => (same _).trans (denote.kept i low),
    (same _).trans denote.active, replaced.trans denote.dropped⟩

theorem FilesDenote.logged {path : List UInt8} {n : Nat} {files' : LogFiles} {ls : List LogLine}
    (denote : FilesDenote files path n ar)
    (content : files'.content path = some (logContent files path ++ ls))
    (others : ∀ a, a ≠ path → files'.content a = files.content a)
    (replaced : files'.replaced = files.replaced) : FilesDenote files' path n (ar.append ls) where
  bound := denote.bound
  kept i low := (others _ (rotatedPath_ne path i)).trans (denote.kept i low)
  active := by
    rw [content]
    unfold Archive.append logContent
    rw [denote.active]
  dropped := replaced.trans denote.dropped

end Turn

/-! ## Calls -/

section Calls

variable {st st' : LogState} {c : LogCall} {index : LogLevel} {ar : Archive LogLine}

theorem LogState.SameConf.index_eq (same : st.SameConf st') (level : LogLevel) :
    st'.index level = st.index level := by
  unfold LogState.index
  rw [same.multi]

theorem LogState.index_of_single (multi : st.log.multi = false) (level : LogLevel) :
    st.index level = .fatal := by
  unfold LogState.index
  rw [multi]
  rfl

theorem LogState.index_of_multi (multi : st.log.multi = true) (level : LogLevel) :
    st.index level = level := by
  unfold LogState.index
  rw [multi]
  rfl

theorem LogState.SameConf.trans {st'' : LogState} (first : st.SameConf st')
    (second : st'.SameConf st'') : st.SameConf st'' :=
  ⟨second.size.trans first.size, second.number.trans first.number, second.path.trans first.path,
    second.level.trans first.level, second.multi.trans first.multi⟩

/-- One call adds what it wrote to the archive, and nothing else. -/
theorem LogState.Denotes.write (denotes : st.Denotes index ar) (place : st.index c.level = index)
    (fits : c.Fits) (renames : ∀ a b, c.rename a b) (whole : ¬ st.CutsNameIn c) :
    ∃ st' line ar', st.write c = some (st', line) ∧ st.SameConf st' ∧ st'.Denotes index ar' ∧
      ar'.all = ar.all ++ line.toList := by
  subst place
  by_cases above : st.log.level < c.level.toInt
  case pos =>
    refine ⟨st, none, ar, LogState.write_idle (.inl above), .refl st, denotes, ?_⟩
    rw [Option.toList_none, List.append_nil]
  case neg =>
    have turns := LogState.turns denotes.opens denotes.number renames fun cuts =>
      whole ⟨Int.not_lt.mp above, cuts⟩
    obtain ⟨ar', all, stored⟩ := denotes.turn turns
    obtain ⟨st', line, wrote, same, outcome⟩ :=
      LogState.write_cases (turns.opens denotes.opens) fits
    refine ⟨st', line, ?_⟩
    have number : 0 < st'.number := same.number ▸ denotes.number
    cases outcome with
    | idle _ =>
        refine ⟨ar, wrote, same, denotes, ?_⟩
        rw [Option.toList_none, List.append_nil]
    | unopened _ _ unopened =>
        refine ⟨ar', wrote, same, ⟨number, fun open' => absurd unopened.shut open', ?_⟩, ?_⟩
        · rw [same.path, same.number]
          exact stored.congr unopened.content unopened.replaced
        · rw [Option.toList_none, List.append_nil, all]
    | logged _ _ logged =>
        refine ⟨ar'.append line.toList, wrote, same, ⟨number, fun _ => ?_, ?_⟩, ?_⟩
        · rw [same.path]
          exact logged.opens
        · rw [same.path, same.number]
          exact stored.logged logged.content logged.others logged.replaced
        · rw [Archive.all_append, all]

theorem LogState.writeAll_cons {calls : List LogCall} {st'' : LogState} {lines : List LogLine}
    {line : Option LogLine} (wrote : st.write c = some (st', line))
    (rest : st'.writeAll calls = some (st'', lines)) :
    st.writeAll (c :: calls) = some (st'', line.toList ++ lines) := by
  unfold LogState.writeAll
  rw [wrote, Option.bind_eq_bind, Option.bind_some]
  dsimp only
  rw [rest]
  rfl

theorem LogState.writeAll_concat {calls : List LogCall} {st'' : LogState} {lines : List LogLine}
    {line : Option LogLine} (ran : st.writeAll calls = some (st', lines))
    (wrote : st'.write c = some (st'', line)) :
    st.writeAll (calls ++ [c]) = some (st'', lines ++ line.toList) := by
  induction calls generalizing st lines with
  | nil =>
      cases ran
      have last : st'.writeAll [c] = some (st'', line.toList ++ []) :=
        LogState.writeAll_cons wrote rfl
      rwa [List.append_nil] at last
  | cons d ds ih =>
      unfold LogState.writeAll at ran
      obtain ⟨⟨st₁, line₁⟩, first, ran⟩ := Option.bind_eq_some_iff.mp ran
      obtain ⟨⟨st₂, lines₂⟩, rest, ran⟩ := Option.bind_eq_some_iff.mp ran
      cases ran
      rw [List.cons_append, List.append_assoc]
      exact LogState.writeAll_cons first (ih rest)

/-- In no call of the run a name is cut off. -/
def LogState.Uncut : LogState → List LogCall → Prop
  | _, [] => True
  | st, c :: cs => ¬ st.CutsNameIn c ∧
      ∀ st' line, st.write c = some (st', line) → Uncut st' cs

/-- Over a run, the archive takes up all that is written. -/
theorem LogState.Denotes.writeAll {calls : List LogCall} (denotes : st.Denotes index ar)
    (place : ∀ c ∈ calls, st.index c.level = index) (fits : ∀ c ∈ calls, c.Fits)
    (renames : ∀ c ∈ calls, ∀ a b, c.rename a b) (whole : st.Uncut calls) :
    ∃ st' lines ar', st.writeAll calls = some (st', lines) ∧ st.SameConf st' ∧
      st'.Denotes index ar' ∧ ar'.all = ar.all ++ lines := by
  induction calls generalizing st ar with
  | nil => exact ⟨st, [], ar, rfl, .refl st, denotes, (List.append_nil _).symm⟩
  | cons c cs ih =>
      obtain ⟨st₁, line, ar₁, wrote, same, denotes₁, all₁⟩ :=
        denotes.write (place c List.mem_cons_self) (fits c List.mem_cons_self)
          (renames c List.mem_cons_self) whole.1
      obtain ⟨st₂, lines, ar₂, rest, same', denotes₂, all₂⟩ := ih denotes₁
        (fun d mem => (same.index_eq d.level).trans (place d (List.mem_cons_of_mem c mem)))
        (fun d mem => fits d (List.mem_cons_of_mem c mem))
        (fun d mem => renames d (List.mem_cons_of_mem c mem)) (whole.2 st₁ line wrote)
      refine ⟨st₂, line.toList ++ lines, ar₂, LogState.writeAll_cons wrote rest,
        same.trans same', denotes₂, ?_⟩
      rw [all₂, all₁, List.append_assoc]

/-! ## Names that are short enough -/

theorem LogState.write_conf {line : Option LogLine} (wrote : st.write c = some (st', line)) :
    st'.number = st.number ∧ st'.path = st.path := by
  unfold LogState.write at wrote
  obtain ⟨out, -, wrote⟩ := Option.bind_eq_some_iff.mp wrote
  split at wrote
  · cases wrote
    exact ⟨rfl, rfl⟩
  · cases wrote
    exact ⟨rfl, rfl⟩

/-- With room for the numbers behind the path, no name is ever cut off. -/
theorem LogState.uncut_of_short (calls : List LogCall)
    (short : ∀ level, ∀ i < st.number.toNat,
      (rotatedPath (st.path level) i).length < logPathMax) : st.Uncut calls := by
  induction calls generalizing st with
  | nil => trivial
  | cons c cs ih =>
      refine ⟨fun cuts => cuts.2.2.2 fun i low _ => short _ i low, fun st' line wrote => ?_⟩
      obtain ⟨number, path⟩ := LogState.write_conf wrote
      refine ih ?_
      rw [number, path]
      exact short

end Calls

/-! ## The whole log -/

/-- No file of the log is open, and none has a number. The list of the files that a rename
replaced begins here. -/
structure LogState.Fresh (st : LogState) (index : LogLevel) : Prop where
  shut : st.log.fd index = -1
  unnumbered : ∀ i < st.number.toNat,
    st.files.content (rotatedPath (st.path index) i) = none
  replaced : st.files.replaced = []

/-- The files that are there, in the order of their numbers, then the log file. -/
def LogState.stored (st : LogState) (index : LogLevel) : List LogLine :=
  ((List.range st.number.toNat).flatMap fun i =>
    logContent st.files (rotatedPath (st.path index) i)) ++
      logContent st.files (st.path index)

/-- The numbers of the files have no gap, and what the files hold is the end of all lines: in
front of it are whole files that were replaced, in the order in which they were. -/
structure LogState.Keeps (st : LogState) (index : LogLevel) (lines : List LogLine) : Prop where
  segment : ∃ k, ∀ i < st.number.toNat,
    (st.files.content (rotatedPath (st.path index) i)).isSome ↔ i < k
  suffix : st.files.replaced.flatten ++ st.stored index = lines

theorem flatMap_getD_range {pieces : List (List LogLine)} {n : Nat} (bound : pieces.length ≤ n) :
    ((List.range n).flatMap fun i => pieces[i]?.getD []) = pieces.flatten := by
  induction pieces generalizing n with
  | nil =>
      refine List.flatMap_eq_nil_iff.mpr fun i _ => ?_
      rw [List.getElem?_nil, Option.getD_none]
  | cons piece rest ih =>
      rw [List.length_cons] at bound
      obtain ⟨m, rfl⟩ : ∃ m, n = m + 1 := ⟨n - 1, by omega⟩
      rw [List.range_succ_eq_map, List.flatMap_cons, List.flatMap_map, List.getElem?_cons_zero,
        Option.getD_some, List.flatten_cons, ← ih (Nat.le_of_succ_le_succ bound)]
      simp only [List.getElem?_cons_succ]

theorem LogState.Denotes.keeps {st : LogState} {index : LogLevel} {ar : Archive LogLine}
    (denotes : st.Denotes index ar) : st.Keeps index ar.all where
  segment := by
    refine ⟨ar.kept.length, fun i low => ?_⟩
    rw [denotes.stored.kept i low, isSome_getElem?]
  suffix := by
    have pieces : ((List.range st.number.toNat).flatMap fun i =>
        logContent st.files (rotatedPath (st.path index) i)) = ar.kept.flatten := by
      rw [← flatMap_getD_range denotes.stored.bound]
      refine List.flatMap_congr fun i inside => ?_
      unfold logContent
      rw [denotes.stored.kept i (List.mem_range.mp inside)]
    unfold LogState.stored Archive.all logContent
    unfold logContent at pieces
    rw [denotes.stored.dropped, denotes.stored.active, pieces]

theorem LogState.Fresh.denotes {st : LogState} {index : LogLevel} (fresh : st.Fresh index)
    (number : 0 < st.number) :
    st.Denotes index ⟨[], [], st.files.content (st.path index)⟩ where
  number := number
  opens open' := absurd fresh.shut open'
  stored :=
    { bound := Nat.zero_le _
      kept := fun i low => fresh.unnumbered i low
      active := rfl
      dropped := fresh.replaced }

/-- From a log without numbered files on, whatever is logged: as long as no name of a file is cut
off, the files hold all that was written, except for whole files, the oldest ones, which were
replaced one after the other. -/
theorem log_rotation_keeps (st : LogState) (index : LogLevel) (calls : List LogCall)
    (number : 0 < st.number) (fresh : st.Fresh index)
    (place : ∀ c ∈ calls, st.index c.level = index) (fits : ∀ c ∈ calls, c.Fits)
    (renames : ∀ c ∈ calls, ∀ a b, c.rename a b) (whole : st.Uncut calls) :
    ∃ st' lines, st.writeAll calls = some (st', lines) ∧
      st'.Keeps index (logContent st.files (st.path index) ++ lines) := by
  obtain ⟨st', lines, ar, wrote, -, denotes, all⟩ :=
    (fresh.denotes number).writeAll place fits renames whole
  refine ⟨st', lines, wrote, ?_⟩
  have keeps := denotes.keeps
  rw [all] at keeps
  exact keeps

/-- A notice of one byte; the system does what it is asked to do. -/
def shortCall : LogCall where
  mmap := true
  tm := { year := 112, mon := 5, mday := 1, hour := 12, min := 30, sec := 0 }
  pid := 4321
  fstat := true
  rename := fun _ _ => true
  openFile := some 3
  write := some 4096
  level := .notice
  text := [97]

theorem shortCall_obeyed : shortCall.Obeyed where
  fits := by
    unfold LogCall.Fits
    decide
  mmap := rfl
  fstat := rfl
  renames := fun _ _ => rfl
  opened := rfl
  written := by decide

/-- A log of three files, each with a limit of 10 bytes. -/
def shortLog : LogState where
  log := { buffer := some .zero, level := 4, multi := false, fd := fun _ => -1 }
  hasInit := true
  size := 10
  number := 3
  path := fun _ => asciiBytes "log"
  files := .empty

theorem log_rotation_keeps_five :
    ∃ st' lines, shortLog.writeAll (List.replicate 5 shortCall) = some (st', lines) ∧
      st'.Keeps .fatal lines :=
  have short : ∀ i < 3, (rotatedPath (asciiBytes "log") i).length < logPathMax := by decide
  log_rotation_keeps shortLog .fatal (List.replicate 5 shortCall) (by decide)
    ⟨rfl, fun _ _ => rfl, rfl⟩ (fun _ _ => rfl)
    (fun c mem => by rw [List.eq_of_mem_replicate mem]; exact shortCall_obeyed.fits)
    (fun c mem => by rw [List.eq_of_mem_replicate mem]; exact shortCall_obeyed.renames)
    (LogState.uncut_of_short _ fun _ => short)

end Verben
