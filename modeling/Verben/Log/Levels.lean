import Verben.Log.Kept
import Mathlib.Data.List.Basic

/-!
# The files of several levels

With `log_multi` every level has a log file of its own. A call works on the file of its level, and
on the names with a number that belong to it. The names of the other levels are apart from these
(`logFilePath_apart`), so what is in their files stays as it is, and their descriptors stay open on
them (`LogState.Levels.write`), as long as `open` returns no descriptor that is in use.
-/

namespace Verben

/-- A name that belongs to a log file: its own, or one with a number. -/
def LogName (path a : List UInt8) : Prop := a = path ∨ ∃ i, a = rotatedPath path i

/-- Of the files that have a place in `log_files`, those that are open are open under their names,
with different descriptors, and no name belongs to two of them. -/
structure LogState.Levels (st : LogState) : Prop where
  number : 0 < st.number
  opens : ∀ level, st.OpenOn (st.index level)
  fds : ∀ level level', st.index level ≠ st.index level' →
    st.log.fd (st.index level) ≠ -1 →
    st.log.fd (st.index level) ≠ st.log.fd (st.index level')
  names : ∀ level level', st.index level ≠ st.index level' →
    ∀ a, LogName (st.path (st.index level)) a → ¬ LogName (st.path (st.index level')) a

/-- `open` returns no descriptor on which the file of another level is open. -/
def LogState.OpensUnused (st : LogState) (c : LogCall) : Prop :=
  ∀ level, st.index level ≠ st.index c.level →
    ∀ fd, c.openFile = some fd → st.log.fd (st.index level) ≠ fd

/-- In no call of the run `open` returns a descriptor that is in use. -/
def LogState.Unused : LogState → List LogCall → Prop
  | _, [] => True
  | st, c :: cs => st.OpensUnused c ∧
      ∀ st' line, st.write c = some (st', line) → Unused st' cs

section Names

variable {dir filename : List UInt8} {level level' : LogLevel}

theorem logLevelText_injective (same : logLevelText level = logLevelText level') :
    level = level' := by
  cases level with
  | fatal | error | warning | notice | debug =>
      cases level' with
      | fatal | error | warning | notice | debug =>
          first
          | rfl
          | exact absurd same (by decide)

theorem logLevelText_undotted (level : LogLevel) : 46 ∉ logLevelText level := by
  cases level with
  | fatal | error | warning | notice | debug => decide

/-- The text of a level has no dot, so where it ends can be seen in every name of its file. -/
theorem logFilePath_apart (other : level ≠ level') (a : List UInt8)
    (name : LogName (logFilePath dir filename true level) a) :
    ¬ LogName (logFilePath dir filename true level') a := by
  have differ : logLevelText level ≠ logLevelText level' :=
    fun same => other (logLevelText_injective same)
  have dotted : ∀ l l' i,
      logFilePath dir filename true l ≠ rotatedPath (logFilePath dir filename true l') i := by
    intro l l' i same
    unfold rotatedPath logFilePath at same
    simp only [if_true, List.append_assoc] at same
    have texts := List.append_cancel_left (List.append_cancel_left (List.append_cancel_left
      (List.append_cancel_left same)))
    apply logLevelText_undotted l
    rw [texts]
    exact List.mem_append_right _ List.mem_cons_self
  rcases name with rfl | ⟨i, rfl⟩
  · rintro (same | ⟨j, same⟩)
    · unfold logFilePath at same
      simp only [if_true, List.append_assoc] at same
      exact differ (List.append_cancel_left (List.append_cancel_left (List.append_cancel_left
        (List.append_cancel_left same))))
    · exact dotted _ _ j same
  · rintro (same | ⟨j, same⟩)
    · exact dotted _ _ i same.symm
    · unfold rotatedPath logFilePath at same
      simp only [if_true, List.append_assoc] at same
      have texts := List.append_cancel_left (List.append_cancel_left (List.append_cancel_left
        (List.append_cancel_left same)))
      have undotted : 46 ∉ formatInt 0 i := by
        intro mem
        rw [formatInt_zero] at mem
        exact absurd (Decimal.isDigit_of_mem_digits mem) (by decide)
      exact differ ((List.append_cons_inj_of_notMem (logLevelText_undotted level)
        undotted).mp texts).1

end Names

section Frame

variable {st : LogState} {c : LogCall} {index : LogLevel} {ret : Int} {files : LogFiles}
  {a path : List UInt8} {fd old now opened : Int}

/-- `log_rotate` leaves what is in other files alone. -/
theorem LogState.Turns.content (turns : st.Turns c index ret files)
    (other : ¬ LogName (st.path index) a) : files.content a = st.files.content a := by
  have notRotated : ∀ i, a ≠ rotatedPath (st.path index) i := fun i same => other (.inr ⟨i, same⟩)
  cases turns with
  | closed _ | unknown _ | small _ _ => rfl
  | moved i _ _ _ _ _ renamed =>
      exact (Files.rename_eq_some renamed (rotatedPath_ne _ i).symm).2.2.1 a
        (fun same => other (.inl same)) (notRotated i)
  | shifted _ _ _ shifted => exact shifted.others a fun i _ => notRotated i

/-- Neither does it change which of them a descriptor is open on. -/
theorem LogState.Turns.opens_other (turns : st.Turns c index ret files)
    (other : ¬ LogName (st.path index) a) (opens : st.files.Opens fd a) : files.Opens fd a := by
  have notRotated : ∀ i, a ≠ rotatedPath (st.path index) i := fun i same => other (.inr ⟨i, same⟩)
  cases turns with
  | closed _ | unknown _ | small _ _ => exact opens
  | moved i _ _ _ _ _ renamed =>
      exact opens.rename renamed (fun same => other (.inl same)) (notRotated i)
  | shifted _ _ _ shifted => exact shifted.opens fd a (fun i _ => notRotated i) opens

theorem opens_logReady (opens : files.Opens fd a) (other : a ≠ path) (shut : fd ≠ old)
    (unused : now = -1 → 0 ≤ opened → fd ≠ opened) :
    (logReady path old now opened files).Opens fd a := by
  have closed : (if now ≠ old then files.close old else files).Opens fd a := by
    split
    · exact opens.close shut
    · exact opens
  unfold logReady
  dsimp only
  split
  · next reopened => exact closed.openAt other (unused reopened.1 reopened.2)
  · exact closed

theorem opens_logAppend {line : Option LogLine} {fd' : Int} (opens : files.Opens fd a) :
    (logAppend fd' line files).Opens fd a := by
  cases line with
  | none => exact opens
  | some l => exact opens.append

theorem logOutput_fd {env : LogEnv} {log : Log} {buf : LogBuffer} {len : Int} {out : LogOut}
    (wrote : logOutput env log index buf len = some out) :
    out.log.multi = log.multi ∧
      out.log.fd = Function.update log.fd index (logOpened env log index) := by
  unfold logOutput at wrote
  dsimp only at wrote
  split at wrote
  · cases wrote
    exact ⟨rfl, rfl⟩
  · obtain ⟨_, -, rfl⟩ := Option.map_eq_some_iff.mp wrote
    exact ⟨rfl, rfl⟩

/-- A line that is logged changes the descriptor at its place, and no other. -/
theorem logWrite_fd {env : LogEnv} {log : Log} {buf : LogBuffer} {level : LogLevel}
    {text : List UInt8} {out : LogOut} (logged : ¬ log.level < level.toInt)
    (mapped : log.mapped env = some buf) (wrote : logWrite env log level text = some out) :
    out.log.multi = log.multi ∧
      out.log.fd = Function.update log.fd (if log.multi then level else .fatal)
        (logOpened env log (if log.multi then level else .fatal)) := by
  unfold Log.mapped at mapped
  unfold logWrite at wrote
  rw [if_neg logged, mapped] at wrote
  obtain ⟨_, -, wrote⟩ := Option.bind_eq_some_iff.mp wrote
  exact logOutput_fd wrote

end Frame

/-! ## Runs -/

section Run

variable {st st' : LogState} {c : LogCall} {line : Option LogLine}

/-- A call changes no descriptor and no file, or it changes the descriptor at its place and then
the files behind `log_rotate`. -/
theorem LogState.write_inv (wrote : st.write c = some (st', line)) :
    st'.log.multi = st.log.multi ∧
    ((st'.log.fd = st.log.fd ∧ st'.files = st.files) ∨
      (st'.log.fd = Function.update st.log.fd (st.index c.level) (st.opened c) ∧
        st'.files = logAppend (st.opened c) line (logReady (st.path (st.index c.level))
          (st.log.fd (st.index c.level)) (st.now c) (st.opened c) (st.rotate c).2))) := by
  unfold LogState.write at wrote
  obtain ⟨out, wrote', wrote⟩ := Option.bind_eq_some_iff.mp wrote
  by_cases idle : st.log.level < c.level.toInt ∨
      (st.log.mapped (c.env (st.rotate c).1)).isNone
  case pos =>
    have same : out.log = st.log := by
      rcases idle with above | unmapped
      · rw [logWrite_of_above above] at wrote'
        cases wrote'
        rfl
      · rw [logWrite_of_unmapped (Option.isNone_iff_eq_none.mp unmapped)] at wrote'
        cases wrote'
        rfl
    rw [if_pos idle] at wrote
    cases wrote
    exact ⟨congrArg Log.multi same, .inl ⟨congrArg Log.fd same, rfl⟩⟩
  case neg =>
    obtain ⟨logged, mapped⟩ := not_or.mp idle
    obtain ⟨buf, mapped⟩ := Option.ne_none_iff_exists'.mp fun none' =>
      mapped (Option.isNone_iff_eq_none.mpr none')
    obtain ⟨multi, fds⟩ : _ ∧
        out.log.fd = Function.update st.log.fd (st.index c.level) (st.opened c) :=
      logWrite_fd logged mapped wrote'
    have opened : out.log.fd (st.index c.level) = st.opened c := by
      rw [fds, Function.update_self]
    rw [if_neg idle] at wrote
    cases wrote
    refine ⟨multi, .inr ⟨fds, ?_⟩⟩
    dsimp only
    rw [opened]
    rfl

/-- What `log_write` uses of the descriptors: the one that is there, or the one from `open`. -/
theorem LogState.opened_cases (st : LogState) (c : LogCall) :
    st.opened c = st.log.fd (st.index c.level) ∨ st.opened c = -1 ∨
      ∃ fd, c.openFile = some fd ∧ st.opened c = fd := by
  rw [LogState.opened_eq]
  split
  · cases found : c.openFile with
    | none =>
        refine .inr (.inl ?_)
        unfold LogCall.env
        rw [found]
        rfl
    | some fd =>
        refine .inr (.inr ⟨fd, rfl, ?_⟩)
        unfold LogCall.env
        rw [found]
        rfl
  · next open' => exact .inl (LogState.now_ne_neg_one open').1

/-- A descriptor of another place is the one it was. -/
theorem LogState.write_fd {index : LogLevel} (wrote : st.write c = some (st', line))
    (place : index ≠ st.index c.level) : st'.log.fd index = st.log.fd index := by
  rcases (LogState.write_inv wrote).2 with ⟨fds, -⟩ | ⟨fds, -⟩
  · rw [fds]
  · rw [fds, Function.update_of_ne place]

/-- A descriptor that is not used by the call stays open on the file of another level. -/
theorem LogState.write_opens {fd : Int} {a : List UInt8} (wrote : st.write c = some (st', line))
    (turns : st.Turns c (st.index c.level) (st.rotate c).1 (st.rotate c).2)
    (other : ¬ LogName (st.path (st.index c.level)) a)
    (shut : fd ≠ st.log.fd (st.index c.level)) (unused : st.now c = -1 → 0 ≤ st.opened c →
      fd ≠ st.opened c) (opens : st.files.Opens fd a) : st'.files.Opens fd a := by
  rcases (LogState.write_inv wrote).2 with ⟨-, files⟩ | ⟨-, files⟩
  · rwa [files]
  · rw [files]
    exact opens_logAppend (opens_logReady (turns.opens_other other opens)
      (fun same => other (.inl same)) shut unused)

/-- What is in the files of the other levels. -/
theorem LogState.Wrote.keeps {index : LogLevel} {a : List UInt8}
    (outcome : st.Wrote c index st' line) (turns : st.Turns c index (st.rotate c).1 (st.rotate c).2)
    (other : ¬ LogName (st.path index) a) : st'.files.content a = st.files.content a := by
  have kept := turns.content other
  cases outcome with
  | idle _ => rfl
  | unopened _ _ unopened => exact (unopened.content a).trans kept
  | logged _ _ logged => exact (logged.others a fun same => other (.inl same)).trans kept

/-- The descriptors stay different. -/
theorem LogState.Levels.fds_write (levels : st.Levels) (unused : st.OpensUnused c)
    (wrote : st.write c = some (st', line)) (level level' : LogLevel)
    (apart : st.index level ≠ st.index level') (open' : st'.log.fd (st.index level) ≠ -1) :
    st'.log.fd (st.index level) ≠ st'.log.fd (st.index level') := by
  rcases (LogState.write_inv wrote).2 with ⟨fds, -⟩ | ⟨fds, -⟩
  · rw [fds] at open' ⊢
    exact levels.fds level level' apart open'
  · rw [fds] at open' ⊢
    by_cases place : st.index level = st.index c.level
    case pos =>
      have place' : st.index level' ≠ st.index c.level := fun same => apart (place.trans same.symm)
      rw [place, Function.update_self] at open' ⊢
      rw [Function.update_of_ne place']
      rcases st.opened_cases c with same | shut | ⟨fd, found, opened⟩
      · rw [same] at open' ⊢
        exact levels.fds c.level level' (fun same => place' same.symm) open'
      · exact absurd shut open'
      · rw [opened]
        exact (unused level' place' fd found).symm
    case neg =>
      rw [Function.update_of_ne place] at open' ⊢
      by_cases place' : st.index level' = st.index c.level
      case pos =>
        rw [place', Function.update_self]
        rcases st.opened_cases c with same | shut | ⟨fd, found, opened⟩
        · rw [same]
          exact levels.fds level c.level place open'
        · rwa [shut]
        · rw [opened]
          exact unused level place fd found
      case neg =>
        rw [Function.update_of_ne place']
        exact levels.fds level level' apart open'

/-- A file that is open stays open under its name, or it is opened or closed by the call. -/
theorem LogState.Levels.opens_write (levels : st.Levels) (unused : st.OpensUnused c)
    (wrote : st.write c = some (st', line)) (same : st.SameConf st')
    (turns : st.Turns c (st.index c.level) (st.rotate c).1 (st.rotate c).2)
    (outcome : st.Wrote c (st.index c.level) st' line) (level : LogLevel) :
    st'.OpenOn (st'.index level) := by
  rw [same.index_eq]
  intro open'
  rw [same.path]
  by_cases place : st.index level = st.index c.level
  case pos =>
    rw [place] at open' ⊢
    cases outcome with
    | idle _ => exact levels.opens c.level open'
    | unopened _ _ unopened => exact absurd unopened.shut open'
    | logged _ _ logged => exact logged.opens
  case neg =>
    rw [LogState.write_fd wrote place] at open' ⊢
    have shut := levels.fds level c.level place open'
    have apart := levels.names level c.level place _ (.inl rfl)
    refine LogState.write_opens wrote turns apart shut (fun _ low => ?_) (levels.opens level open')
    rcases st.opened_cases c with kept | closed | ⟨fd, found, opened⟩
    · rwa [kept]
    · rw [closed] at low
      exact absurd low (by decide)
    · rw [opened]
      exact unused level place fd found

/-- One call keeps the files of the levels apart, and leaves those of other levels as they are. -/
theorem LogState.Levels.write (levels : st.Levels) (fits : c.Fits)
    (renames : ∀ a b, c.rename a b) (whole : ¬ st.CutsNameIn c) (unused : st.OpensUnused c) :
    ∃ st' line, st.write c = some (st', line) ∧ st.SameConf st' ∧ st'.Levels ∧
      ∀ level, st.index level ≠ st.index c.level →
        st'.log.fd (st.index level) = st.log.fd (st.index level) ∧
        ∀ a, LogName (st.path (st.index level)) a → st'.files.content a = st.files.content a := by
  by_cases above : st.log.level < c.level.toInt
  case pos =>
    exact ⟨st, none, LogState.write_idle (.inl above), .refl st, levels,
      fun level _ => ⟨rfl, fun _ _ => rfl⟩⟩
  case neg =>
    have turns := LogState.turns (levels.opens c.level) levels.number renames fun cuts =>
      whole ⟨Int.not_lt.mp above, cuts⟩
    obtain ⟨st', line, wrote, same, outcome⟩ :=
      LogState.write_cases (turns.opens (levels.opens c.level)) fits
    refine ⟨st', line, wrote, same, ?_, fun level place => ⟨LogState.write_fd wrote place,
      fun a name => outcome.keeps turns (levels.names level c.level place a name)⟩⟩
    refine
      { number := same.number ▸ levels.number
        opens := levels.opens_write unused wrote same turns outcome
        fds := fun level level' => ?_
        names := fun level level' => ?_ }
    · rw [same.index_eq, same.index_eq]
      exact levels.fds_write unused wrote level level'
    · rw [same.index_eq, same.index_eq, same.path]
      exact levels.names level level'

/-- Where every level has a descriptor of its own, none that is in use is returned. -/
theorem LogState.unused_of_own {own : LogLevel → Nat} (apart : Function.Injective own)
    {calls : List LogCall} (opened : ∀ c ∈ calls, ∀ fd, c.openFile = some fd → fd = own c.level)
    (multi : st.log.multi = true) (fds : ∀ level, st.log.fd level = -1 ∨
      st.log.fd level = own level) : st.Unused calls := by
  induction calls generalizing st with
  | nil => trivial
  | cons c cs ih =>
      have mine := opened c List.mem_cons_self
      refine ⟨fun level other fd found same => ?_, fun st' line wrote => ?_⟩
      · rw [LogState.index_of_multi multi, LogState.index_of_multi multi] at other
        rw [LogState.index_of_multi multi, mine fd found] at same
        rcases fds level with shut | open'
        · rw [shut] at same
          exact absurd same (by omega)
        · exact other (apart (Int.ofNat.inj (open'.symm.trans same)))
      · obtain ⟨multi', inv⟩ := LogState.write_inv wrote
        refine ih (fun d mem => opened d (List.mem_cons_of_mem c mem)) (multi'.trans multi)
          fun level => ?_
        rcases inv with ⟨same, -⟩ | ⟨changed, -⟩
        · rw [same]
          exact fds level
        · rw [changed, LogState.index_of_multi multi]
          by_cases place : level = c.level
          case pos =>
            subst place
            rw [Function.update_self]
            rcases st.opened_cases c with kept | shut | ⟨fd, found, new⟩
            · rw [kept, LogState.index_of_multi multi]
              exact fds c.level
            · exact .inl shut
            · rw [new, mine fd found]
              exact .inr rfl
          case neg =>
            rw [Function.update_of_ne place]
            exact fds level

end Run

/-- What `log_init` has accepted, and what it leaves behind. -/
theorem logInit_accepted {st₀ st : LogState} {dir filename : List UInt8} {level size n : Int}
    {multi access mmap : Bool}
    (accepted : logInit st₀ dir filename level size n multi access mmap = some (0, st)) :
    0 ≤ size ∧ st.size = size ∧ st.number = n ∧ 0 < n ∧ st.log.multi = multi ∧
      (∀ lv, st.log.fd (st.index lv) = -1) ∧
      (multi = true → st.path = logFilePath dir filename true) := by
  unfold logInit at accepted
  split at accepted
  · cases accepted
  · next asserted =>
      obtain ⟨-, -, low, -, some', -⟩ := not_not.mp asserted
      split at accepted
      · cases accepted
      · split at accepted
        · cases accepted
        · dsimp only at accepted
          split at accepted
          · cases accepted
          · cases accepted
            refine ⟨low, rfl, rfl, some', rfl, fun lv => ?_, ?_⟩
            · unfold LogState.index
              cases multi with
              | true => rfl
              | false => rfl
            · rintro rfl
              rfl

/-- In the beginning no file is open, and the names are those that `log_init` put together. -/
theorem levels_of_logInit {st₀ st : LogState} {dir filename : List UInt8} {level size n : Int}
    {multi access mmap : Bool}
    (accepted : logInit st₀ dir filename level size n multi access mmap = some (0, st)) :
    st.Levels := by
  obtain ⟨-, -, number, some', multi', shut, path⟩ := logInit_accepted accepted
  refine
    { number := number.symm ▸ some'
      opens := fun level open' => absurd (shut level) open'
      fds := fun level _ _ open' => absurd (shut level) open'
      names := fun level level' apart => ?_ }
  cases multi with
  | false =>
      exact absurd ((LogState.index_of_single multi' level).trans
        (LogState.index_of_single multi' level').symm) apart
  | true =>
      rw [LogState.index_of_multi multi', LogState.index_of_multi multi'] at apart ⊢
      rw [path rfl]
      exact logFilePath_apart apart

end Verben
