import Verben.Conf.Round
import Verben.Conf.Store

/-!
# What a round asks for

A round of `conf_parse` ends the call, or goes on with the next line, or calls for a block or for
the files that a directive names, and then goes on or ends the call. `ConfFrame.round` is what
the line comes to before anything is called, and `Round.run` does the rest (`confLoop_succ`).
Which files a directive names is known before the first of them is parsed (`includePlan`).
-/

namespace Verben

/-- What a round comes to: `stuck` when the fuel did not do for `conf_evaluate`, and `broken` when
it uses memory that it must not. A block is the `first` one of its key, or another one. -/
inductive Round : Type
  | stuck
  | broken (fp : List UInt8) (store : ConfStore)
  | done (out : ConfOut)
  | next (f : ConfFrame) (fp : List UInt8) (store : ConfStore)
  | block (first : Bool) (f : ConfFrame) (fp : List UInt8) (store : ConfStore) (cv : Nat)
  | file (f : ConfFrame) (fp : List UInt8) (store : ConfStore) (incFile : CStr)

/-- The block that was read is put into its value. -/
def linkBlock : Bool → ConfValue → Nat → ConfValue
  | true, _, t => .block [t]
  | false, value, t => value.push t

/-- A key with its value, or with the block that follows. -/
def itemRound (f : ConfFrame) (fp : List UInt8) (store : ConfStore) (key value var : CStr) :
    Round :=
  match store.tables f.conf with
  | none => .done ⟨.fault, fp, store⟩
  | some ht =>
      match hashGetVal ht key with
      | none => .done ⟨.fault, fp, store⟩
      | some none =>
          match hashInsert ht key store.valueNum .succeed with
          | none => .done ⟨.fault, fp, store.newValue⟩
          | some (ret, ht) =>
              let entered := store.newValue.setTable f.conf (some ht)
              if ret ≠ 0 then .done (confError f.conf fp entered)
              else if value = [123] then .block true f fp entered store.valueNum
              else .next f fp (entered.setValue store.valueNum (.entry [var]))
      | some (some cv) =>
          match store.values cv with
          | .entry values =>
              if value = [123] then .done (confError f.conf fp store)
              else .next f fp (store.setValue cv (.entry (var :: values)))
          | _ =>
              if value = [123] then .block false f fp store cv
              else .done (confError f.conf fp store)

/-- A line with two fields. -/
def pairRound (env : ConfEnv) (fuel : Nat) (f : ConfFrame) (fp : List UInt8) (store : ConfStore)
    (key value : CStr) : Round :=
  match confEvaluate (confVar env store f.conf) fuel value with
  | none => .stuck
  | some .null => .done (confError f.conf fp store)
  | some .fault => .broken fp store
  | some (.text var) =>
      if key = [105, 110, 99, 108, 117, 100, 101] then .file f fp store var
      else itemRound f fp store key value var

/-- A round, up to the calls that it makes. -/
def ConfFrame.round (env : ConfEnv) (fuel : Nat) (f : ConfFrame) (fp : List UInt8)
    (store : ConfStore) : Round :=
  match fgets maxLine fp with
  | none => .done ⟨.ok, fp, store⟩
  | some (raw, rest) =>
      match f.reads raw rest with
      | none => .broken rest store
      | some .skip => .next (f.after raw) rest store
      | some .blank => .next (f.after raw) rest store
      | some .close => .done (if f.block then ⟨.ok, rest, store⟩ else confError f.conf rest store)
      | some (.pair key value) => pairRound env fuel (f.after raw) rest store key value

/-- What follows a block. -/
def blockRound (loop : ParseLoop) (first : Bool) (f : ConfFrame) (cv : Nat) (t : Nat)
    (out : ConfOut) : Option ConfOut :=
  match out.ret with
  | .ok => loop f out.fp (out.store.setValue cv (linkBlock first (out.store.values cv) t))
  | .error => some (confError f.conf out.fp out.store)
  | _ => some out

/-- What follows the files. -/
def fileRound (loop : ParseLoop) (f : ConfFrame) (fp : List UInt8) (ret : ConfRet)
    (store : ConfStore) : Option ConfOut :=
  match ret with
  | .ok => loop f fp store
  | .error => some (confError f.conf fp store)
  | _ => some ⟨ret, fp, store⟩

/-! ## The files of a directive -/

/-- The files that a directive names, with their resolved paths, in the order of the directory, and
whether something behind them is refused. -/
structure FilePlan : Type where
  files : List (CStr × List UInt8)
  refused : Bool

/-- One more file in front of the others. -/
def FilePlan.cons (file : CStr × List UInt8) (plan : FilePlan) : FilePlan :=
  { plan with files := file :: plan.files }

/-- What the loop over the directory opens, when every file is accepted. -/
def entriesPlan (env : ConfEnv) (curFile dname bname : CStr) : List DirEntry → FilePlan
  | [] => ⟨[], false⟩
  | entry :: entries =>
      if entry.isDir then entriesPlan env curFile dname bname entries
      else
        let fullpath := (dname ++ 47 :: entry.name).take (pathMax - 2)
        match env.realpath fullpath with
        | none => ⟨[], true⟩
        | some resolvedPath =>
            if curFile = resolvedPath then entriesPlan env curFile dname bname entries
            else
              match env.fnmatch bname entry.name with
              | .found =>
                  match env.fopen fullpath with
                  | none => ⟨[], true⟩
                  | some text =>
                      (entriesPlan env curFile dname bname entries).cons (resolvedPath, text)
              | .noMatch => entriesPlan env curFile dname bname entries
              | .error => ⟨[], true⟩

def includePlan (env : ConfEnv) (curFile incFile : CStr) : FilePlan :=
  let bname := env.basename incFile
  if bname = [46] ∨ bname = [46, 46] ∨ bname = [47] then ⟨[], true⟩
  else
    match env.opendir (env.dirname incFile) with
    | none => ⟨[], true⟩
    | some entries => entriesPlan env curFile (env.dirname incFile) bname entries

/-- The files are parsed into the table, one after the other. -/
def runFiles (env : ConfEnv) (nested : ParseLoop) (conf : Nat) (refused : Bool) :
    List (CStr × List UInt8) → ConfStore → Option (ConfRet × ConfStore)
  | [], store => some (if refused then .error else .ok, store)
  | file :: files, store =>
      (confParse env nested (some conf) file.1 file.2 false store).bind fun call =>
        if call.2.ret = .ok then runFiles env nested conf refused files call.2.store
        else some (call.2.ret, call.2.store)

/-- The rest of a round: `nested` is called for blocks and files, and `loop` goes on. -/
def Round.run (env : ConfEnv) (nested loop : ParseLoop) : Round → Option ConfOut
  | .stuck => none
  | .broken fp store => some ⟨.fault, fp, store⟩
  | .done out => some out
  | .next f fp store => loop f fp store
  | .block first f fp store cv =>
      (confParse env nested none f.resolvedPath fp true store).bind fun call =>
        blockRound loop first f cv call.1 call.2
  | .file f fp store incFile =>
      let plan := includePlan env f.resolvedPath incFile
      (runFiles env nested f.conf plan.refused plan.files store).bind fun result =>
        fileRound loop f fp result.1 result.2

section Calls

variable {env : ConfEnv} {loop : ParseLoop} {store : ConfStore}

/-- The next file of a directive. -/
theorem runFiles_cons {conf : Nat} {file : CStr × List UInt8} {call : Nat × ConfOut}
    (called : confParse env loop (some conf) file.1 file.2 false store = some call)
    (refused : Bool) (files : List (CStr × List UInt8)) :
    runFiles env loop conf refused (file :: files) store =
      if call.2.ret = .ok then runFiles env loop conf refused files call.2.store
      else some (call.2.ret, call.2.store) := by
  rw [runFiles, called]
  rfl

theorem confBlock_eq (env : ConfEnv) (loop : ParseLoop) (f : ConfFrame) (fp : List UInt8)
    (store : ConfStore) (cv : Nat) (first : Bool) :
    confBlock env loop f fp store cv (linkBlock first) =
      (Round.block first f fp store cv).run env loop loop := by
  change _ = (confParse env loop none f.resolvedPath fp true store).bind fun call =>
    blockRound loop first f cv call.1 call.2
  unfold confBlock
  cases confParse env loop none f.resolvedPath fp true store with
  | none => rfl
  | some call =>
      obtain ⟨t, out⟩ := call
      simp only [Option.bind_eq_bind, Option.bind_some]
      unfold blockRound
      cases out.ret <;> rfl

theorem confItem_eq (env : ConfEnv) (loop : ParseLoop) (f : ConfFrame) (fp : List UInt8)
    (store : ConfStore) (key value var : CStr) :
    confItem env loop f fp store key value var =
      (itemRound f fp store key value var).run env loop loop := by
  unfold confItem itemRound
  cases store.tables f.conf with
  | none => rfl
  | some ht =>
      dsimp only
      cases hashGetVal ht key with
      | none => rfl
      | some found =>
          cases found with
          | none =>
              dsimp only
              rcases hashInsert ht key store.valueNum .succeed with _ | ⟨ret, ht'⟩
              · rfl
              · dsimp only
                by_cases failed : ret ≠ 0
                · rw [if_pos failed, if_pos failed]
                  rfl
                · rw [if_neg failed, if_neg failed]
                  by_cases opens : value = [123]
                  · rw [if_pos opens, if_pos opens]
                    exact confBlock_eq env loop f fp _ _ true
                  · rw [if_neg opens, if_neg opens]
                    rfl
          | some cv =>
              dsimp only
              cases store.values cv with
              | entry values =>
                  dsimp only
                  by_cases opens : value = [123]
                  · rw [if_pos opens, if_pos opens]
                    rfl
                  · rw [if_neg opens, if_neg opens]
                    rfl
              | unset blocks =>
                  dsimp only
                  by_cases opens : value = [123]
                  · rw [if_pos opens, if_pos opens]
                    exact confBlock_eq env loop f fp _ _ false
                  · rw [if_neg opens, if_neg opens]
                    rfl
              | block blocks =>
                  dsimp only
                  by_cases opens : value = [123]
                  · rw [if_pos opens, if_pos opens]
                    exact confBlock_eq env loop f fp _ _ false
                  · rw [if_neg opens, if_neg opens]
                    rfl

theorem includeEntries_eq (env : ConfEnv) (loop : ParseLoop) (conf : Nat)
    (curFile dname bname : CStr) (entries : List DirEntry) (store : ConfStore) :
    includeEntries env loop conf curFile dname bname entries store =
      runFiles env loop conf (entriesPlan env curFile dname bname entries).refused
        (entriesPlan env curFile dname bname entries).files store := by
  induction entries generalizing store with
  | nil => rfl
  | cons entry entries ih =>
      unfold includeEntries entriesPlan
      by_cases isDir : entry.isDir = true
      case pos =>
        rw [if_pos isDir, if_pos isDir]
        exact ih store
      case neg =>
        rw [if_neg isDir, if_neg isDir]
        dsimp only
        cases path : env.realpath ((dname ++ 47 :: entry.name).take (pathMax - 2)) with
        | none => rfl
        | some resolvedPath =>
            dsimp only
            by_cases current : curFile = resolvedPath
            case pos =>
              rw [if_pos current, if_pos current]
              exact ih store
            case neg =>
              rw [if_neg current, if_neg current]
              cases env.fnmatch bname entry.name with
              | noMatch => exact ih store
              | error => rfl
              | found =>
                  unfold confInit
                  dsimp only
                  rw [path]
                  cases env.fopen ((dname ++ 47 :: entry.name).take (pathMax - 2)) with
                  | none => rfl
                  | some text =>
                      dsimp only [FilePlan.cons, runFiles]
                      cases confParse env loop (some conf) resolvedPath text false store with
                      | none => rfl
                      | some call =>
                          simp only [Option.map_some, Option.bind_eq_bind, Option.bind_some]
                          by_cases ok : call.2.ret = .ok
                          · rw [if_pos ok, if_pos ok]
                            exact ih call.2.store
                          · rw [if_neg ok, if_neg ok]

theorem confParseInclude_eq (env : ConfEnv) (loop : ParseLoop) (conf : Nat)
    (curFile incFile : CStr) (store : ConfStore) :
    confParseInclude env loop conf curFile incFile store =
      runFiles env loop conf (includePlan env curFile incFile).refused
        (includePlan env curFile incFile).files store := by
  unfold confParseInclude includePlan
  dsimp only
  split
  · rfl
  · cases env.opendir (env.dirname incFile) with
    | none => rfl
    | some entries => exact includeEntries_eq ..

theorem confPair_eq_run (env : ConfEnv) (fuel : Nat) (loop : ParseLoop) (f : ConfFrame)
    (fp : List UInt8) (store : ConfStore) (key value : CStr) :
    confPair env fuel loop f fp store key value =
      (pairRound env fuel f fp store key value).run env loop loop := by
  unfold confPair pairRound
  rcases confEvaluate (confVar env store f.conf) fuel value with _ | _ | _ | var
  · rfl
  · rfl
  · rfl
  · simp only [Option.bind_eq_bind, Option.bind_some]
    by_cases include' : key = [105, 110, 99, 108, 117, 100, 101]
    · rw [if_pos include', if_pos include']
      change _ = (runFiles env loop f.conf (includePlan env f.resolvedPath var).refused
        (includePlan env f.resolvedPath var).files store).bind fun result =>
        fileRound loop f fp result.1 result.2
      rw [confParseInclude_eq]
      cases runFiles env loop f.conf _ _ store with
      | none => rfl
      | some result =>
          obtain ⟨ret, store'⟩ := result
          simp only [Option.bind_some]
          unfold fileRound
          cases ret <;> rfl
    · rw [if_neg include', if_neg include']
      exact confItem_eq env loop f fp store key value var

/-! ## What follows a call -/

section After

variable {first : Bool} {f : ConfFrame} {cv t : Nat} {out : ConfOut} {fp : List UInt8}
  {ret : ConfRet}

theorem blockRound_ok (ok : out.ret = .ok) : blockRound loop first f cv t out =
    loop f out.fp (out.store.setValue cv (linkBlock first (out.store.values cv) t)) := by
  unfold blockRound
  rw [ok]

theorem blockRound_error (error : out.ret = .error) :
    blockRound loop first f cv t out = some (confError f.conf out.fp out.store) := by
  unfold blockRound
  rw [error]

/-- The process ends in the block. -/
theorem blockRound_ends (failed : out.ret ≠ .ok) (noError : out.ret ≠ .error) :
    blockRound loop first f cv t out = some out := by
  unfold blockRound
  cases ret : out.ret with
  | ok => exact absurd ret failed
  | error => exact absurd ret noError
  | exit => rfl
  | fault => rfl

/-- The process ends in a file. -/
theorem fileRound_ends (failed : ret ≠ .ok) (noError : ret ≠ .error) :
    fileRound loop f fp ret store = some ⟨ret, fp, store⟩ := by
  cases ret with
  | ok => exact absurd rfl failed
  | error => exact absurd rfl noError
  | exit => rfl
  | fault => rfl

/-- A block is parsed, and then the loop goes on, or the error is handled, or all ends. -/
theorem Round.run_block_cases {nested : ParseLoop} {out' : ConfOut}
    (ran : (Round.block first f fp store cv).run env nested loop = some out') :
    ∃ t out, confParse env nested none f.resolvedPath fp true store = some (t, out) ∧
      ((out.ret = .ok ∧
          loop f out.fp (out.store.setValue cv (linkBlock first (out.store.values cv) t)) =
            some out') ∨
        (out.ret = .error ∧ out' = confError f.conf out.fp out.store) ∨
        (out.ret ≠ .ok ∧ out.ret ≠ .error ∧ out' = out)) := by
  obtain ⟨⟨t, out⟩, called, ran⟩ := Option.bind_eq_some_iff.mp ran
  refine ⟨t, out, called, ?_⟩
  dsimp only at ran
  by_cases ok : out.ret = .ok
  case pos => exact Or.inl ⟨ok, (blockRound_ok ok).symm.trans ran⟩
  case neg =>
    by_cases error : out.ret = .error
    case pos =>
      rw [blockRound_error error] at ran
      exact Or.inr (Or.inl ⟨error, (Option.some.inj ran).symm⟩)
    case neg =>
      rw [blockRound_ends ok error] at ran
      exact Or.inr (Or.inr ⟨ok, error, (Option.some.inj ran).symm⟩)

/-- The files are parsed, and then the same. -/
theorem Round.run_file_cases {nested : ParseLoop} {incFile : CStr}
    (ran : (Round.file f fp store incFile).run env nested loop = some out) :
    ∃ ret store', runFiles env nested f.conf (includePlan env f.resolvedPath incFile).refused
        (includePlan env f.resolvedPath incFile).files store = some (ret, store') ∧
      ((ret = .ok ∧ loop f fp store' = some out) ∨
        (ret = .error ∧ out = confError f.conf fp store') ∨
        (ret ≠ .ok ∧ ret ≠ .error ∧ out = ⟨ret, fp, store'⟩)) := by
  obtain ⟨⟨ret, store'⟩, parsed, ran⟩ := Option.bind_eq_some_iff.mp ran
  refine ⟨ret, store', parsed, ?_⟩
  dsimp only at ran
  by_cases ok : ret = .ok
  case pos =>
    subst ok
    exact Or.inl ⟨rfl, ran⟩
  case neg =>
    by_cases error : ret = .error
    case pos =>
      subst error
      exact Or.inr (Or.inl ⟨rfl, (Option.some.inj ran).symm⟩)
    case neg =>
      rw [fileRound_ends ok error] at ran
      exact Or.inr (Or.inr ⟨ok, error, (Option.some.inj ran).symm⟩)

end After

/-- **A round of the loop** makes its calls and goes on. -/
theorem confLoop_succ (env : ConfEnv) (fuel : Nat) (f : ConfFrame) (fp : List UInt8)
    (store : ConfStore) :
    confLoop env (fuel + 1) f fp store =
      (f.round env (fuel + 1) fp store).run env (confLoop env fuel) (confLoop env fuel) := by
  change confLine env (fuel + 1) (confLoop env fuel) f fp store = _
  unfold ConfFrame.round
  cases got : fgets maxLine fp with
  | none => exact confLine_nil got
  | some line =>
      obtain ⟨raw, rest⟩ := line
      rw [confLine_reads env (fuel + 1) (confLoop env fuel) f store got]
      dsimp only
      rcases f.reads raw rest with _ | _ | _ | _ | ⟨key, value⟩
      · rfl
      · rfl
      · rfl
      · unfold ConfFrame.does
        rw [← (f.alike_after raw).block, ← (f.alike_after raw).conf]
        rfl
      · exact confPair_eq_run ..

end Calls

end Verben
