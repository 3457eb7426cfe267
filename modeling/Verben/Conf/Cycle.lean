import Verben.Conf.Expand
import Verben.Conf.Fail
import Verben.Conf.Fuel
import Verben.Lib.Nesting

/-!
# Files that include each other

A file is parsed inside the call for the file that names it. The directory is searched without the
file that is parsed at the moment, but the files around it can be included again, so files that
include each other are opened without end. Nothing else keeps the parser from coming to an end,
but `conf_evaluate` (`conf_init_returns_iff`): in each file that is open there is less and less
to read.
-/

namespace Verben

open Relation Nesting

/-- Where the parser is: the files that are open, the innermost first, and what the loop goes on
with. -/
structure Spot : Type where
  files : List CStr
  frame : ConfFrame
  fp : List UInt8
  store : ConfStore

def Spot.round (env : ConfEnv) (s : Spot) (fuel : Nat) : Round :=
  s.frame.round env fuel s.fp s.store

def Spot.loop (env : ConfEnv) (s : Spot) (fuel : Nat) : Option ConfOut :=
  confLoop env fuel s.frame s.fp s.store

/-- From a round to the next one, or to the first one of a call that it makes. -/
inductive Spot.Moves (env : ConfEnv) : Spot → Spot → Prop
  | next {s : Spot} {fuel : Nat} {f : ConfFrame} {fp : List UInt8} {store : ConfStore}
      (round : s.round env fuel = .next f fp store) : Moves env s ⟨s.files, f, fp, store⟩
  | block {s : Spot} {fuel : Nat} {first : Bool} {f : ConfFrame} {fp : List UInt8}
      {store store' : ConfStore} {cv : Nat} (round : s.round env fuel = .block first f fp store cv)
      (opened : store.opened = some store') :
      Moves env s ⟨s.files, store.frame env store.tableNum f.resolvedPath true, fp, store'⟩
  | afterBlock {s : Spot} {fuel fuel' : Nat} {first : Bool} {f : ConfFrame} {fp : List UInt8}
      {store : ConfStore} {cv t : Nat} {out : ConfOut}
      (round : s.round env fuel = .block first f fp store cv)
      (called : confParse env (confLoop env fuel') none f.resolvedPath fp true store =
        some (t, out)) (ok : out.ret = .ok) :
      Moves env s ⟨s.files, f, out.fp,
        out.store.setValue cv (linkBlock first (out.store.values cv) t)⟩
  | file {s : Spot} {fuel fuel' : Nat} {f : ConfFrame} {fp : List UInt8}
      {store store' : ConfStore} {incFile : CStr} {before after : List (CStr × List UInt8)}
      {file : CStr × List UInt8} (round : s.round env fuel = .file f fp store incFile)
      (plan : (includePlan env f.resolvedPath incFile).files = before ++ file :: after)
      (ran : runFiles env (confLoop env fuel') f.conf false before store = some (.ok, store')) :
      Moves env s ⟨file.1 :: s.files, store'.frame env f.conf file.1 false, file.2, store'.called⟩
  | afterFiles {s : Spot} {fuel fuel' : Nat} {f : ConfFrame} {fp : List UInt8}
      {store store' : ConfStore} {incFile : CStr}
      (round : s.round env fuel = .file f fp store incFile)
      (ran : runFiles env (confLoop env fuel') f.conf
        (includePlan env f.resolvedPath incFile).refused
        (includePlan env f.resolvedPath incFile).files store = some (.ok, store')) :
      Moves env s ⟨s.files, f, fp, store'⟩

/-- The loop comes to an end. -/
def Spot.Returns (env : ConfEnv) (s : Spot) : Prop := ∃ fuel out, s.loop env fuel = some out

/-- `conf_evaluate` comes to an end, when the round calls it. -/
def Spot.Evaluates (env : ConfEnv) (s : Spot) : Prop :=
  ∀ raw rest key value, fgets maxLine s.fp = some (raw, rest) →
    s.frame.reads raw rest = some (.pair key value) →
      EvalEnds (confVar env s.store s.frame.conf) value

/-- The first round of `conf_init`. -/
def ConfEnv.start (env : ConfEnv) (filename : CStr) (store : ConfStore) : Option Spot := do
  let path ← env.realpath filename
  let fp ← env.fopen filename
  let store' ← store.opened
  some ⟨[path], store.frame env store.tableNum path false, fp, store'⟩

/-- The round is one of the run. -/
def Visits (env : ConfEnv) (filename : CStr) (store : ConfStore) (s : Spot) : Prop :=
  ∃ start, env.start filename store = some start ∧ ReflTransGen (Spot.Moves env) start s

section Spot

variable {env : ConfEnv} {s t : Spot} {m n : Nat} {out : ConfOut}

theorem itemRound_ne_stuck (f : ConfFrame) (fp : List UInt8) (store : ConfStore)
    (key value var : CStr) : itemRound f fp store key value var ≠ .stuck := by
  unfold itemRound
  repeat' split
  all_goals exact nofun

theorem pairRound_eq_stuck {fuel : Nat} {f : ConfFrame} {fp : List UInt8} {store : ConfStore}
    {key value : CStr} : pairRound env fuel f fp store key value = .stuck ↔
      confEvaluate (confVar env store f.conf) fuel value = none := by
  unfold pairRound
  rcases confEvaluate (confVar env store f.conf) fuel value with _ | _ | _ | var
  · exact ⟨fun _ => rfl, fun _ => rfl⟩
  · exact ⟨nofun, nofun⟩
  · exact ⟨nofun, nofun⟩
  · refine ⟨fun stuck => ?_, nofun⟩
    dsimp only at stuck
    split at stuck
    · cases stuck
    · exact absurd stuck (itemRound_ne_stuck _ _ _ _ _ _)

theorem Spot.Evaluates.unstuck (evaluates : s.Evaluates env) :
    ∃ fuel, s.round env fuel ≠ .stuck := by
  unfold Spot.round ConfFrame.round
  cases got : fgets maxLine s.fp with
  | none => exact ⟨0, nofun⟩
  | some line =>
      obtain ⟨raw, rest⟩ := line
      dsimp only
      rcases reads : s.frame.reads raw rest with _ | _ | _ | _ | ⟨key, value⟩
      · exact ⟨0, nofun⟩
      · exact ⟨0, nofun⟩
      · exact ⟨0, nofun⟩
      · exact ⟨0, nofun⟩
      · obtain ⟨fuel, ret, returns⟩ := evaluates raw rest key value got reads
        refine ⟨fuel, mt pairRound_eq_stuck.mp ?_⟩
        rw [← (s.frame.alike_after raw).conf, returns]
        exact nofun

theorem Spot.evaluates_of_unstuck {fuel : Nat} (unstuck : s.round env fuel ≠ .stuck) :
    s.Evaluates env := by
  intro raw rest key value got reads
  unfold Spot.round ConfFrame.round at unstuck
  rw [got] at unstuck
  dsimp only at unstuck
  rw [reads] at unstuck
  have some' := mt pairRound_eq_stuck.mpr unstuck
  rw [← (s.frame.alike_after raw).conf] at some'
  obtain ⟨ret, returns⟩ := Option.ne_none_iff_exists'.mp some'
  exact ⟨fuel, ret, returns⟩

/-- With more fuel a round is the same. -/
theorem Spot.round_unique (first : s.round env m ≠ .stuck) (second : s.round env n ≠ .stuck) :
    s.round env m = s.round env n := by
  have first' : s.round env (max m n) = s.round env m := round_mono first (Nat.le_max_left m n)
  have second' : s.round env (max m n) = s.round env n := round_mono second (Nat.le_max_right m n)
  exact first'.symm.trans second'

end Spot

section Unique

variable {env : ConfEnv} {m n : Nat} {fp : List UInt8} {store : ConfStore} {path : CStr}
  {ht : Option Nat} {block : Bool} {conf : Nat} {refused : Bool}
  {files before after : List (CStr × List UInt8)}

theorem confParse_unique {call call' : Nat × ConfOut}
    (first : confParse env (confLoop env m) ht path fp block store = some call)
    (second : confParse env (confLoop env n) ht path fp block store = some call') :
    call = call' := by
  have first' := confParse_extends (confLoop_extends env (Nat.le_max_left m n)) first
  have second' := confParse_extends (confLoop_extends env (Nat.le_max_right m n)) second
  exact Option.some.inj (first'.symm.trans second')

theorem runFiles_unique {result result' : ConfRet × ConfStore}
    (first : runFiles env (confLoop env m) conf refused files store = some result)
    (second : runFiles env (confLoop env n) conf refused files store = some result') :
    result = result' := by
  have first' := runFiles_extends (confLoop_extends env (Nat.le_max_left m n)) first
  have second' := runFiles_extends (confLoop_extends env (Nat.le_max_right m n)) second
  exact Option.some.inj (first'.symm.trans second')

/-- The files behind those that were accepted. -/
theorem runFiles_behind {result : ConfRet × ConfStore} {store' : ConfStore}
    (whole : runFiles env (confLoop env m) conf refused (before ++ after) store = some result)
    (ran : runFiles env (confLoop env n) conf false before store = some (.ok, store')) :
    runFiles env (confLoop env m) conf refused after store' = some result := by
  induction before generalizing store with
  | nil =>
      cases ran
      exact whole
  | cons file before ih =>
      obtain ⟨call, called, _⟩ := Option.bind_eq_some_iff.mp whole
      obtain ⟨call', called', _⟩ := Option.bind_eq_some_iff.mp ran
      cases confParse_unique called called'
      rw [List.cons_append, runFiles_cons called] at whole
      rw [runFiles_cons called'] at ran
      by_cases ok : call.2.ret = .ok
      · rw [if_pos ok] at whole ran
        exact ih whole ran
      · rw [if_neg ok] at ran
        exact absurd (congrArg Prod.fst (Option.some.inj ran)) ok

/-- All files are parsed, when each of them is once those before it were accepted. -/
theorem runFiles_returns (each : ∀ before file after store' n, files = before ++ file :: after →
      runFiles env (confLoop env n) conf false before store = some (.ok, store') →
      ∃ n out,
        confLoop env n (store'.frame env conf file.1 false) file.2 store'.called = some out) :
    ∃ n result, runFiles env (confLoop env n) conf refused files store = some result := by
  induction files generalizing store with
  | nil => exact ⟨0, _, rfl⟩
  | cons file files ih =>
      obtain ⟨n, out, ran⟩ := each [] file files store 0 rfl rfl
      have called : confParse env (confLoop env n) (some conf) file.1 file.2 false store =
          some (conf, out) := by
        rw [confParse_file, ran]
        rfl
      by_cases ok : out.ret = .ok
      case neg =>
        refine ⟨n, (out.ret, out.store), ?_⟩
        rw [runFiles_cons called, if_neg ok]
      case pos =>
        obtain ⟨n', result, rest⟩ := ih fun before file' after store' m split accepted => by
          refine each (file :: before) file' after store' (max n m) (congrArg _ split) ?_
          have called' := confParse_extends (confLoop_extends env (Nat.le_max_left n m)) called
          rw [runFiles_cons called', if_pos ok]
          exact runFiles_extends (confLoop_extends env (Nat.le_max_right n m)) accepted
        have called' := confParse_extends (confLoop_extends env (Nat.le_max_left n n')) called
        refine ⟨max n n', result, ?_⟩
        rw [runFiles_cons called', if_pos ok]
        exact runFiles_extends (confLoop_extends env (Nat.le_max_right n n')) rest

end Unique

section Moves

variable {env : ConfEnv} {s t : Spot} {m n : Nat} {out : ConfOut}

/-- **The loop ends**, when it does from every round that it comes to next. -/
theorem Spot.returns_of_moves (evaluates : s.Evaluates env)
    (next : ∀ t, s.Moves env t → t.Returns env) : s.Returns env := by
  obtain ⟨m, unstuck⟩ := evaluates.unstuck
  have finish : ∀ n out, (s.round env m).run env (confLoop env n) (confLoop env n) = some out →
      s.Returns env := by
    intro n out ran
    refine ⟨max m n + 1, out, ?_⟩
    unfold Spot.loop
    have more := confLoop_extends env (Nat.le_max_right m n)
    rw [confLoop_succ, round_mono unstuck (Nat.le_succ_of_le (Nat.le_max_left m n))]
    exact Round.run_extends more ran
  cases round : s.round env m with
  | stuck => exact absurd round unstuck
  | done out => exact finish 0 out (by rw [round]; rfl)
  | broken fp store => exact finish 0 ⟨.fault, fp, store⟩ (by rw [round]; rfl)
  | next f fp store =>
      obtain ⟨n, out, ran⟩ := next _ (.next round)
      exact finish n out (by rw [round]; exact ran)
  | block first f fp store cv =>
      obtain ⟨store', opened, _⟩ := store.opens
      obtain ⟨n, out, ran⟩ := next _ (.block round opened)
      have called : confParse env (confLoop env n) none f.resolvedPath fp true store =
          some (store.tableNum, out) := by
        rw [confParse_opened opened]
        exact Option.map_eq_some_iff.mpr ⟨out, ran, rfl⟩
      have result : ∀ out', blockRound (confLoop env n) first f cv store.tableNum out = some out' →
          s.Returns env := fun out' ran' => finish n out' (by
        rw [round]
        exact Option.bind_eq_some_iff.mpr ⟨_, called, ran'⟩)
      by_cases ok : out.ret = .ok
      case pos =>
        obtain ⟨n', out', ran'⟩ := next _ (.afterBlock round called ok)
        refine finish (max n n') out' ?_
        rw [round]
        refine Option.bind_eq_some_iff.mpr ⟨_, confParse_extends
          (confLoop_extends env (Nat.le_max_left n n')) called, ?_⟩
        rw [blockRound_ok ok]
        exact confLoop_extends env (Nat.le_max_right n n') ran'
      case neg =>
        by_cases error : out.ret = .error
        · exact result _ (blockRound_error error)
        · exact result _ (blockRound_ends ok error)
  | file f fp store incFile =>
      obtain ⟨n, ⟨ret, store'⟩, ran⟩ := runFiles_returns
        fun before file after store' n plan accepted => next _ (.file round plan accepted)
      have result : ∀ out, fileRound (confLoop env n) f fp ret store' = some out →
          s.Returns env := fun out ran' => finish n out (by
        rw [round]
        exact Option.bind_eq_some_iff.mpr ⟨_, ran, ran'⟩)
      by_cases ok : ret = .ok
      case pos =>
        subst ok
        obtain ⟨n', out', ran'⟩ := next _ (.afterFiles round ran)
        refine finish (max n n') out' ?_
        rw [round]
        exact Option.bind_eq_some_iff.mpr ⟨_, runFiles_extends
          (confLoop_extends env (Nat.le_max_left n n')) ran,
          confLoop_extends env (Nat.le_max_right n n') ran'⟩
      case neg =>
        by_cases error : ret = .error
        · subst error
          exact result _ rfl
        · exact result _ (fileRound_ends ok error)

/-- A round of a loop that ends makes only calls that end, with less fuel. -/
theorem Spot.Moves.returns (move : s.Moves env t) (ran : s.loop env (n + 1) = some out) :
    ∃ out', t.loop env n = some out' := by
  have unstuck : s.round env (n + 1) ≠ .stuck := round_unstuck ran
  unfold Spot.loop at ran
  rw [confLoop_succ] at ran
  change (s.round env (n + 1)).run env (confLoop env n) (confLoop env n) = some out at ran
  have same : ∀ {m round}, s.round env m = round → round ≠ .stuck → s.round env (n + 1) = round :=
    fun here other => (round_unique unstuck (by rw [here]; exact other)).trans here
  cases move with
  | next round =>
      rw [same round nofun] at ran
      exact ⟨out, ran⟩
  | block round opened =>
      rw [same round nofun] at ran
      obtain ⟨call, called, _⟩ := Option.bind_eq_some_iff.mp ran
      rw [confParse_opened opened] at called
      obtain ⟨out', ran', _⟩ := Option.map_eq_some_iff.mp called
      exact ⟨out', ran'⟩
  | afterBlock round called ok =>
      rw [same round nofun] at ran
      obtain ⟨call, called', ran⟩ := Option.bind_eq_some_iff.mp ran
      cases confParse_unique called called'
      exact ⟨out, (blockRound_ok ok).symm.trans ran⟩
  | file round plan accepted =>
      rw [same round nofun] at ran
      obtain ⟨result, parsed, _⟩ := Option.bind_eq_some_iff.mp ran
      rw [plan] at parsed
      obtain ⟨call, called, _⟩ := Option.bind_eq_some_iff.mp (runFiles_behind parsed accepted)
      rw [confParse_file] at called
      obtain ⟨out', ran', _⟩ := Option.map_eq_some_iff.mp called
      exact ⟨out', ran'⟩
  | afterFiles round accepted =>
      rw [same round nofun] at ran
      obtain ⟨result, parsed, ran⟩ := Option.bind_eq_some_iff.mp ran
      cases runFiles_unique accepted parsed
      exact ⟨out, ran⟩

/-- **The measure**: a file is opened, or there is less to read in the one that is open. -/
theorem moves_descends (env : ConfEnv) :
    Descends (Spot.Moves env) Spot.files fun s => s.fp.length := by
  intro s t move
  have shorter : ∀ {fuel round}, s.round env fuel = round → round ≠ .done ⟨.ok, s.fp, s.store⟩ →
      round.fp.length < s.fp.length := by
    intro fuel round here other
    rcases round_fp env fuel s.frame s.fp s.store with ends | less
    · exact absurd (here.symm.trans ends) other
    · rw [← here]
      exact less
  cases move with
  | next round => exact Or.inr ⟨rfl, shorter round nofun⟩
  | block round _ => exact Or.inr ⟨rfl, shorter round nofun⟩
  | @afterBlock fuel fuel' first f fp store cv t out round called _ =>
      have less : out.fp.length ≤ fp.length := (confLoop_shrinks env fuel').confParse called
      exact Or.inr ⟨rfl, Nat.lt_of_le_of_lt less (shorter round nofun)⟩
  | @file fuel fuel' f fp store store' incFile before after file round _ _ =>
      exact Or.inl ⟨file.1, rfl⟩
  | afterFiles round _ => exact Or.inr ⟨rfl, shorter round nofun⟩

/-- A file that is included was found and opened. -/
theorem mem_entriesPlan {curFile dname bname : CStr} {entries : List DirEntry}
    {file : CStr × List UInt8} (mem : file ∈ (entriesPlan env curFile dname bname entries).files) :
    ∃ path, env.realpath path = some file.1 ∧ env.fopen path = some file.2 := by
  induction entries with
  | nil => cases mem
  | cons entry entries ih =>
      unfold entriesPlan at mem
      by_cases isDir : entry.isDir = true
      case pos =>
        rw [if_pos isDir] at mem
        exact ih mem
      case neg =>
        rw [if_neg isDir] at mem
        dsimp only at mem
        cases path : env.realpath ((dname ++ 47 :: entry.name).take (pathMax - 2)) with
        | none =>
            rw [path] at mem
            cases mem
        | some resolvedPath =>
            rw [path] at mem
            dsimp only at mem
            by_cases current : curFile = resolvedPath
            case pos =>
              rw [if_pos current] at mem
              exact ih mem
            case neg =>
              rw [if_neg current] at mem
              cases matched : env.fnmatch bname entry.name with
              | noMatch =>
                  rw [matched] at mem
                  exact ih mem
              | error =>
                  rw [matched] at mem
                  cases mem
              | found =>
                  rw [matched] at mem
                  cases opened : env.fopen ((dname ++ 47 :: entry.name).take (pathMax - 2)) with
                  | none =>
                      rw [opened] at mem
                      cases mem
                  | some text =>
                      rw [opened] at mem
                      rcases List.mem_cons.mp mem with rfl | mem'
                      · exact ⟨_, path, opened⟩
                      · exact ih mem'

theorem mem_includePlan {curFile incFile : CStr} {file : CStr × List UInt8}
    (mem : file ∈ (includePlan env curFile incFile).files) :
    ∃ path, env.realpath path = some file.1 ∧ env.fopen path = some file.2 := by
  unfold includePlan at mem
  dsimp only at mem
  split at mem
  · cases mem
  · cases opened : env.opendir (env.dirname incFile) with
    | none =>
        rw [opened] at mem
        cases mem
    | some _ =>
        rw [opened] at mem
        exact mem_entriesPlan mem

end Moves

/-! ## Whole runs -/

section Run

variable {env : ConfEnv} {s start : Spot} {n : Nat} {out : ConfOut} {filename : CStr}
  {store : ConfStore}

theorem start_eq (begins : env.start filename store = some start) :
    ∃ path fp store', env.realpath filename = some path ∧ env.fopen filename = some fp ∧
      store.opened = some store' ∧
      start = ⟨[path], store.frame env store.tableNum path false, fp, store'⟩ := by
  obtain ⟨path, resolved, begins⟩ := Option.bind_eq_some_iff.mp begins
  obtain ⟨fp, text, begins⟩ := Option.bind_eq_some_iff.mp begins
  obtain ⟨store', opened, same⟩ := Option.bind_eq_some_iff.mp begins
  exact ⟨path, fp, store', resolved, text, opened, (Option.some.inj same).symm⟩

theorem confInit_of_none (none' : env.start filename store = none) (loop : ParseLoop) :
    confInit env loop none filename store = some (.error, store) := by
  obtain ⟨store', opened, _⟩ := store.opens
  unfold ConfEnv.start at none'
  unfold confInit
  cases path : env.realpath filename with
  | none => rfl
  | some resolvedPath =>
      cases text : env.fopen filename with
      | none => rfl
      | some fp =>
          rw [path, text, opened] at none'
          cases none'

theorem confInit_of_start (begins : env.start filename store = some start) (fuel : Nat) :
    confInit env (confLoop env fuel) none filename store =
      (start.loop env fuel).map fun out => (out.ret, out.store) := by
  obtain ⟨path, fp, store', resolved, text, opened, rfl⟩ := start_eq begins
  unfold confInit
  simp only [resolved, text, confParse_opened opened, Option.map_map]
  rfl

/-- A loop that ends makes only calls that end, and no more of them than it has fuel. -/
theorem loop_of_reached (ran : start.loop env n = some out)
    (reached : ReflTransGen (Spot.Moves env) start s) :
    ∃ m out', s.loop env (m + 1) = some out' ∧ m + s.files.length ≤ n + start.files.length := by
  have used : ∀ {t : Spot} {n out}, t.loop env n = some out → ∃ m, n = m + 1 := by
    intro t n out ran
    cases n with
    | zero => cases ran
    | succ m => exact ⟨m, rfl⟩
  induction reached with
  | refl =>
      obtain ⟨m, rfl⟩ := used ran
      exact ⟨m, out, ran, by omega⟩
  | @tail s t _ move ih =>
      obtain ⟨m, out', ran', le⟩ := ih
      obtain ⟨out'', ran''⟩ := move.returns ran'
      obtain ⟨m', rfl⟩ := used ran''
      refine ⟨m', out'', ran'', ?_⟩
      rcases moves_descends env s t move with ⟨file, opened⟩ | ⟨same, _⟩
      · rw [opened, List.length_cons]
        omega
      · rw [same]
        omega

/-- Only files that are there are open. -/
theorem files_of_reached {files : Finset CStr}
    (finite : ∀ path resolved, env.realpath path = some resolved → env.fopen path ≠ none →
      resolved ∈ files)
    (begins : env.start filename store = some start)
    (reached : ReflTransGen (Spot.Moves env) start s) : ∀ path ∈ s.files, path ∈ files := by
  induction reached with
  | refl =>
      obtain ⟨path, fp, store', resolved, text, opened, rfl⟩ := start_eq begins
      refine List.forall_mem_singleton.mpr (finite filename path resolved ?_)
      rw [text]
      exact nofun
  | tail _ move ih =>
      cases move with
      | next => exact ih
      | block => exact ih
      | afterBlock => exact ih
      | afterFiles => exact ih
      | file round plan _ =>
          refine List.forall_mem_cons.mpr ⟨?_, ih⟩
          obtain ⟨path, resolved, text⟩ :=
            mem_includePlan (plan ▸ List.mem_append_right _ List.mem_cons_self)
          refine finite path _ resolved ?_
          rw [text]
          exact nofun

/-! ## No references in the environment -/

theorem Spot.Moves.plain {t : Spot} (move : s.Moves env t) (plain : s.store.Plain) :
    t.store.Plain := by
  have keeps : ∀ {fuel round}, s.round env fuel = round → round.Plain := fun {fuel _} here =>
    here ▸ round_plain plain
  have opens : ∀ {store store' : ConfStore}, store.opened = some store' → store.Plain →
      store'.Plain := by
    intro store store' opened plain
    obtain ⟨new, _, rfl⟩ := Option.map_eq_some_iff.mp opened
    exact plain
  cases move with
  | next round => exact keeps round
  | block round opened => exact opens opened (keeps round)
  | @afterBlock _ fuel first f fp store cv t' out round called _ =>
      have plain' : out.store.Plain :=
        confParse_keepsPlain (confLoop_keepsPlain env fuel) (keeps round) called
      exact plain'.link first cv t'
  | @file _ fuel f fp store store' incFile before after file round _ ran =>
      exact runFiles_keepsPlain (confLoop_keepsPlain env fuel) (keeps round) ran
  | @afterFiles _ fuel f fp store store' incFile round ran =>
      exact runFiles_keepsPlain (confLoop_keepsPlain env fuel) (keeps round) ran

/-- Where no variable of the environment has a reference in its value, `conf_evaluate` comes to an
end in every round. -/
theorem evaluates_of_plain (plainEnv : ∀ name text, env.getenv name = some text → 36 ∉ text)
    (plain : store.Plain) (visits : Visits env filename store s) : s.Evaluates env := by
  obtain ⟨start, begins, reached⟩ := visits
  have plain' : s.store.Plain := by
    induction reached with
    | refl =>
        obtain ⟨_, _, _, _, _, opened, rfl⟩ := start_eq begins
        obtain ⟨new, _, rfl⟩ := Option.map_eq_some_iff.mp opened
        exact plain
    | tail _ move ih => exact move.plain ih
  intro raw rest key value _ _
  obtain ⟨ret, returns⟩ := confEvaluate_of_plain (plain_confVar s.frame.conf plainEnv plain')
    (Nat.lt_succ_self (value.count 36))
  exact ⟨_, ret, returns⟩

end Run

/-- **When `conf_init` returns.** For every finite set of files, whatever they include and in
whatever order: it comes to an end if and only if no file is open at once more and more often, and
`conf_evaluate` comes to one wherever it is called. -/
theorem conf_init_returns_iff (env : ConfEnv) (files : Finset CStr)
    (finite : ∀ path resolved, env.realpath path = some resolved → env.fopen path ≠ none →
      resolved ∈ files)
    (filename : CStr) (store : ConfStore) :
    (∃ fuel result, confInit env (confLoop env fuel) none filename store = some result) ↔
      (∃ k, ∀ s, Visits env filename store s → ∀ path, s.files.count path ≤ k) ∧
        ∀ s, Visits env filename store s → s.Evaluates env := by
  cases begins : env.start filename store with
  | none =>
      have never : ∀ s, ¬ Visits env filename store s := by
        intro s visits
        obtain ⟨start, begins', _⟩ := visits
        cases begins.symm.trans begins'
      exact ⟨fun _ => ⟨⟨0, fun s visits => absurd visits (never s)⟩,
        fun s visits => absurd visits (never s)⟩, fun _ => ⟨0, _, confInit_of_none begins _⟩⟩
  | some start =>
      have visits : ∀ {s}, Visits env filename store s →
          ReflTransGen (Spot.Moves env) start s := by
        intro s visits
        obtain ⟨start', begins', reached⟩ := visits
        cases begins.symm.trans begins'
        exact reached
      constructor
      · intro returns
        obtain ⟨fuel, result, called⟩ := returns
        rw [confInit_of_start begins] at called
        obtain ⟨out, ran, _⟩ := Option.map_eq_some_iff.mp called
        refine ⟨⟨fuel + start.files.length, fun s visited path => ?_⟩, fun s visited => ?_⟩
        · obtain ⟨m, _, _, le⟩ := loop_of_reached ran (visits visited)
          exact Nat.le_trans List.count_le_length (Nat.le_trans (Nat.le_add_left _ m) le)
        · obtain ⟨m, out', ran', _⟩ := loop_of_reached ran (visits visited)
          have unstuck : s.round env (m + 1) ≠ .stuck := round_unstuck ran'
          exact Spot.evaluates_of_unstuck unstuck
      · intro condition
        obtain ⟨⟨k, bounded⟩, evaluates⟩ := condition
        have acc : Acc (flip (Spot.Moves env)) start :=
          acc_of_bounded (moves_descends env) (fun s => files_of_reached finite begins)
            fun s reached => bounded s ⟨start, begins, reached⟩
        have all : ∀ s, Acc (flip (Spot.Moves env)) s →
            ReflTransGen (Spot.Moves env) start s → s.Returns env := by
          intro s acc
          induction acc with
          | intro s _ ih =>
              intro reached
              exact Spot.returns_of_moves (evaluates s ⟨start, begins, reached⟩)
                fun t move => ih t move (reached.tail move)
        obtain ⟨fuel, out, ran⟩ := all start acc .refl
        refine ⟨fuel, (out.ret, out.store), ?_⟩
        rw [confInit_of_start begins, ran]
        rfl

theorem directory_finite (files : List (CStr × List UInt8)) (path resolved : CStr)
    (real : (ConfEnv.directory files).realpath path = some resolved)
    (opens : (ConfEnv.directory files).fopen path ≠ none) :
    resolved ∈ (files.map Prod.fst).toFinset := by
  obtain ⟨text, opens⟩ := Option.ne_none_iff_exists'.mp opens
  obtain ⟨file, found, _⟩ := Option.map_eq_some_iff.mp opens
  have named := List.find?_some found
  rw [List.mem_toFinset, List.mem_map]
  exact ⟨file, List.mem_of_find?_eq_some found,
    (of_decide_eq_true named).trans (Option.some.inj real)⟩

/-- The file `a` includes `b`, which is empty. -/
theorem conf_init_returns_included :
    ∃ env, env = ConfEnv.directory [([97], [105, 110, 99, 108, 117, 100, 101, 32, 98, 10]),
        ([98], [])] ∧
      (∃ k, ∀ s, Visits env [97] .init s → ∀ path, s.files.count path ≤ k) ∧
      ∀ s, Visits env [97] .init s → s.Evaluates env := by
  let files : List (CStr × List UInt8) :=
    [([97], [105, 110, 99, 108, 117, 100, 101, 32, 98, 10]), ([98], [])]
  let env := ConfEnv.directory files
  have returns : (confInit env (confLoop env 3) none [97] .init).isSome = true := by
    decide +kernel
  obtain ⟨result, called⟩ := Option.isSome_iff_exists.mp returns
  exact ⟨env, rfl, (conf_init_returns_iff env _ (directory_finite files) [97] .init).mp
    ⟨3, result, called⟩⟩

/-- The line `include` with a name. -/
def includeOf (name : UInt8) : List UInt8 := [105, 110, 99, 108, 117, 100, 101, 32, name, 10]

/-- The file `a` includes `b`, and `b` includes `a`. -/
def ConfEnv.cycle : ConfEnv := .directory [([97], includeOf 98), ([98], includeOf 97)]

theorem round_includeOf {name : UInt8} (named : name = 97 ∨ name = 98) (fuel : Nat)
    (f : ConfFrame) (store : ConfStore) :
    f.round .cycle (fuel + 1) (includeOf name) store =
      .file (f.after (includeOf name)) [] store [name] := by
  have got : fgets maxLine (includeOf name) = some (includeOf name, []) := by
    rcases named with rfl | rfl <;> decide
  have kind : lineKind (lineText (includeOf name)) =
      .pair [105, 110, 99, 108, 117, 100, 101] [name] := by
    rcases named with rfl | rfl <;> decide
  have plain : 36 ∉ [name] := by
    rcases named with rfl | rfl <;> decide
  have calm : ¬ f.Misreads (includeOf name) [] := by
    intro misreads
    cases kind.symm.trans misreads.1
  have reads : f.reads (includeOf name) [] =
      some (.pair [105, 110, 99, 108, 117, 100, 101] [name]) :=
    (ConfFrame.reads_of_calm calm).trans (congrArg some kind)
  unfold ConfFrame.round
  rw [got]
  dsimp only
  rw [reads]
  dsimp only
  unfold pairRound
  rw [confEvaluate_succ, evalNext_of_plain plain]
  rfl

/-- Each of the two files opens the other one. -/
theorem confLoop_cycle (fuel : Nat) (f : ConfFrame) (store : ConfStore) :
    (f.resolvedPath = [97] → confLoop .cycle fuel f (includeOf 98) store = none) ∧
      (f.resolvedPath = [98] → confLoop .cycle fuel f (includeOf 97) store = none) := by
  induction fuel generalizing f store with
  | zero => exact ⟨fun _ => rfl, fun _ => rfl⟩
  | succ fuel ih =>
      constructor
      · intro current
        have plan : includePlan .cycle (f.after (includeOf 98)).resolvedPath [98] =
            ⟨[([98], includeOf 97)], false⟩ := by
          rw [← (f.alike_after _).resolvedPath, current]
          rfl
        rw [confLoop_succ, round_includeOf (Or.inr rfl)]
        unfold Round.run
        dsimp only
        rw [plan]
        unfold runFiles
        rw [confParse_file, (ih _ _).2 rfl]
        rfl
      · intro current
        have plan : includePlan .cycle (f.after (includeOf 97)).resolvedPath [97] =
            ⟨[([97], includeOf 98)], false⟩ := by
          rw [← (f.alike_after _).resolvedPath, current]
          rfl
        rw [confLoop_succ, round_includeOf (Or.inl rfl)]
        unfold Round.run
        dsimp only
        rw [plan]
        unfold runFiles
        rw [confParse_file, (ih _ _).1 rfl]
        rfl

/-- Two files that include each other are parsed without end. -/
theorem conf_init_never_returns :
    (∀ path resolved, ConfEnv.cycle.realpath path = some resolved →
      ConfEnv.cycle.fopen path ≠ none → resolved ∈ ({[97], [98]} : Finset CStr)) ∧
      ∀ fuel, confInit .cycle (confLoop .cycle fuel) none [97] .init = none := by
  refine ⟨fun path resolved real opens => ?_, fun fuel => ?_⟩
  · have inside := directory_finite _ path resolved real opens
    exact inside
  · obtain ⟨store', opened, _⟩ := ConfStore.init.opens
    have begins : ConfEnv.cycle.start [97] .init = some ⟨[[97]],
        ConfStore.init.frame .cycle ConfStore.init.tableNum [97] false, includeOf 98, store'⟩ := by
      unfold ConfEnv.start
      rw [opened]
      rfl
    rw [confInit_of_start begins]
    unfold Spot.loop
    rw [(confLoop_cycle fuel _ store').1 rfl]
    rfl

end Verben
