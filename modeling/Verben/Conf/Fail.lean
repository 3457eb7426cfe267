import Verben.Conf.Free

/-!
# Where a parse fails

A line that is refused ends the parse. `readLoop` reads a configuration as `conf_parse` does, up to
the first such line, and says which blocks and files were open around it; it frees nothing. The
error is then handled once more in each call around the line, and whether that goes well depends
only on what was open there (`conf_fails_cleanly_iff`): the first block of a key is entered before
its value has a type, and an included file has no table of its own. A line may also break the
process by itself, before any error is handled.
-/

namespace Verben

open ConfStore

/-- What is open around a line, and around what breaks the process in the line itself: a variable
that is freed twice, or a pointer that cannot be followed. -/
inductive Opening : Type
  | firstBlock
  | nextBlock
  | file
  | line
deriving DecidableEq

/-- What a text comes to: it is read up to its end or the end of its block, or a line in it is
refused or breaks the process, with what is open around it, the outermost first. -/
inductive Reading : Type
  | ends (fp : List UInt8) (store : ConfStore)
  | fails (place : List Opening)

abbrev Reader := ConfFrame → List UInt8 → ConfStore → Option Reading

/-- A block, which has a table of its own. -/
def readBlock (env : ConfEnv) (read : Reader) (path : CStr) (fp : List UInt8) (block : Bool)
    (store : ConfStore) : Option Reading :=
  match store.opened with
  | none => some (.fails [])
  | some store' => read (store.frame env store.tableNum path block) fp store'

/-- The files of a directive. -/
def readFiles (env : ConfEnv) (read : Reader) (conf : Nat) (refused : Bool) :
    List (CStr × List UInt8) → ConfStore → Option Reading
  | [], store => some (if refused then .fails [] else .ends [] store)
  | file :: files, store =>
      match read (store.frame env conf file.1 false) file.2 store.called with
      | none => none
      | some (.ends _ store') => readFiles env read conf refused files store'
      | some (.fails place) => some (.fails (.file :: place))

def Round.read (env : ConfEnv) (read : Reader) : Round → Option Reading
  | .stuck => none
  | .done out => some (if out.ret = .ok then .ends out.fp out.store else .fails [])
  | .broken _ _ => some (.fails [.line])
  | .next f fp store => read f fp store
  | .block first f fp store cv =>
      match readBlock env read f.resolvedPath fp true store with
      | none => none
      | some (.ends fp' store') =>
          read f fp' (store'.setValue cv (linkBlock first (store'.values cv) store.tableNum))
      | some (.fails place) => some (.fails ((if first then .firstBlock else .nextBlock) :: place))
  | .file f fp store incFile =>
      let plan := includePlan env f.resolvedPath incFile
      match readFiles env read f.conf plan.refused plan.files store with
      | none => none
      | some (.ends _ store') => read f fp store'
      | some (.fails place) => some (.fails place)

/-- The loop, up to the first line that is refused or breaks the process. -/
def readLoop (env : ConfEnv) : Nat → Reader
  | 0, _, _, _ => none
  | fuel + 1, f, fp, store => (f.round env (fuel + 1) fp store).read env (readLoop env fuel)

/-- What is open around the line that ends `conf_init` with an error. -/
def failurePlace (env : ConfEnv) (fuel : Nat) (filename : CStr) (store : ConfStore) :
    Option (List Opening) :=
  match env.realpath filename with
  | none => some []
  | some path =>
      match env.fopen filename with
      | none => some []
      | some fp =>
          match readBlock env (readLoop env fuel) path fp false store with
          | some (.fails place) => some place
          | _ => none

/-- The error was handled: `conf_init` returns -1, and all tables that were created are freed. To
free a table twice, or a value without a type, ends the run in another way. -/
def FailsCleanly (store : ConfStore) (ret : ConfRet) (store' : ConfStore) : Prop :=
  ret = .error ∧ ∀ i, store.tableNum ≤ i → i < store'.tableNum → store'.tables i = none

/-! ## What a round comes to -/

/-- What a round comes to, when the table holds the items that were read. -/
inductive Goes (store : ConfStore) (conf low : Nat) (items : List ConfItem) : Round → Prop
  | stuck : Goes store conf low items .stuck
  | ends (fp : List UInt8) : Goes store conf low items (.done ⟨.ok, fp, store⟩)
  | fails (fp : List UInt8) : Goes store conf low items (.done (confError conf fp store))
  | broken (fp : List UInt8) : Goes store conf low items (.broken fp store)
  | next {f : ConfFrame} {fp : List UInt8} {store' : ConfStore} {items' : List ConfItem}
      (same : f.conf = conf) (holding : Holding store' conf low items')
      (beyond : store.Beyond store' conf low) : Goes store conf low items (.next f fp store')
  | block {first : Bool} {f : ConfFrame} {fp : List UInt8} {store' : ConfStore} {cv : Nat}
      {key : CStr} (same : f.conf = conf)
      (opens : OpensBlock store store' conf low items key first cv) :
      Goes store conf low items (.block first f fp store' cv)
  | file {f : ConfFrame} {fp : List UInt8} {incFile : CStr} (same : f.conf = conf) :
      Goes store conf low items (.file f fp store incFile)

section Round

variable {env : ConfEnv} {fuel : Nat} {f : ConfFrame} {fp : List UInt8} {store : ConfStore}
  {low : Nat} {items : List ConfItem} {key value : CStr}

theorem pairRound_goes (holding : Holding store f.conf low items) :
    Goes store f.conf low items (pairRound env fuel f fp store key value) := by
  unfold pairRound
  rcases confEvaluate (confVar env store f.conf) fuel value with _ | _ | _ | var
  · exact .stuck
  · exact .fails fp
  · exact .broken fp
  · dsimp only
    by_cases directive : key = [105, 110, 99, 108, 117, 100, 101]
    · rw [if_pos directive]
      exact .file rfl
    · rw [if_neg directive]
      rcases @itemRound_cases f fp store low items key value var holding with
        refused | ⟨store', _, item, holding', beyond⟩ | ⟨first, store', cv, _, item, opens⟩
      · rw [refused]
        exact .fails fp
      · rw [item]
        exact .next rfl holding' beyond
      · rw [item]
        exact .block rfl opens

theorem round_goes (env : ConfEnv) (fuel : Nat) (fp : List UInt8)
    (holding : Holding store f.conf low items) :
    Goes store f.conf low items (f.round env fuel fp store) := by
  unfold ConfFrame.round
  cases fgets maxLine fp with
  | none => exact .ends fp
  | some line =>
      obtain ⟨raw, rest⟩ := line
      have same : f.conf = (f.after raw).conf := (f.alike_after raw).conf
      dsimp only
      rcases f.reads raw rest with _ | _ | _ | _ | ⟨key, value⟩
      · exact .broken rest
      · exact .next same.symm holding (.refl ..)
      · exact .next same.symm holding (.refl ..)
      · cases f.block with
        | true => exact .ends rest
        | false => exact .fails rest
      · rw [same] at holding ⊢
        exact pairRound_goes holding

end Round

/-! ## What a call leaves behind -/

/-- Only other blocks of their keys are open. -/
def Recovers (place : List Opening) : Prop := ∀ o ∈ place, o = .nextBlock

/-- What a call leaves behind, by what the reader finds. -/
inductive Outcome (store : ConfStore) (conf low : Nat) : Option Reading → Option ConfOut → Prop
  | stuck : Outcome store conf low none none
  | ends {fp : List UInt8} {store' : ConfStore} {items : List ConfItem}
      (holding : Holding store' conf low items) (beyond : store.Beyond store' conf low) :
      Outcome store conf low (some (.ends fp store')) (some ⟨.ok, fp, store'⟩)
  | clean {place : List Opening} {out : ConfOut} (recovers : Recovers place)
      (error : out.ret = .error) (released : store.Released out.store conf low) :
      Outcome store conf low (some (.fails place)) (some out)
  | unclean {place : List Opening} {out : ConfOut} (lost : ¬ Recovers place)
      (failed : out.ret ≠ .ok) (noError : out.ret ≠ .error) :
      Outcome store conf low (some (.fails place)) (some out)

/-- What the files of a directive leave behind. -/
inductive FilesOutcome (store : ConfStore) (conf low : Nat) :
    Option Reading → Option (ConfRet × ConfStore) → Prop
  | stuck : FilesOutcome store conf low none none
  | ends {fp : List UInt8} {store' : ConfStore} {items : List ConfItem}
      (holding : Holding store' conf low items) (beyond : store.Beyond store' conf low) :
      FilesOutcome store conf low (some (.ends fp store')) (some (.ok, store'))
  | refused {store' : ConfStore} {items : List ConfItem}
      (holding : Holding store' conf low items) (beyond : store.Beyond store' conf low) :
      FilesOutcome store conf low (some (.fails [])) (some (.error, store'))
  | fails {place : List Opening} {ret : ConfRet} {store' : ConfStore} (failed : ret ≠ .ok)
      (gone : ret = .error → store'.tables conf = none) :
      FilesOutcome store conf low (some (.fails (.file :: place))) (some (ret, store'))

section Outcome

variable {env : ConfEnv} {fuel : Nat} {f : ConfFrame} {fp : List UInt8}
  {store store' : ConfStore} {conf low : Nat} {items : List ConfItem} {place : List Opening}
  {reading : Option Reading} {call : Option ConfOut} {ran : Option (ConfRet × ConfStore)}

@[simp] theorem recovers_cons (o : Opening) (place : List Opening) :
    Recovers (o :: place) ↔ o = .nextBlock ∧ Recovers place :=
  List.forall_mem_cons

theorem ConfStore.Released.before (beyond : store.Beyond store' conf low) {store'' : ConfStore}
    (released : store'.Released store'' conf low) : store.Released store'' conf low :=
  ⟨beyond.trans released.beyond, released.cleared⟩

theorem Outcome.before (beyond : store.Beyond store' conf low)
    (outcome : Outcome store' conf low reading call) : Outcome store conf low reading call := by
  cases outcome with
  | stuck => exact .stuck
  | ends holding beyond' => exact .ends holding (beyond.trans beyond')
  | clean recovers error released => exact .clean recovers error (released.before beyond)
  | unclean lost failed noError => exact .unclean lost failed noError

theorem FilesOutcome.before (beyond : store.Beyond store' conf low)
    (outcome : FilesOutcome store' conf low reading ran) :
    FilesOutcome store conf low reading ran := by
  cases outcome with
  | stuck => exact .stuck
  | ends holding beyond' => exact .ends holding (beyond.trans beyond')
  | refused holding beyond' => exact .refused holding (beyond.trans beyond')
  | fails failed gone => exact .fails failed gone

theorem ConfStore.beyond_called (store : ConfStore) (t low : Nat) :
    store.Beyond store.called t low :=
  ⟨fun _ _ => rfl, fun _ _ => rfl, Nat.le_refl _, Nat.le_refl _⟩

theorem Holding.inside (holding : Holding store conf low items) : conf < store.tableNum := by
  obtain ⟨_, _, table, _⟩ := holding
  exact table.inside

theorem Holding.called (holding : Holding store conf low items) :
    Holding store.called conf low items := by
  obtain ⟨map, areas, table, has⟩ := holding
  refine ⟨map, areas, ⟨table.held, table.inside, table.below, table.values, table.apart⟩, ?_⟩
  exact has.keeps ⟨fun _ _ _ => rfl, fun _ _ _ => rfl⟩ fun b _ items all level =>
    (all level).keeps ⟨fun _ _ _ => rfl, fun _ _ _ => rfl⟩

/-- The last line that is read of a call is refused. -/
theorem Outcome.refused (holding : Holding store conf low items) (fp : List UInt8) :
    Outcome store conf low (some (.fails [])) (some (confError conf fp store)) := by
  obtain ⟨error, released⟩ := confError_holding holding (.refl ..)
    (fun i above below => absurd below (Nat.not_lt_of_le above)) fp
  exact .clean nofun error released

/-- What is said of the loop with less fuel, wherever it starts. -/
def Settled (env : ConfEnv) (fuel : Nat) : Prop :=
  ∀ ⦃f fp store low items⦄, Holding store f.conf low items →
    Outcome store f.conf low (readLoop env fuel f fp store) (confLoop env fuel f fp store)

/-- The files of a directive are read into the table that the directive is in. -/
theorem Settled.files (settled : Settled env fuel) (refused : Bool)
    (files : List (CStr × List UInt8)) (holding : Holding store conf low items) :
    FilesOutcome store conf low (readFiles env (readLoop env fuel) conf refused files store)
      (runFiles env (confLoop env fuel) conf refused files store) := by
  induction files generalizing store items with
  | nil =>
      cases refused with
      | false => exact .ends holding (.refl ..)
      | true => exact .refused holding (.refl ..)
  | cons file files ih =>
      have outcome := @settled (store.frame env conf file.1 false) file.2 _ _ _ holding.called
      unfold readFiles runFiles
      rw [confParse_file]
      generalize readLoop env fuel (store.frame env conf file.1 false) file.2 store.called =
        reading at outcome
      generalize confLoop env fuel (store.frame env conf file.1 false) file.2 store.called =
        call at outcome
      cases outcome with
      | stuck => exact .stuck
      | ends holding' beyond =>
          exact (ih holding').before ((store.beyond_called conf low).trans beyond)
      | @clean place out recovers error released =>
          have failed : out.ret ≠ .ok := by
            rw [error]
            decide
          simp only [Option.map_some, Option.bind_some, if_neg failed]
          refine .fails failed fun _ => released.cleared conf (Nat.le_refl _) ?_
          exact Nat.lt_of_lt_of_le holding.inside released.beyond.tableNum
      | @unclean place out lost failed noError =>
          simp only [Option.map_some, Option.bind_some, if_neg failed]
          exact .fails failed fun error => absurd error noError

/-- A block is read into a table of its own. -/
theorem Settled.block (settled : Settled env fuel) (path : CStr) (fp : List UInt8) (block : Bool)
    (store : ConfStore) :
    ∃ call, confParse env (confLoop env fuel) none path fp block store =
        call.map (store.tableNum, ·) ∧
      Outcome store store.tableNum store.valueNum
        (readBlock env (readLoop env fuel) path fp block store) call := by
  obtain ⟨store', opened, empty, beyond⟩ := store.opens
  have outcome := @settled (store.frame env store.tableNum path block) fp _ _ _ empty
  refine ⟨_, confParse_opened opened, ?_⟩
  unfold readBlock
  rw [opened]
  exact outcome.before beyond

/-- What follows a block. -/
theorem Settled.afterBlock (settled : Settled env fuel) {first : Bool} {cv : Nat} {key : CStr}
    (opens : OpensBlock store store' f.conf low items key first cv)
    (holding : Holding store f.conf low items) :
    Outcome store f.conf low ((Round.block first f fp store' cv).read env (readLoop env fuel))
      ((Round.block first f fp store' cv).run env (confLoop env fuel) (confLoop env fuel)) := by
  obtain ⟨call, called, outcome⟩ := settled.block f.resolvedPath fp true store'
  change Outcome store f.conf low _ ((confParse env (confLoop env fuel) none f.resolvedPath fp true
    store').bind fun call => blockRound (confLoop env fuel) first f cv call.1 call.2)
  unfold Round.read
  dsimp only
  rw [called]
  generalize readBlock env (readLoop env fuel) f.resolvedPath fp true store' = reading at outcome
  cases outcome with
  | stuck => exact .stuck
  | ends nested beyond =>
      obtain ⟨holding', beyond'⟩ := opens.linked _ _ nested beyond
      exact (settled holding').before beyond'
  | @clean place out recovers error released =>
      change Outcome store f.conf low _ (blockRound _ first f cv store'.tableNum out)
      rw [blockRound_error error]
      cases first with
      | true =>
          obtain ⟨⟨ht, map, held, maps, mem⟩, unset, below⟩ := opens.unset rfl
          have held' : out.store.tables f.conf = some ht :=
            (released.beyond.tables f.conf opens.inside).trans held
          have unset' : out.store.values cv = .unset [] :=
            (released.beyond.values cv below).trans unset
          refine .unclean ?_ (confError_ne _ _ _) (confError_unset held' maps mem unset' out.fp)
          rw [if_pos rfl, recovers_cons]
          exact fun recovers' => nomatch recovers'.1
      | false =>
          cases opens.again rfl
          obtain ⟨error', released'⟩ :=
            confError_holding holding released.beyond released.cleared out.fp
          refine .clean ?_ error' released'
          rw [if_neg Bool.false_ne_true, recovers_cons]
          exact ⟨rfl, recovers⟩
  | @unclean place out lost failed noError =>
      change Outcome store f.conf low _ (blockRound _ first f cv store'.tableNum out)
      rw [blockRound_ends failed noError]
      refine .unclean ?_ failed noError
      rw [recovers_cons]
      exact fun recovers => lost recovers.2

/-- What follows the files. -/
theorem Settled.afterFiles (settled : Settled env fuel) (incFile : CStr)
    (holding : Holding store f.conf low items) :
    Outcome store f.conf low ((Round.file f fp store incFile).read env (readLoop env fuel))
      ((Round.file f fp store incFile).run env (confLoop env fuel) (confLoop env fuel)) := by
  have outcome := settled.files (includePlan env f.resolvedPath incFile).refused
    (includePlan env f.resolvedPath incFile).files holding
  unfold Round.read Round.run
  dsimp only
  generalize readFiles env (readLoop env fuel) f.conf _ _ store = reading at outcome
  generalize runFiles env (confLoop env fuel) f.conf _ _ store = ran at outcome
  cases outcome with
  | stuck => exact .stuck
  | ends holding' beyond => exact (settled holding').before beyond
  | refused holding' beyond => exact (Outcome.refused holding' fp).before beyond
  | @fails place ret store' failed gone =>
      have lost : ¬ Recovers (.file :: place) := by
        rw [recovers_cons]
        exact fun recovers => nomatch recovers.1
      change Outcome store f.conf low _ (fileRound _ f fp ret store')
      by_cases error : ret = .error
      case pos =>
        subst error
        have fault := confError_freed (gone rfl) fp
        refine .unclean lost (confError_ne _ _ _) ?_
        rw [fault]
        decide
      case neg =>
        rw [fileRound_ends failed error]
        exact .unclean lost failed error

/-- **The loop is settled**: what a call leaves behind depends on what is open around the line
that is refused. -/
theorem confLoop_settled (env : ConfEnv) (fuel : Nat) : Settled env fuel := by
  induction fuel with
  | zero => exact fun _ _ _ _ _ _ => .stuck
  | succ fuel ih =>
      intro f fp store low items holding
      rw [confLoop_succ]
      unfold readLoop
      have goes := round_goes env (fuel + 1) fp holding
      generalize f.round env (fuel + 1) fp store = round at goes
      cases goes with
      | stuck => exact .stuck
      | ends fp => exact .ends holding (.refl ..)
      | fails fp =>
          have refused : (Round.done (confError f.conf fp store)).read env (readLoop env fuel) =
              some (.fails []) :=
            congrArg some (if_neg (confError_ne _ _ _))
          rw [refused]
          exact .refused holding fp
      | broken fp =>
          refine .unclean (fun recovers => ?_) nofun nofun
          cases recovers .line List.mem_cons_self
      | next same holding' beyond =>
          rw [← same] at holding' beyond ⊢
          exact (ih holding').before beyond
      | block same opens =>
          rw [← same] at holding opens ⊢
          exact ih.afterBlock opens holding
      | file same =>
          rw [← same] at holding ⊢
          exact ih.afterFiles _ holding

end Outcome

/-- **An error is handled as it should be** exactly when the line that is refused is in no included
file and in no first block of a key, however deep it is, and does not break the process itself. -/
theorem conf_fails_cleanly_iff (env : ConfEnv) {fuel : Nat} {filename : CStr}
    {store store' : ConfStore} {ret : ConfRet}
    (called : confInit env (confLoop env fuel) none filename store = some (ret, store'))
    (failed : ret ≠ .ok) :
    FailsCleanly store ret store' ↔
      ∃ place, failurePlace env fuel filename store = some place ∧ Recovers place := by
  have untouched : FailsCleanly store .error store :=
    ⟨rfl, fun i above below => absurd below (Nat.not_lt_of_le above)⟩
  unfold confInit at called
  unfold failurePlace
  cases path : env.realpath filename with
  | none =>
      rw [path] at called
      cases called
      exact ⟨fun _ => ⟨[], rfl, nofun⟩, fun _ => untouched⟩
  | some resolvedPath =>
      rw [path] at called
      dsimp only at called ⊢
      cases opened : env.fopen filename with
      | none =>
          rw [opened] at called
          cases called
          exact ⟨fun _ => ⟨[], rfl, nofun⟩, fun _ => untouched⟩
      | some fp =>
          rw [opened] at called
          dsimp only at called ⊢
          obtain ⟨call, parsed, outcome⟩ :=
            (confLoop_settled env fuel).block resolvedPath fp false store
          rw [parsed] at called
          generalize readBlock env (readLoop env fuel) resolvedPath fp false store = reading
            at outcome
          cases outcome with
          | stuck => cases called
          | ends holding beyond =>
              cases called
              exact absurd rfl failed
          | clean recovers error released =>
              cases called
              exact ⟨fun _ => ⟨_, rfl, recovers⟩, fun _ => ⟨error, released.cleared⟩⟩
          | unclean lost _ noError =>
              cases called
              refine ⟨fun clean => absurd clean.1 noError, ?_⟩
              intro placed
              obtain ⟨place, same, recovers⟩ := placed
              cases same
              exact absurd recovers lost

/-- A system with one directory, where a pattern stands for the file of that name. -/
def ConfEnv.directory (files : List (CStr × List UInt8)) : ConfEnv :=
  let name := fun path : CStr => if path.take 2 = [46, 47] then path.drop 2 else path
  { ConfEnv.bare with
    realpath := fun path => some (name path)
    fopen := fun path => (files.find? (·.1 = name path)).map (·.2)
    dirname := fun _ => [46]
    opendir := fun _ => some (files.map fun file => ⟨file.1, false⟩)
    fnmatch := fun pattern entry => if pattern = entry then .found else .noMatch }

/-- The second block of the key `a` is `k 1`, and then `k {`. -/
theorem conf_fails_cleanly_again :
    ∃ env ret store',
      env = ConfEnv.directory [([97],
        [97, 32, 123, 10, 125, 10, 97, 32, 123, 10, 107, 32, 49, 10, 107, 32, 123, 10])] ∧
      confInit env (confLoop env 8) none [97] .init = some (ret, store') ∧ ret ≠ .ok ∧
      FailsCleanly .init ret store' := by
  let env := ConfEnv.directory [([97],
    [97, 32, 123, 10, 125, 10, 97, 32, 123, 10, 107, 32, 49, 10, 107, 32, 123, 10])]
  have failed : (confInit env (confLoop env 8) none [97] .init).map Prod.fst = some .error := by
    decide +kernel
  have place : failurePlace env 8 [97] .init = some [.nextBlock] := by decide +kernel
  obtain ⟨⟨ret, store'⟩, called, same⟩ := Option.map_eq_some_iff.mp failed
  cases same
  exact ⟨env, _, store', rfl, called, nofun, (conf_fails_cleanly_iff _ called nofun).mpr
    ⟨_, place, List.forall_mem_singleton.mpr rfl⟩⟩

/-- With the same lines in the first block of the key, the process ends. With a stray `}` in the
file `b` that `a` includes, the table is freed twice. -/
theorem conf_failure_not_clean :
    (∃ env ret store',
      env = ConfEnv.directory [([97], [97, 32, 123, 10, 107, 32, 49, 10, 107, 32, 123, 10])] ∧
      confInit env (confLoop env 6) none [97] .init = some (ret, store') ∧ ret = .exit ∧
      ¬ FailsCleanly .init ret store') ∧
    ∃ env ret store',
      env = ConfEnv.directory [([97], [105, 110, 99, 108, 117, 100, 101, 32, 98, 10]),
        ([98], [125, 10])] ∧
      confInit env (confLoop env 4) none [97] .init = some (ret, store') ∧ ret = .fault ∧
      ¬ FailsCleanly .init ret store' := by
  constructor
  · let env := ConfEnv.directory [([97], [97, 32, 123, 10, 107, 32, 49, 10, 107, 32, 123, 10])]
    have failed : (confInit env (confLoop env 6) none [97] .init).map Prod.fst = some .exit := by
      decide +kernel
    obtain ⟨⟨ret, store'⟩, called, same⟩ := Option.map_eq_some_iff.mp failed
    cases same
    exact ⟨env, _, store', rfl, called, rfl, fun clean => nomatch clean.1⟩
  · let env := ConfEnv.directory [([97], [105, 110, 99, 108, 117, 100, 101, 32, 98, 10]),
      ([98], [125, 10])]
    have failed : (confInit env (confLoop env 4) none [97] .init).map Prod.fst = some .fault := by
      decide +kernel
    obtain ⟨⟨ret, store'⟩, called, same⟩ := Option.map_eq_some_iff.mp failed
    cases same
    exact ⟨env, _, store', rfl, called, rfl, fun clean => nomatch clean.1⟩

end Verben
