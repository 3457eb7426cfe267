import Verben.Conf.Twins

/-!
# More fuel, less text

With more fuel the loop returns what it returned (`confLoop_extends`), and what it leaves of the
stream is never more than there was (`confLoop_shrinks`).
-/

namespace Verben

/-- What the one loop returns, the other one returns as well. -/
def Extends (loop loop' : ParseLoop) : Prop :=
  ∀ ⦃f fp store out⦄, loop f fp store = some out → loop' f fp store = some out

/-- The loop does not write to the stream. -/
def Shrinks (loop : ParseLoop) : Prop :=
  ∀ ⦃f fp store out⦄, loop f fp store = some out → out.fp.length ≤ fp.length

/-- What a round leaves of the stream, before it calls anything. -/
def Round.fp : Round → List UInt8
  | .stuck => []
  | .done out => out.fp
  | .broken fp _ => fp
  | .next _ fp _ => fp
  | .block _ _ fp _ _ => fp
  | .file _ fp _ _ => fp

section Extends

variable {env : ConfEnv} {loop loop' : ParseLoop} {f : ConfFrame}
  {fp : List UInt8} {store : ConfStore} {path : CStr} {ht : Option Nat} {block : Bool}
  {call : Nat × ConfOut} {conf : Nat} {refused : Bool} {files : List (CStr × List UInt8)}
  {result : ConfRet × ConfStore} {round : Round} {out : ConfOut} {m n : Nat}

theorem Extends.carries (more : Extends loop loop') : Carries Eq Eq loop loop' := by
  rintro f g fp fp' store out rfl rfl ran
  exact ⟨out, more ran, rfl, rfl, rfl⟩

theorem ConfOut.Same.eq {out' : ConfOut} (same : out.Same Eq out') : out' = out := by
  obtain ⟨ret, fp, store⟩ := out
  obtain ⟨ret', fp', store'⟩ := out'
  obtain ⟨rfl, rfl, rfl⟩ := same
  rfl

theorem comparable_eq : Comparable Eq Eq :=
  ⟨fun _ => rfl, fun same => same ▸ ⟨rfl, rfl, rfl⟩, fun _ => rfl⟩

theorem Round.twins_refl (round : Round) : round.Twins Eq Eq round := by
  cases round with
  | stuck => exact .stuck
  | done out => exact .done ⟨rfl, rfl, rfl⟩
  | broken => exact .broken rfl
  | next => exact .next rfl rfl
  | block => exact .block rfl rfl
  | file => exact .file rfl rfl

theorem confParse_extends (more : Extends loop loop')
    (called : confParse env loop ht path fp block store = some call) :
    confParse env loop' ht path fp block store = some call := by
  obtain ⟨out', called', same⟩ := confParse_carries comparable_eq more.carries rfl called
  rw [called', same.eq]

theorem runFiles_extends (more : Extends loop loop')
    (ran : runFiles env loop conf refused files store = some result) :
    runFiles env loop' conf refused files store = some result :=
  runFiles_carries comparable_eq more.carries ran

theorem Round.run_extends (more : Extends loop loop')
    (ran : round.run env loop loop = some out) : round.run env loop' loop' = some out := by
  obtain ⟨out', ran', same⟩ := Round.run_carries comparable_eq more.carries round.twins_refl ran
  rw [ran', same.eq]

/-- Only `conf_evaluate` may need more. -/
theorem round_mono (ran : f.round env m fp store ≠ .stuck) (more : m ≤ n) :
    f.round env n fp store = f.round env m fp store := by
  unfold ConfFrame.round at ran ⊢
  cases got : fgets maxLine fp with
  | none => rfl
  | some line =>
      obtain ⟨raw, rest⟩ := line
      rw [got] at ran
      dsimp only at ran ⊢
      rcases reads : f.reads raw rest with _ | _ | _ | _ | ⟨key, value⟩
      · rfl
      · rfl
      · rfl
      · rfl
      · next =>
          rw [reads] at ran
          dsimp only at ran ⊢
          unfold pairRound at ran ⊢
          cases returns : confEvaluate (confVar env store (f.after raw).conf) m value with
          | none =>
              rw [returns] at ran
              exact absurd rfl ran
          | some ret => rw [confEvaluate_mono returns more]

/-- A loop that returns was not stuck in its first round. -/
theorem round_unstuck (ran : confLoop env (n + 1) f fp store = some out) :
    f.round env (n + 1) fp store ≠ .stuck := by
  intro stuck
  rw [confLoop_succ, stuck] at ran
  cases ran

/-- **More fuel gives the same result.** -/
theorem confLoop_extends (env : ConfEnv) (more : m ≤ n) :
    Extends (confLoop env m) (confLoop env n) := by
  induction m generalizing n with
  | zero => exact fun _ _ _ _ ran => nomatch ran
  | succ m ih =>
      cases n with
      | zero => exact absurd more (Nat.not_succ_le_zero m)
      | succ n =>
          intro f fp store out ran
          rw [confLoop_succ, round_mono (round_unstuck ran) more]
          rw [confLoop_succ] at ran
          have less := Nat.le_of_succ_le_succ more
          exact Round.run_extends (ih less) ran

end Extends

section Shrinks

variable {env : ConfEnv} {fuel : Nat} {loop nested : ParseLoop} {f : ConfFrame}
  {fp raw rest : List UInt8} {store : ConfStore} {round : Round} {out : ConfOut}

theorem length_takeLine (n : Nat) (b : UInt8) (fp : List UInt8) :
    (takeLine (n + 1) (b :: fp)).2.length ≤ fp.length := by
  induction n generalizing b fp with
  | zero =>
      unfold takeLine
      split <;> exact Nat.le_refl _
  | succ n ih =>
      unfold takeLine
      split
      · exact Nat.le_refl _
      · cases fp with
        | nil => exact Nat.le_refl _
        | cons b' fp => exact Nat.le_succ_of_le (ih b' fp)

theorem length_fgets (got : fgets maxLine fp = some (raw, rest)) : rest.length < fp.length := by
  cases fp with
  | nil => cases got
  | cons b fp =>
      have read : takeLine (1022 + 1) (b :: fp) = (raw, rest) := Option.some.inj got
      have short := length_takeLine 1022 b fp
      rw [read] at short
      exact Nat.lt_succ_of_le short

theorem confError_fp (conf : Nat) (fp : List UInt8) (store : ConfStore) :
    (confError conf fp store).fp = fp := by
  unfold confError
  split <;> rfl

theorem length_confError_fp (conf : Nat) (fp : List UInt8) (store : ConfStore) :
    (confError conf fp store).fp.length ≤ fp.length :=
  Nat.le_of_eq (congrArg List.length (confError_fp conf fp store))

theorem itemRound_fp (f : ConfFrame) (fp : List UInt8) (store : ConfStore)
    (key value var : CStr) : (itemRound f fp store key value var).fp = fp := by
  unfold itemRound
  repeat' split
  all_goals first | rfl | exact confError_fp ..

theorem pairRound_fp {key value : CStr} :
    (pairRound env fuel f fp store key value).fp.length ≤ fp.length := by
  unfold pairRound
  rcases confEvaluate (confVar env store f.conf) fuel value with _ | _ | _ | var
  · exact Nat.zero_le _
  · exact length_confError_fp ..
  · exact Nat.le_refl _
  · dsimp only
    split
    · exact Nat.le_refl _
    · exact Nat.le_of_eq (congrArg List.length (itemRound_fp ..))

/-- A round reads a line, or finds the end of the stream. -/
theorem round_fp (env : ConfEnv) (fuel : Nat) (f : ConfFrame) (fp : List UInt8)
    (store : ConfStore) : f.round env fuel fp store = .done ⟨.ok, fp, store⟩ ∨
      (f.round env fuel fp store).fp.length < fp.length := by
  unfold ConfFrame.round
  cases got : fgets maxLine fp with
  | none => exact Or.inl rfl
  | some line =>
      obtain ⟨raw, rest⟩ := line
      have shorter := length_fgets got
      refine Or.inr (Nat.lt_of_le_of_lt ?_ shorter)
      dsimp only
      rcases f.reads raw rest with _ | _ | _ | _ | ⟨key, value⟩
      · exact Nat.le_refl _
      · exact Nat.le_refl _
      · exact Nat.le_refl _
      · cases f.block with
        | true => exact Nat.le_refl _
        | false => exact length_confError_fp ..
      · exact pairRound_fp

theorem Shrinks.confParse (shrinks : Shrinks loop) {ht : Option Nat} {path : CStr}
    {block : Bool} {t : Nat}
    (called : confParse env loop ht path fp block store = some (t, out)) :
    out.fp.length ≤ fp.length := by
  obtain ⟨store', ran, _⟩ := confParse_ran called
  exact shrinks ran

theorem Round.run_shrinks (shrinksNested : Shrinks nested) (shrinks : Shrinks loop)
    (ran : round.run env nested loop = some out) : out.fp.length ≤ round.fp.length := by
  cases round with
  | stuck => cases ran
  | done out =>
      cases ran
      exact Nat.le_refl _
  | broken fp store =>
      cases ran
      exact Nat.le_refl _
  | next f fp store => exact shrinks ran
  | block first f fp store cv =>
      obtain ⟨t, out₁, called, after⟩ := Round.run_block_cases ran
      refine Nat.le_trans ?_ (shrinksNested.confParse called)
      rcases after with ⟨_, ran⟩ | ⟨_, rfl⟩ | ⟨_, _, rfl⟩
      · exact shrinks ran
      · exact length_confError_fp ..
      · exact Nat.le_refl _
  | file f fp store incFile =>
      obtain ⟨ret, store', _, after⟩ := Round.run_file_cases ran
      rcases after with ⟨_, ran⟩ | ⟨_, rfl⟩ | ⟨_, _, rfl⟩
      · exact shrinks ran
      · exact length_confError_fp ..
      · exact Nat.le_refl _

theorem confLoop_shrinks (env : ConfEnv) (fuel : Nat) : Shrinks (confLoop env fuel) := by
  induction fuel with
  | zero => exact fun _ _ _ _ ran => nomatch ran
  | succ fuel ih =>
      intro f fp store out ran
      rw [confLoop_succ] at ran
      have shrinks := Round.run_shrinks ih ih ran
      rcases round_fp env (fuel + 1) f fp store with ends | shorter
      · rw [ends] at shrinks
        exact shrinks
      · exact Nat.le_trans shrinks (Nat.le_of_lt shorter)

end Shrinks

end Verben
