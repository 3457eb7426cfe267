import Verben.Conf.Calls
import Verben.Conf.Evaluate

/-!
# Two runs side by side

Two loops are compared in frames and texts that are not quite the same: whatever the first loop
returns, the second one returns as well, and leaves the same behind (`Carries`). Included files
are the same for both. It is enough to look at the rounds (`Round.run_carries`), and a line that
both read gives rounds that make the same calls (`pairRound_twins`).
-/

namespace Verben

/-- The same result, up to the rest of the texts. -/
structure ConfOut.Same (texts : List UInt8 → List UInt8 → Prop) (out out' : ConfOut) : Prop where
  ret : out.ret = out'.ret
  store : out.store = out'.store
  fp : texts out.fp out'.fp

/-- What the first loop returns, the second one returns as well. -/
def Carries (frames : ConfFrame → ConfFrame → Prop) (texts : List UInt8 → List UInt8 → Prop)
    (loop loop' : ParseLoop) : Prop :=
  ∀ ⦃f g : ConfFrame⦄ ⦃fp fp' : List UInt8⦄ ⦃store : ConfStore⦄ ⦃out : ConfOut⦄, frames f g →
    texts fp fp' → loop f fp store = some out →
    ∃ out', loop' g fp' store = some out' ∧ out.Same texts out'

/-- Both rounds make the same calls, and go on alike. -/
inductive Round.Twins (frames : ConfFrame → ConfFrame → Prop)
    (texts : List UInt8 → List UInt8 → Prop) : Round → Round → Prop
  | stuck {round : Round} : Twins frames texts .stuck round
  | done {out out' : ConfOut} (same : out.Same texts out') :
      Twins frames texts (.done out) (.done out')
  | broken {fp fp' : List UInt8} {store : ConfStore} (aligned : texts fp fp') :
      Twins frames texts (.broken fp store) (.broken fp' store)
  | next {f g : ConfFrame} {fp fp' : List UInt8} {store : ConfStore} (alike : frames f g)
      (aligned : texts fp fp') : Twins frames texts (.next f fp store) (.next g fp' store)
  | block {first : Bool} {f g : ConfFrame} {fp fp' : List UInt8} {store : ConfStore} {cv : Nat}
      (alike : frames f g) (aligned : texts fp fp') :
      Twins frames texts (.block first f fp store cv) (.block first g fp' store cv)
  | file {f g : ConfFrame} {fp fp' : List UInt8} {store : ConfStore} {incFile : CStr}
      (alike : frames f g) (aligned : texts fp fp') :
      Twins frames texts (.file f fp store incFile) (.file g fp' store incFile)

section Twins

variable {env : ConfEnv} {m n : Nat} {loop loop' : ParseLoop} {f g : ConfFrame}
  {fp fp' : List UInt8} {store : ConfStore} {out : ConfOut} {round round' : Round}
  {frames : ConfFrame → ConfFrame → Prop} {texts : List UInt8 → List UInt8 → Prop}

theorem confError_same (conf : Nat) (aligned : texts fp fp') (store : ConfStore) :
    (confError conf fp store).Same texts (confError conf fp' store) := by
  unfold confError
  rcases confFree store.tableNum store conf with ⟨ret, store'⟩
  cases ret <;> exact ⟨rfl, rfl, aligned⟩

theorem itemRound_twins (alike : frames f g) (same : f.conf = g.conf) (aligned : texts fp fp')
    (key value var : CStr) :
    (itemRound f fp store key value var).Twins frames texts
      (itemRound g fp' store key value var) := by
  have refused : ∀ store, (Round.done (confError f.conf fp store)).Twins frames texts
      (.done (confError f.conf fp' store)) := fun store => .done (confError_same _ aligned store)
  unfold itemRound
  rw [← same]
  cases store.tables f.conf with
  | none => exact .done ⟨rfl, rfl, aligned⟩
  | some ht =>
      dsimp only
      rcases hashGetVal ht key with _ | _ | cv
      · exact .done ⟨rfl, rfl, aligned⟩
      · dsimp only
        rcases hashInsert ht key store.valueNum .succeed with _ | ⟨ret, ht'⟩
        · exact .done ⟨rfl, rfl, aligned⟩
        · dsimp only
          split
          · exact refused _
          · split
            · exact .block alike aligned
            · exact .next alike aligned
      · dsimp only
        cases store.values cv with
        | entry values =>
            dsimp only
            split
            · exact refused _
            · exact .next alike aligned
        | unset blocks =>
            dsimp only
            split
            · exact .block alike aligned
            · exact refused _
        | block blocks =>
            dsimp only
            split
            · exact .block alike aligned
            · exact refused _

/-- A line that both read; the second loop may have more fuel. -/
theorem pairRound_twins (alike : frames f g) (same : f.conf = g.conf) (aligned : texts fp fp')
    (le : n ≤ m) (key value : CStr) :
    (pairRound env n f fp store key value).Twins frames texts
      (pairRound env m g fp' store key value) := by
  unfold pairRound
  rw [← same]
  cases returns : confEvaluate (confVar env store f.conf) n value with
  | none => exact .stuck
  | some ret =>
      rw [confEvaluate_mono returns le]
      cases ret with
      | null => exact .done (confError_same _ aligned _)
      | fault => exact .broken aligned
      | text var =>
          dsimp only
          split
          · exact .file alike aligned
          · exact itemRound_twins alike same aligned key value var

/-- What a call starts with is the same in both runs. -/
structure Comparable (frames : ConfFrame → ConfFrame → Prop)
    (texts : List UInt8 → List UInt8 → Prop) : Prop where
  start : ∀ f, frames f f
  alike : ∀ {f g}, frames f g → f.Alike g
  file : ∀ fp, texts fp fp

variable (comparable : Comparable frames texts) (carries : Carries frames texts loop loop')

include comparable carries

theorem confParse_carries {ht : Option Nat} {path : CStr} {block : Bool} {t : Nat}
    (aligned : texts fp fp')
    (called : confParse env loop ht path fp block store = some (t, out)) :
    ∃ out', confParse env loop' ht path fp' block store = some (t, out') ∧
      out.Same texts out' := by
  cases ht with
  | some conf =>
      rw [confParse_file] at called ⊢
      obtain ⟨out₁, ran, same⟩ := Option.map_eq_some_iff.mp called
      cases same
      obtain ⟨out', ran', same⟩ := carries (comparable.start _) aligned ran
      exact ⟨out', Option.map_eq_some_iff.mpr ⟨out', ran', rfl⟩, same⟩
  | none =>
      obtain ⟨new, opened, _⟩ := store.opened_eq
      rw [confParse_opened opened] at called ⊢
      obtain ⟨out₁, ran, same⟩ := Option.map_eq_some_iff.mp called
      cases same
      obtain ⟨out', ran', same⟩ := carries (comparable.start _) aligned ran
      exact ⟨out', Option.map_eq_some_iff.mpr ⟨out', ran', rfl⟩, same⟩

theorem runFiles_carries {conf : Nat} {refused : Bool} {files : List (CStr × List UInt8)}
    {result : ConfRet × ConfStore}
    (ran : runFiles env loop conf refused files store = some result) :
    runFiles env loop' conf refused files store = some result := by
  induction files generalizing store with
  | nil => exact ran
  | cons file files ih =>
      obtain ⟨⟨t, out⟩, called, _⟩ := Option.bind_eq_some_iff.mp ran
      obtain ⟨out', called', same⟩ :=
        confParse_carries comparable carries (comparable.file file.2) called
      rw [runFiles_cons called] at ran
      rw [runFiles_cons called']
      dsimp only at ran ⊢
      rw [← same.ret, ← same.store]
      by_cases ok : out.ret = .ok
      · rw [if_pos ok] at ran ⊢
        exact ih ran
      · rw [if_neg ok] at ran ⊢
        exact ran

/-- **Twin rounds come to the same result.** -/
theorem Round.run_carries (twins : round.Twins frames texts round')
    (ran : round.run env loop loop = some out) :
    ∃ out', round'.run env loop' loop' = some out' ∧ out.Same texts out' := by
  cases twins with
  | stuck => cases ran
  | done same =>
      cases ran
      exact ⟨_, rfl, same⟩
  | broken aligned =>
      cases ran
      exact ⟨_, rfl, rfl, rfl, aligned⟩
  | next alike aligned => exact carries alike aligned ran
  | @block first f g fp fp' store cv alike aligned =>
      obtain ⟨t, out₁, called, after⟩ := Round.run_block_cases ran
      obtain ⟨out₂, called', same⟩ := confParse_carries comparable carries aligned called
      rw [(comparable.alike alike).resolvedPath] at called'
      have run : ∀ out', blockRound loop' first g cv t out₂ = some out' →
          (Round.block first g fp' store cv).run env loop' loop' = some out' :=
        fun out' next => Option.bind_eq_some_iff.mpr ⟨_, called', next⟩
      rcases after with ⟨ok, ran⟩ | ⟨error, rfl⟩ | ⟨failed, noError, rfl⟩
      · rw [same.store] at ran
        obtain ⟨out', ran', same'⟩ := carries alike same.fp ran
        exact ⟨out', run out' ((blockRound_ok (same.ret.symm.trans ok)).trans ran'), same'⟩
      · refine ⟨_, run _ (blockRound_error (same.ret.symm.trans error)), ?_⟩
        rw [← same.store, ← (comparable.alike alike).conf]
        exact confError_same _ same.fp _
      · rw [same.ret] at failed noError
        exact ⟨out₂, run _ (blockRound_ends failed noError), same⟩
  | @file f g fp fp' store incFile alike aligned =>
      obtain ⟨ret, store', parsed, after⟩ := Round.run_file_cases ran
      have parsed' := runFiles_carries comparable carries parsed
      rw [(comparable.alike alike).resolvedPath, (comparable.alike alike).conf] at parsed'
      have run : ∀ out', fileRound loop' g fp' ret store' = some out' →
          (Round.file g fp' store incFile).run env loop' loop' = some out' :=
        fun out' next => Option.bind_eq_some_iff.mpr ⟨_, parsed', next⟩
      rcases after with ⟨rfl, ran⟩ | ⟨rfl, rfl⟩ | ⟨failed, noError, rfl⟩
      · obtain ⟨out', ran', same⟩ := carries alike aligned ran
        exact ⟨out', run out' ran', same⟩
      · refine ⟨_, run _ rfl, ?_⟩
        rw [← (comparable.alike alike).conf]
        exact confError_same _ aligned _
      · exact ⟨_, run _ (fileRound_ends failed noError), rfl, rfl, aligned⟩

end Twins

end Verben
