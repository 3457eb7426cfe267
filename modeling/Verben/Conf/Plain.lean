import Verben.Conf.Calls
import Verben.Conf.Evaluate

/-!
# The values in the tables

`conf_parse` puts only values into its tables that `conf_evaluate` returned. So no value in a
table has a reference, whatever the text, the files and the environment are
(`confParse_plain`).
-/

namespace Verben

/-- No value of a key has a `$`. -/
def ConfStore.Plain (store : ConfStore) : Prop :=
  ∀ cv values, store.values cv = .entry values → ∀ text ∈ values, 36 ∉ text

theorem ConfStore.plain_init : ConfStore.init.Plain := nofun

section Walk

variable {V S : Type} {foreach : HashEntry V → S → Option (Int × S)} {P : S → Prop}

/-- What every call of `foreach` keeps, a walk through a table keeps. -/
theorem hashForeach_keeps (keeps : ∀ he s ret s', P s → foreach he s = some (ret, s') → P s')
    {ht : S → Hash V} {s s' : S} {ret : Int} (start : P s)
    (walked : hashForeach ht foreach s = some (ret, s')) : P s' := by
  have chain : ∀ chain {s ret s'}, P s → foreachChain foreach chain s = some (ret, s') → P s' := by
    intro chain
    induction chain with
    | nil =>
        intro s ret s' start walked
        cases walked
        exact start
    | cons he chain ih =>
        intro s ret s' start walked
        obtain ⟨⟨ret', s₁⟩, called, walked⟩ := Option.bind_eq_some_iff.mp walked
        have next := keeps he s ret' s₁ start called
        dsimp only at walked
        split at walked
        · cases walked
          exact next
        · exact ih next walked
  have buckets : ∀ is {s ret s'}, P s → foreachBuckets ht foreach is s = some (ret, s') →
      P s' := by
    intro is
    induction is with
    | nil =>
        intro s ret s' start walked
        cases walked
        exact start
    | cons i is ih =>
        intro s ret s' start walked
        obtain ⟨data, _, walked⟩ := Option.bind_eq_some_iff.mp walked
        obtain ⟨⟨ret', s₁⟩, called, walked⟩ := Option.bind_eq_some_iff.mp walked
        have next := chain _ start called
        dsimp only at walked
        split at walked
        · cases walked
          exact next
        · exact ih next walked
  exact buckets _ start walked

end Walk

section Free

variable {store : ConfStore}

theorem freeBlocks_values {free : ConfStore → Nat → ConfRet × ConfStore}
    (frees : ∀ store t, (free store t).2.values = store.values) (blocks : List Nat)
    (store : ConfStore) : (freeBlocks free blocks store).2.values = store.values := by
  induction blocks generalizing store with
  | nil => rfl
  | cons cb next ih =>
      have freed := frees store cb
      unfold freeBlocks
      rcases result : free store cb with ⟨ret, store'⟩
      rw [result] at freed
      cases ret with
      | ok => exact (ih store').trans freed
      | error => exact freed
      | exit => exact freed
      | fault => exact freed

theorem freeVal_values {free : ConfStore → Nat → ConfRet × ConfStore}
    (frees : ∀ store t, (free store t).2.values = store.values) (cv : ConfValue)
    (store : ConfStore) : (freeVal free cv store).2.values = store.values := by
  cases cv with
  | unset blocks => rfl
  | entry values => rfl
  | block blocks => exact freeBlocks_values frees blocks store

/-- `conf_free` changes no value. -/
theorem confFree_values (depth : Nat) (store : ConfStore) (t : Nat) :
    (confFree depth store t).2.values = store.values := by
  induction depth generalizing store t with
  | zero => rfl
  | succ depth ih =>
      have each : ∀ he (s : ConfRet × ConfStore × Hash Nat) ret s',
          s.2.1.values = store.values →
          confFreeForeach (confFree depth) he s = some (ret, s') →
          s'.2.1.values = store.values := by
        rintro he ⟨end', store₁, ht⟩ ret s' same called
        obtain ⟨⟨ret', ht'⟩, _, called⟩ := Option.bind_eq_some_iff.mp called
        have freed := freeVal_values ih (store₁.values he.2) store₁
        dsimp only at called freed
        rcases result : freeVal (confFree depth) (store₁.values he.2) store₁ with ⟨end'', store₂⟩
        rw [result] at called freed
        cases end'' with
        | ok =>
            cases called
            exact freed.trans same
        | error =>
            cases called
            exact freed.trans same
        | exit =>
            cases called
            exact freed.trans same
        | fault =>
            cases called
            exact freed.trans same
      unfold confFree
      cases store.tables t with
      | none => rfl
      | some ht =>
          dsimp only
          cases walked : hashForeach (·.2.2) (confFreeForeach (confFree depth))
              (.ok, store, ht) with
          | none => rfl
          | some result =>
              rcases result with ⟨ret, end', store', ht'⟩
              have same : store'.values = store.values :=
                hashForeach_keeps (P := fun s => s.2.1.values = store.values) each rfl walked
              cases end' with
              | ok => exact same
              | error => exact same
              | exit => exact same
              | fault => exact same

end Free

section Parse

variable {store : ConfStore} {env : ConfEnv} {loop : ParseLoop} {out : ConfOut}

theorem ConfStore.Plain.setValue (plain : store.Plain) (cv : Nat) {value : ConfValue}
    (new : ∀ values, value = .entry values → ∀ text ∈ values, 36 ∉ text) :
    (store.setValue cv value).Plain := by
  intro cv' values entry
  by_cases same : cv' = cv
  · subst same
    rw [show (store.setValue cv' value).values cv' = value from Function.update_self ..] at entry
    exact new values entry
  · rw [show (store.setValue cv value).values cv' = store.values cv' from
      Function.update_of_ne same ..] at entry
    exact plain cv' values entry

theorem ConfStore.Plain.newValue (plain : store.Plain) : store.newValue.Plain :=
  plain.setValue store.valueNum nofun

theorem confError_plain (plain : store.Plain) (conf : Nat) (fp : List UInt8) :
    (confError conf fp store).store.Plain := by
  have same := confFree_values store.tableNum store conf
  unfold confError
  rcases freed : confFree store.tableNum store conf with ⟨ret, store'⟩
  rw [freed] at same
  have plain' : store'.Plain := by
    intro cv values entry
    rw [show store'.values = store.values from same] at entry
    exact plain cv values entry
  cases ret with
  | ok => exact plain'
  | error => exact plain'
  | exit => exact plain'
  | fault => exact plain'

/-- A block more in a value. -/
theorem plain_push (plain : store.Plain) {cv t : Nat} :
    ∀ values, (store.values cv).push t = .entry values → ∀ text ∈ values, 36 ∉ text := by
  intro values same
  cases content : store.values cv with
  | unset blocks =>
      rw [content] at same
      cases same
  | entry values' =>
      rw [content] at same
      cases same
      exact plain cv _ content
  | block blocks =>
      rw [content] at same
      cases same

/-- The loop puts only plain values into the tables. -/
def KeepsPlain (loop : ParseLoop) : Prop :=
  ∀ {f fp store out}, store.Plain → loop f fp store = some out → out.store.Plain

/-- A round goes on with plain values. -/
def Round.Plain : Round → Prop
  | .stuck => True
  | .done out => out.store.Plain
  | .broken _ store => store.Plain
  | .next _ _ store => store.Plain
  | .block _ _ _ store _ => store.Plain
  | .file _ _ store _ => store.Plain

theorem ConfStore.Plain.link (plain : store.Plain) (first : Bool) (cv t : Nat) :
    (store.setValue cv (linkBlock first (store.values cv) t)).Plain := by
  refine plain.setValue cv ?_
  cases first with
  | true => exact nofun
  | false => exact plain_push plain

variable {f : ConfFrame} {fp : List UInt8} {fuel : Nat}

theorem itemRound_plain (plain : store.Plain) {var : CStr} (noReference : 36 ∉ var)
    (key value : CStr) : (itemRound f fp store key value var).Plain := by
  have single : ∀ values, ConfValue.entry [var] = .entry values → ∀ text ∈ values, 36 ∉ text := by
    intro values same text mem
    cases same
    exact List.mem_singleton.mp mem ▸ noReference
  unfold itemRound
  cases store.tables f.conf with
  | none => exact plain
  | some ht =>
      dsimp only
      rcases hashGetVal ht key with _ | _ | cv
      · exact plain
      · dsimp only
        rcases hashInsert ht key store.valueNum .succeed with _ | ⟨ret, ht'⟩
        · exact plain.newValue
        · have entered : (store.newValue.setTable f.conf (some ht')).Plain := plain.newValue
          dsimp only
          split
          · exact confError_plain entered _ _
          · split
            · exact entered
            · exact entered.setValue _ single
      · dsimp only
        split
        · next values old =>
            split
            · exact confError_plain plain _ _
            · refine plain.setValue _ ?_
              intro values' same text mem
              cases same
              rcases List.mem_cons.mp mem with rfl | mem
              · exact noReference
              · exact plain _ values old text mem
        · split
          · exact plain
          · exact confError_plain plain _ _

theorem round_plain (plain : store.Plain) : (f.round env fuel fp store).Plain := by
  unfold ConfFrame.round
  cases fgets maxLine fp with
  | none => exact plain
  | some line =>
      obtain ⟨raw, rest⟩ := line
      dsimp only
      rcases f.reads raw rest with _ | _ | _ | _ | ⟨key, value⟩
      · exact plain
      · exact plain
      · exact plain
      · cases f.block with
        | true => exact plain
        | false => exact confError_plain plain _ _
      · next =>
          dsimp only
          unfold pairRound
          rcases evaluated : confEvaluate (confVar env store (f.after raw).conf) fuel value
            with _ | _ | _ | var
          · trivial
          · exact confError_plain plain _ _
          · exact plain
          · dsimp only
            split
            · exact plain
            · exact itemRound_plain plain (plain_of_confEvaluate evaluated) key value

variable (keeps : KeepsPlain loop)

include keeps

theorem confParse_keepsPlain (plain : store.Plain) {ht : Option Nat} {path : CStr}
    {block : Bool} {t : Nat}
    (parsed : confParse env loop ht path fp block store = some (t, out)) : out.store.Plain := by
  obtain ⟨store', ran, start⟩ := confParse_ran parsed
  have plain' : store'.Plain := by
    rcases start with rfl | opened
    · exact plain
    · obtain ⟨new, _, rfl⟩ := Option.map_eq_some_iff.mp opened
      exact plain
  exact keeps plain' ran

theorem runFiles_keepsPlain {conf : Nat} {refused : Bool} {files : List (CStr × List UInt8)}
    {result : ConfRet × ConfStore} (plain : store.Plain)
    (ran : runFiles env loop conf refused files store = some result) : result.2.Plain := by
  induction files generalizing store with
  | nil =>
      cases ran
      exact plain
  | cons file files ih =>
      obtain ⟨⟨t, out⟩, called, _⟩ := Option.bind_eq_some_iff.mp ran
      have plain' := confParse_keepsPlain keeps plain called
      rw [runFiles_cons called] at ran
      split at ran
      · exact ih plain' ran
      · cases ran
        exact plain'

theorem Round.run_keepsPlain {round : Round} (plain : round.Plain)
    (ran : round.run env loop loop = some out) : out.store.Plain := by
  cases round with
  | stuck => cases ran
  | done out =>
      cases ran
      exact plain
  | broken fp store =>
      cases ran
      exact plain
  | next f fp store => exact keeps plain ran
  | block first f fp store cv =>
      obtain ⟨t, out₁, called, after⟩ := Round.run_block_cases ran
      have plain' := confParse_keepsPlain keeps plain called
      rcases after with ⟨_, ran⟩ | ⟨_, rfl⟩ | ⟨_, _, rfl⟩
      · exact keeps (plain'.link first cv t) ran
      · exact confError_plain plain' _ _
      · exact plain'
  | file f fp store incFile =>
      obtain ⟨ret, store', parsed, after⟩ := Round.run_file_cases ran
      have plain' : store'.Plain := runFiles_keepsPlain keeps plain parsed
      rcases after with ⟨_, ran⟩ | ⟨_, rfl⟩ | ⟨_, _, rfl⟩
      · exact keeps plain' ran
      · exact confError_plain plain' _ _
      · exact plain'

end Parse

/-- **No value in a table has a reference**, wherever the loop stands. -/
theorem confLoop_keepsPlain (env : ConfEnv) (fuel : Nat) : KeepsPlain (confLoop env fuel) := by
  induction fuel with
  | zero => exact nofun
  | succ fuel ih =>
      intro f fp store out plain ran
      rw [confLoop_succ] at ran
      exact Round.run_keepsPlain ih (round_plain plain) ran

/-- The tables that a call of `conf_parse` leaves. -/
theorem confParse_plain {env : ConfEnv} {fuel : Nat} {path : CStr} {fp : List UInt8} {t : Nat}
    {out : ConfOut}
    (parsed : confParse env (confLoop env fuel) none path fp false .init = some (t, out)) :
    out.store.Plain :=
  confParse_keepsPlain (confLoop_keepsPlain env fuel) ConfStore.plain_init parsed

end Verben
