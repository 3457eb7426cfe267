import Mathlib.Data.List.Induction
import Mathlib.Logic.Function.Basic
import Mathlib.Tactic.Common

/-!
# Alarms

A log of what happens to a set of alarms: one is armed for a time, armed again for another, taken
away, or it goes off. `armed log` is what is armed at the end of the log, `Sound log` says that
each key was armed first when it had never been, and that what went off was armed for a time that
had come.
-/

namespace Alarms

variable {K T : Type*}

inductive Entry (K T : Type*) : Type _
  | arm (key : K) (due : T)
  | rearm (key : K) (due : T)
  | drop (key : K)
  | fire (key : K) (now : T)
  deriving DecidableEq

/-- The key that goes off. -/
def Entry.fired : Entry K T → Option K
  | .fire key _ => some key
  | _ => none

/-- The keys that go off, in order. -/
def fires (log : List (Entry K T)) : List K := log.filterMap Entry.fired

theorem fires_append (log behind : List (Entry K T)) :
    fires (log ++ behind) = fires log ++ fires behind := List.filterMap_append

variable [DecidableEq K]

/-- What is armed after one more entry. -/
def Entry.apply (armed : K → Option T) : Entry K T → K → Option T
  | .arm key due | .rearm key due => Function.update armed key (some due)
  | .drop key => Function.update armed key none
  | .fire _ _ => armed

/-- What is armed after a log, the oldest entry first. -/
def armed (log : List (Entry K T)) : K → Option T := log.foldl Entry.apply fun _ => none

/-- A key that was armed at some time. -/
def Known (log : List (Entry K T)) (key : K) : Prop := ∃ due, Entry.arm key due ∈ log

variable [LE T]

/-- What has to hold of an entry behind a log. -/
def Entry.Right (log : List (Entry K T)) : Entry K T → Prop
  | .arm key _ => ¬ Known log key
  | .rearm key _ | .drop key => (armed log key).isSome
  | .fire key now => ∃ due, armed log key = some due ∧ due ≤ now

/-- Every entry is right behind those before it. -/
def Sound (log : List (Entry K T)) : Prop :=
  ∀ before entry behind, log = before ++ entry :: behind → entry.Right before

variable {log : List (Entry K T)} {entry : Entry K T} {key : K}

omit [LE T] in
theorem armed_concat (log : List (Entry K T)) (entry : Entry K T) :
    armed (log ++ [entry]) = entry.apply (armed log) := by
  unfold armed
  rw [List.foldl_append]
  rfl

theorem sound_nil : Sound ([] : List (Entry K T)) := by
  intro before entry behind split
  cases before <;> cases split

theorem Sound.concat (sound : Sound log) (right : entry.Right log) : Sound (log ++ [entry]) := by
  intro before other behind split
  rcases List.eq_nil_or_concat behind with rfl | ⟨behind, last, rfl⟩
  case inl =>
    obtain ⟨rfl, same⟩ := List.append_inj' split rfl
    cases same
    exact right
  case inr =>
    rw [List.concat_eq_append, ← List.cons_append, ← List.append_assoc] at split
    exact sound before other behind (List.append_inj' split rfl).1

theorem Sound.of_append {behind : List (Entry K T)} (sound : Sound (log ++ behind)) :
    Sound log := by
  intro before other rest split
  exact sound before other (rest ++ behind) (by rw [split, List.append_assoc, List.cons_append])

omit [DecidableEq K] [LE T] in
theorem Known.mono {behind : List (Entry K T)} (known : Known log key) :
    Known (log ++ behind) key := by
  obtain ⟨due, mem⟩ := known
  exact ⟨due, List.mem_append_left _ mem⟩

/-- What is armed was armed before. -/
theorem Sound.known (sound : Sound log) {due : T} (is : armed log key = some due) :
    Known log key := by
  induction log using List.reverseRecOn generalizing due with
  | nil => cases is
  | append_singleton log entry ih =>
      have earlier : ∀ due, armed log key = some due → Known (log ++ [entry]) key := fun due is =>
        (ih sound.of_append is).mono
      have right := sound log entry [] rfl
      rw [armed_concat] at is
      cases entry with
      | arm key' due' =>
          by_cases same : key = key'
          · subst same
            exact ⟨due', by simp⟩
          · exact earlier due (by rwa [Entry.apply, Function.update_of_ne same] at is)
      | rearm key' due' =>
          by_cases same : key = key'
          · subst same
            obtain ⟨old, was⟩ := Option.isSome_iff_exists.mp right
            exact earlier old was
          · exact earlier due (by rwa [Entry.apply, Function.update_of_ne same] at is)
      | drop key' =>
          by_cases same : key = key'
          · rw [Entry.apply, same, Function.update_self] at is
            cases is
          · exact earlier due (by rwa [Entry.apply, Function.update_of_ne same] at is)
      | fire key' now => exact earlier due is

omit [DecidableEq K] [LE T] in
theorem mem_fires : key ∈ fires log ↔ ∃ now, Entry.fire key now ∈ log := by
  unfold fires
  rw [List.mem_filterMap]
  constructor
  · rintro ⟨entry, mem, fired⟩
    cases entry with
    | fire key' now =>
        cases fired
        exact ⟨now, mem⟩
    | arm | rearm | drop => cases fired
  · rintro ⟨now, mem⟩
    exact ⟨_, mem, rfl⟩

/-- What went off was armed at some time before, and taken away at none since. -/
theorem Sound.fired (sound : Sound log) {now : T} (fired : Entry.fire key now ∈ log) :
    Known log key := by
  obtain ⟨before, behind, split⟩ := List.append_of_mem fired
  obtain ⟨due, is, -⟩ := sound before _ behind split
  subst split
  exact (sound.of_append.known is).mono

end Alarms
