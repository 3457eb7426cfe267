import Mathlib.Data.Fintype.Basic
import Verben.Daemon.Model

/-!
# One daemon

The file keeps a second daemon out, in every run of any number of processes that start, stop and
are killed at any point, but for two races: a process looks into a file that another one has
created and not locked yet, or a file is created while a process that has opened the old one is
about to remove it (`pid_file_exclusive`).
-/

namespace Verben

open CInt Transition

variable {n : Nat} {s s' : DaemonState n} {p q r : Pid n} {phase : DaemonPhase} {ino : Nat}

/-! ## Where a process can stand -/

/-- It has created the file, and will be the daemon or is it, unless it fails. -/
def DaemonPhase.owns : DaemonPhase → Bool
  | .asking _ | .writing _ | .undoing _ _ | .daemon => true
  | .finishing _ ret => ret = 0
  | _ => false

/-- The file that it has created. -/
def DaemonPhase.created : DaemonPhase → Option Nat
  | .asking ino | .writing ino | .undoing ino _ => some ino
  | .finishing ino ret => if ret = 0 then some ino else none
  | _ => none

/-- The file that it has created and not locked. -/
def DaemonPhase.unlocked : DaemonPhase → Option Nat
  | .asking ino => some ino
  | .undoing ino locked => if locked then none else some ino
  | _ => none

/-- The file that it has locked for writing. -/
def DaemonPhase.excludes : DaemonPhase → Option Nat
  | .writing ino => some ino
  | .undoing ino locked => if locked then some ino else none
  | .finishing ino ret => if ret = 0 then some ino else none
  | _ => none

/-- The file that it has opened, and may remove. -/
def DaemonPhase.opened : DaemonPhase → Option Nat
  | .waiting _ ino | .reading _ ino | .probing _ ino _ | .removing _ ino => some ino
  | _ => none

/-- The file that it has locked for reading. -/
def DaemonPhase.shares : DaemonPhase → Option Nat
  | .reading _ ino | .probing _ ino _ | .removing _ ino => some ino
  | _ => none

/-- It neither owns the file nor has it open. -/
structure DaemonPhase.Idle (phase : DaemonPhase) : Prop where
  owns : phase.owns = false
  created : phase.created = none
  unlocked : phase.unlocked = none
  excludes : phase.excludes = none
  opened : phase.opened = none
  shares : phase.shares = none

/-- It is about to open the file in `pid_file_running`. -/
def DaemonPhase.isChecking : DaemonPhase → Bool
  | .checking _ => true
  | _ => false

/-- The guard against the races: no file is opened that is created and not locked, and none is
created while a process may remove another one. -/
def DaemonState.Quiet (s : DaemonState n) : DaemonAct n → Prop
  | .advance p ok =>
      ((s.procs p).isChecking = true → s.name.isSome = true → ok = true →
          ∀ q, (s.procs q).unlocked = none) ∧
        (s.procs p = .creating → s.name = none → ok = true → ∀ q, (s.procs q).opened = none)
  | _ => True

instance (s : DaemonState n) : (act : DaemonAct n) → Decidable (s.Quiet act)
  | .advance _ _ => inferInstanceAs (Decidable (_ ∧ _))
  | .exec _ _ => inferInstanceAs (Decidable True)
  | .spawn _ => inferInstanceAs (Decidable True)
  | .fork _ _ => inferInstanceAs (Decidable True)
  | .die _ => inferInstanceAs (Decidable True)

/-! ## The invariant -/

/-- What is so for a process. -/
structure DaemonState.Fits (s : DaemonState n) (p : Pid n) (phase : DaemonPhase) : Prop where
  named : ∀ ino, phase.created = some ino → s.name = some ino
  written : ∀ ino, phase = .finishing ino 0 → s.content ino = Decimal.digits p.num
  daemon : phase = .daemon → ∃ ino, s.name = some ino ∧ s.content ino = Decimal.digits p.num
  opened : ∀ ino, phase.opened = some ino → s.name = some ino ∨ s.name = none
  shares : ∀ ino, phase.shares = some ino → p.num ∈ (s.locks ino).readers
  excludes : ∀ ino, phase.excludes = some ino → (s.locks ino).writer = some p.num

/-- What is so for two processes. -/
structure DaemonState.Pair (s : DaemonState n) (a : DaemonPhase) (q : Pid n) (b : DaemonPhase) :
    Prop where
  one : a.owns = true → b.owns = false
  locked : ∀ ino, a.opened = some ino → b.unlocked ≠ some ino
  probing : ∀ action ino buf, a = .probing action ino buf → s.name = some ino → b.owns = true →
    buf = Decimal.digits q.num
  removing : ∀ action ino, a = .removing action ino → s.name = some ino → b.owns = false

/-- What is so for the processes other than one. -/
structure DaemonState.Others (s : DaemonState n) (p : Pid n) : Prop where
  fits : ∀ q, q ≠ p → s.Fits q (s.procs q)
  pair : ∀ q r, q ≠ p → r ≠ p → q ≠ r → s.Pair (s.procs q) r (s.procs r)
  apart : ∀ ino, (s.locks ino).writer ≠ none → (s.locks ino).readers = []

structure DaemonState.Inv (s : DaemonState n) : Prop where
  fits : ∀ q, s.Fits q (s.procs q)
  pair : ∀ q r, q ≠ r → s.Pair (s.procs q) r (s.procs r)
  apart : ∀ ino, (s.locks ino).writer ≠ none → (s.locks ino).readers = []

theorem DaemonState.Inv.others (inv : s.Inv) (p : Pid n) : s.Others p :=
  ⟨fun q _ => inv.fits q, fun q r _ _ => inv.pair q r, inv.apart⟩

theorem procs_go_self (s : DaemonState n) (p : Pid n) (phase : DaemonPhase) :
    (s.go p phase).procs p = phase := Function.update_self ..

theorem procs_go_ne (s : DaemonState n) (phase : DaemonPhase) (ne : q ≠ p) :
    (s.go p phase).procs q = s.procs q := Function.update_of_ne ne ..

theorem DaemonState.Others.go (others : s.Others p) (fits : s.Fits p phase)
    (pair : ∀ q, q ≠ p → s.Pair phase q (s.procs q) ∧ s.Pair (s.procs q) p phase) :
    (s.go p phase).Inv where
  fits := by
    intro q
    by_cases same : q = p
    · rw [same, procs_go_self]
      exact ⟨fits.named, fits.written, fits.daemon, fits.opened, fits.shares, fits.excludes⟩
    · rw [procs_go_ne s phase same]
      have old := others.fits q same
      exact ⟨old.named, old.written, old.daemon, old.opened, old.shares, old.excludes⟩
  pair := by
    intro q r ne
    by_cases same : q = p
    · subst same
      rw [procs_go_self, procs_go_ne s phase ne.symm]
      have new := (pair r ne.symm).1
      exact ⟨new.one, new.locked, new.probing, new.removing⟩
    · rw [procs_go_ne s phase same]
      by_cases same' : r = p
      · subst same'
        rw [procs_go_self]
        have new := (pair q ne).2
        exact ⟨new.one, new.locked, new.probing, new.removing⟩
      · rw [procs_go_ne s phase same']
        have old := others.pair q r same same' ne
        exact ⟨old.one, old.locked, old.probing, old.removing⟩
  apart := others.apart

/-! ## Processes that keep out of it -/

theorem DaemonPhase.Idle.fits (idle : phase.Idle) (s : DaemonState n) (p : Pid n) :
    s.Fits p phase where
  named := fun ino created => by rw [idle.created] at created; cases created
  written := by
    rintro ino rfl
    have owns := idle.owns
    cases owns
  daemon := by
    rintro rfl
    have owns := idle.owns
    cases owns
  opened := fun ino opened => by rw [idle.opened] at opened; cases opened
  shares := fun ino shares => by rw [idle.shares] at shares; cases shares
  excludes := fun ino excludes => by rw [idle.excludes] at excludes; cases excludes

theorem DaemonPhase.Idle.pair (idle : phase.Idle) (s : DaemonState n) (p q : Pid n)
    (b : DaemonPhase) : s.Pair phase q b ∧ s.Pair b p phase := by
  refine ⟨⟨?_, ?_, ?_, ?_⟩, ⟨?_, ?_, ?_, ?_⟩⟩
  · intro owns
    rw [idle.owns] at owns
    cases owns
  · intro ino opened
    rw [idle.opened] at opened
    cases opened
  · rintro action ino buf rfl
    have opened := idle.opened
    cases opened
  · rintro action ino rfl
    have opened := idle.opened
    cases opened
  · exact fun _ => idle.owns
  · intro ino _ unlocked
    rw [idle.unlocked] at unlocked
    cases unlocked
  · intro action ino buf _ _ owns
    rw [idle.owns] at owns
    cases owns
  · exact fun _ _ _ _ => idle.owns

theorem DaemonState.Others.idle (others : s.Others p) (idle : phase.Idle) : (s.go p phase).Inv :=
  others.go (idle.fits s p) fun q _ => idle.pair s p q (s.procs q)

theorem idle_absent : DaemonPhase.absent.Idle := ⟨rfl, rfl, rfl, rfl, rfl, rfl⟩
theorem idle_other : DaemonPhase.other.Idle := ⟨rfl, rfl, rfl, rfl, rfl, rfl⟩
theorem idle_creating : DaemonPhase.creating.Idle := ⟨rfl, rfl, rfl, rfl, rfl, rfl⟩
theorem idle_failed (ino : Nat) : (DaemonPhase.finishing ino (-1)).Idle :=
  ⟨rfl, rfl, rfl, rfl, rfl, rfl⟩

theorem idle_checking (action : DaemonAction) : (DaemonPhase.checking action).Idle :=
  ⟨rfl, rfl, rfl, rfl, rfl, rfl⟩

theorem idle_leaving (action : DaemonAction) (ino : Nat) (pid : Int) :
    (DaemonPhase.leaving action ino pid).Idle := ⟨rfl, rfl, rfl, rfl, rfl, rfl⟩

theorem idle_checked (action : DaemonAction) (pid : Int) : (DaemonPhase.checked action pid).Idle :=
  ⟨rfl, rfl, rfl, rfl, rfl, rfl⟩

/-! ## The file -/

/-- A process that owns the file has given it its name. -/
theorem DaemonState.Fits.owner (fits : s.Fits q phase) (owns : phase.owns = true) :
    ∃ ino, s.name = some ino ∧ (phase.created = some ino ∨
      phase = .daemon ∧ s.content ino = Decimal.digits q.num) := by
  cases phase with
  | asking ino => exact ⟨ino, fits.named ino rfl, .inl rfl⟩
  | writing ino => exact ⟨ino, fits.named ino rfl, .inl rfl⟩
  | undoing ino locked => exact ⟨ino, fits.named ino rfl, .inl rfl⟩
  | finishing ino ret =>
      have done : ret = 0 := of_decide_eq_true owns
      have created : (DaemonPhase.finishing ino ret).created = some ino := if_pos done
      exact ⟨ino, fits.named ino created, .inl created⟩
  | daemon =>
      obtain ⟨ino, name, content⟩ := fits.daemon rfl
      exact ⟨ino, name, .inr ⟨rfl, content⟩⟩
  | _ => cases owns

theorem DaemonPhase.owns_of_created (created : phase.created = some ino) :
    phase.owns = true := by
  cases phase with
  | asking => rfl
  | writing => rfl
  | undoing => rfl
  | finishing ino' ret =>
      by_contra other
      have failed : ¬ ret = 0 := of_decide_eq_false (Bool.eq_false_iff.mpr other)
      exact absurd ((if_neg failed).symm.trans created) nofun
  | _ => cases created

/-- Nobody else owns the file that is removed. -/
theorem DaemonState.Others.unlink (others : s.Others p)
    (none : ∀ q, q ≠ p → (s.procs q).owns = false) : s.unlink.Others p where
  fits := by
    intro q ne
    have old := others.fits q ne
    have free : ∀ {b : Prop}, (s.procs q).owns = true → b := fun owns => by
      rw [none q ne] at owns
      cases owns
    refine ⟨fun ino created => free (DaemonPhase.owns_of_created created), old.written,
      fun daemon => free ?_, fun _ _ => .inr rfl, old.shares, old.excludes⟩
    change s.procs q = .daemon at daemon
    rw [daemon]
    rfl
  pair := by
    intro q r ne ne' apart
    have old := others.pair q r ne ne' apart
    refine ⟨old.one, old.locked, ?_, ?_⟩
    · intro action ino buf _ name
      cases name
    · intro action ino _ name
      cases name
  apart := others.apart

/-- Only the locks have changed, and those of the other processes are there. -/
theorem DaemonState.Others.locks (others : s.Others p) {locks : Nat → FileLock}
    (readers : ∀ q ino, q ≠ p → (s.procs q).shares = some ino → q.num ∈ (s.locks ino).readers →
      q.num ∈ (locks ino).readers)
    (writer : ∀ q ino, q ≠ p → (s.procs q).excludes = some ino →
      (s.locks ino).writer = some q.num → (locks ino).writer = some q.num)
    (apart : ∀ ino, (locks ino).writer ≠ none → (locks ino).readers = []) :
    DaemonState.Others { s with locks := locks } p where
  fits := by
    intro q ne
    have old := others.fits q ne
    exact ⟨old.named, old.written, old.daemon, old.opened,
      fun ino shares => readers q ino ne shares (old.shares ino shares),
      fun ino excludes => writer q ino ne excludes (old.excludes ino excludes)⟩
  pair := by
    intro q r ne ne' apart
    have old := others.pair q r ne ne' apart
    exact ⟨old.one, old.locked, old.probing, old.removing⟩
  apart := apart

/-- Nobody else owns the file that is written. -/
theorem DaemonState.Others.content (others : s.Others p)
    (none : ∀ q, q ≠ p → (s.procs q).owns = false) {content : Nat → List UInt8} :
    DaemonState.Others { s with content := content } p where
  fits := by
    intro q ne
    have old := others.fits q ne
    have free : ∀ {b : Prop}, (s.procs q).owns = true → b := fun owns => by
      rw [none q ne] at owns
      cases owns
    refine ⟨old.named, fun ino written => free ?_, fun daemon => free ?_, old.opened, old.shares,
      old.excludes⟩
    · change s.procs q = .finishing ino 0 at written
      rw [written]
      rfl
    · change s.procs q = .daemon at daemon
      rw [daemon]
      rfl
  pair := by
    intro q r ne ne' apart
    have old := others.pair q r ne ne' apart
    exact ⟨old.one, old.locked, old.probing, old.removing⟩
  apart := others.apart

/-- The locks that a process loses when it closes a file, or all files. -/
theorem DaemonState.Others.release (others : s.Others p) {locks : Nat → FileLock}
    (released : ∀ ino, locks ino = s.locks ino ∨ locks ino = (s.locks ino).release p.num) :
    DaemonState.Others { s with locks := locks } p := by
  refine others.locks ?_ ?_ ?_
  · intro q ino ne _ mem
    rcases released ino with same | released
    · exact same ▸ mem
    · rw [released]
      refine List.mem_filter.mpr ⟨mem, decide_eq_true fun eq => ne (Pid.num_inj eq)⟩
  · intro q ino ne _ writer
    rcases released ino with same | released
    · exact same ▸ writer
    · rw [released, FileLock.release, writer]
      exact if_neg fun eq => ne (Pid.num_inj (Option.some.inj eq))
  · intro ino held
    rcases released ino with same | released
    · rw [same] at held ⊢
      exact others.apart ino held
    · rw [released] at held ⊢
      unfold FileLock.release at held ⊢
      have held' : (s.locks ino).writer ≠ none := by
        intro unheld
        rw [unheld] at held
        simp only [ite_self, ne_eq, not_true] at held
      simp only
      rw [others.apart ino held']
      rfl

theorem DaemonState.Others.close (others : s.Others p) (ino : Nat) : (s.close p ino).Others p := by
  refine others.release fun other => ?_
  by_cases same : other = ino
  · rw [same]
    exact .inr (Function.update_self ..)
  · exact .inl (Function.update_of_ne same ..)

theorem FileLock.mem_share {l lock : FileLock} {p : Nat} (shared : l.share p = some lock) :
    p ∈ lock.readers := by
  unfold FileLock.share at shared
  split at shared
  · cases shared
    exact List.mem_cons_self
  · cases shared

theorem FileLock.writer_exclude {l lock : FileLock} {p : Nat} (excluded : l.exclude p = some lock) :
    lock.writer = some p := by
  unfold FileLock.exclude at excluded
  split at excluded
  · cases excluded
    rfl
  · cases excluded

/-- A lock for reading leaves the other locks. -/
theorem DaemonState.Others.share (others : s.Others p) {lock : FileLock}
    (shared : (s.locks ino).share p.num = some lock) :
    DaemonState.Others { s with locks := Function.update s.locks ino lock } p := by
  unfold FileLock.share at shared
  split at shared
  · next free =>
      cases shared
      refine others.locks ?_ ?_ ?_
      · intro q other _ _ mem
        by_cases same : other = ino
        · subst same
          rw [Function.update_self]
          exact List.mem_cons_of_mem _ mem
        · rwa [Function.update_of_ne same]
      · intro q other _ _ writer
        by_cases same : other = ino
        · subst same
          rw [Function.update_self]
          exact writer
        · rwa [Function.update_of_ne same]
      · intro other held
        by_cases same : other = ino
        · subst same
          rw [Function.update_self] at held
          exact absurd free held
        · rw [Function.update_of_ne same] at held ⊢
          exact others.apart other held
  · cases shared

/-- A lock for writing is given when there is no other lock on the file. -/
theorem DaemonState.Others.exclude (others : s.Others p) {lock : FileLock}
    (excluded : (s.locks ino).exclude p.num = some lock) :
    DaemonState.Others { s with locks := Function.update s.locks ino lock } p := by
  unfold FileLock.exclude at excluded
  split at excluded
  · next free =>
      cases excluded
      refine others.locks ?_ ?_ ?_
      · intro q other _ _ mem
        by_cases same : other = ino
        · subst same
          rw [free.2] at mem
          cases mem
        · rwa [Function.update_of_ne same]
      · intro q other _ _ writer
        by_cases same : other = ino
        · subst same
          rw [free.1] at writer
          cases writer
        · rwa [Function.update_of_ne same]
      · intro other held
        by_cases same : other = ino
        · subst same
          rw [Function.update_self]
          exact free.2
        · rw [Function.update_of_ne same] at held ⊢
          exact others.apart other held
  · cases excluded

/-- What a process writes is read back. -/
theorem digits_take (small : n ≤ 2 ^ 31) (p : Pid n) :
    (Decimal.digits p.num).take 15 = Decimal.digits p.num := by
  refine List.take_of_length_le ?_
  rw [Decimal.length_digits_le_iff (by decide)]
  have low : p.num < n := p.val.isLt
  omega

theorem bufferPid_digits (small : n ≤ 2 ^ 31) (p : Pid n) :
    bufferPid (Decimal.digits p.num) = p.num := by
  have low : p.num < n := p.val.isLt
  have whole : (Decimal.digits p.num).takeWhile (fun b => b ≠ 0 ∧ b ≠ 10 ∧ b ≠ 13) =
      Decimal.digits p.num := by
    refine List.takeWhile_eq_self_iff.mpr fun b mem => ?_
    have digit := (Decimal.isDigit_of_mem_digits mem).1
    refine decide_eq_true ⟨?_, ?_, ?_⟩
    · rintro rfl
      exact absurd digit (by decide)
    · rintro rfl
      exact absurd digit (by decide)
    · rintro rfl
      exact absurd digit (by decide)
  unfold bufferPid
  rw [whole, Decimal.strtol, Decimal.number_digits, toInt32_of_range]
  · omega
  · omega
  · omega

/-! ## The steps -/

theorem DaemonPhase.idle_of (owns : phase.owns = false) (opened : phase.opened = none) :
    phase.Idle := by
  cases phase with
  | finishing ino ret =>
      have failed : ¬ ret = 0 := of_decide_eq_false owns
      exact ⟨owns, if_neg failed, rfl, if_neg failed, rfl, rfl⟩
  | waiting => cases opened
  | reading => cases opened
  | probing => cases opened
  | removing => cases opened
  | asking => cases owns
  | writing => cases owns
  | undoing => cases owns
  | daemon => cases owns
  | _ => exact ⟨rfl, rfl, rfl, rfl, rfl, rfl⟩

/-- The first process at the file. -/
theorem DaemonState.Others.of_idle (idle : ∀ q, q ≠ p → (s.procs q).Idle)
    (apart : ∀ ino, (s.locks ino).writer ≠ none → (s.locks ino).readers = []) : s.Others p where
  fits := fun q ne => (idle q ne).fits s q
  pair := fun q r ne _ _ => ((idle q ne).pair s q r (s.procs r)).1
  apart := apart

/-- A process that owns the file is there. -/
theorem DaemonState.kill_owner (s : DaemonState n) (ok : Bool) (owns : (s.procs q).owns = true) :
    ((q.num : Nat) : Int) ≠ 0 ∧ s.kill q.num ok = true := by
  have positive : (0 : Int) < q.num := Int.natCast_pos.mpr q.property
  have below : (q.num : Int).toNat < n := q.val.isLt
  refine ⟨Int.ne_of_gt positive, ?_⟩
  unfold DaemonState.kill
  rw [dif_pos positive, dif_pos below]
  refine decide_eq_true fun absent => ?_
  change s.procs q = .absent at absent
  rw [absent] at owns
  cases owns

/-- A process that has the file open is alone with it, or there is its daemon. -/
theorem DaemonState.Inv.read (inv : s.Inv) {action : DaemonAction}
    (phase : s.procs p = .reading action ino) (name : s.name = some ino) (ne : q ≠ p)
    (owns : (s.procs q).owns = true) : s.content ino = Decimal.digits q.num := by
  have shares := (inv.fits p).shares ino (by rw [phase]; rfl)
  have unlocked := (inv.pair p q ne.symm).locked ino (by rw [phase]; rfl)
  obtain ⟨ino', name', created | ⟨_, content⟩⟩ := (inv.fits q).owner owns
  · cases name.symm.trans name'
    have excludes : (s.procs q).excludes = some ino := by
      cases there : s.procs q with
      | asking ino' =>
          rw [there] at created unlocked
          exact absurd created unlocked
      | undoing ino' locked =>
          rw [there] at created unlocked
          cases locked with
          | true => exact created
          | false => exact absurd created unlocked
      | writing ino' =>
          rw [there] at created
          exact created
      | finishing ino' ret =>
          rw [there] at created
          exact created
      | _ =>
          rw [there] at created
          cases created
    have writer := (inv.fits q).excludes ino excludes
    rw [inv.apart ino (by rw [writer]; exact nofun)] at shares
    cases shares
  · cases name.symm.trans name'
    exact content

/-- A process that only has the file open, beside another one. -/
theorem DaemonPhase.pair_of_opened {b : DaemonPhase} (owns : phase.owns = false)
    (unlocked : phase.unlocked = none)
    (locked : ∀ ino, phase.opened = some ino → b.unlocked ≠ some ino)
    (probing : ∀ action ino buf, phase = .probing action ino buf → s.name = some ino →
      b.owns = true → buf = Decimal.digits q.num)
    (removing : ∀ action ino, phase = .removing action ino → s.name = some ino →
      b.owns = false) : s.Pair phase q b ∧ s.Pair b p phase := by
  refine ⟨⟨?_, locked, probing, removing⟩, ⟨fun _ => owns, ?_, ?_, fun _ _ _ _ => owns⟩⟩
  · intro owns'
    rw [owns] at owns'
    cases owns'
  · intro ino _ unlocked'
    rw [unlocked] at unlocked'
    cases unlocked'
  · intro action ino buf _ _ owns'
    rw [owns] at owns'
    cases owns'

/-- An owner that goes on, beside another process. -/
theorem DaemonState.Pair.owner {a b : DaemonPhase} (forth : s.Pair a q b) (back : s.Pair b p a)
    (owned : a.owns = true) (owns : phase.owns = true)
    (unlocked : ∀ ino, phase.unlocked = some ino → a.unlocked = some ino)
    (name : s'.name = s.name) : s'.Pair phase q b ∧ s'.Pair b p phase := by
  have other := forth.one owned
  refine ⟨⟨fun _ => other, ?_, ?_, ?_⟩, ⟨?_, ?_, ?_, ?_⟩⟩
  · intro ino opened
    cases phase with
    | waiting => cases owns
    | reading => cases owns
    | probing => cases owns
    | removing => cases owns
    | _ => cases opened
  · rintro action ino buf rfl
    cases owns
  · rintro action ino rfl
    cases owns
  · intro owns'
    rw [other] at owns'
    cases owns'
  · exact fun ino opened there => back.locked ino opened (unlocked ino there)
  · exact fun action ino buf probing there _ =>
      back.probing action ino buf probing (name ▸ there) owned
  · intro action ino removing there
    have none := back.removing action ino removing (name ▸ there)
    rw [owned] at none
    cases none

/-- A step of a process keeps the invariant. -/
theorem DaemonState.Inv.advance (small : n ≤ 2 ^ 31) (inv : s.Inv) {ok : Bool}
    (quiet : s.Quiet (.advance p ok)) (stepped : s.advance p ok = some s') : s'.Inv := by
  have others := inv.others p
  have fits := inv.fits p
  have forth := fun q (ne : q ≠ p) => inv.pair p q ne.symm
  have back := fun q (ne : q ≠ p) => inv.pair q p ne
  unfold DaemonState.advance at stepped
  cases phase : s.procs p with
  | absent =>
      rw [phase] at stepped
      cases stepped
  | other =>
      rw [phase] at stepped
      cases stepped
  | checking action =>
      rw [phase] at stepped
      cases name : s.name with
      | none =>
          rw [name] at stepped
          cases stepped
          exact others.idle (idle_checked action 0)
      | some ino =>
          rw [name] at stepped
          cases ok with
          | false =>
              cases stepped
              exact others.idle (idle_checked action 0)
          | true =>
              cases stepped
              have locked := quiet.1 (by rw [phase]; rfl) (Option.isSome_of_eq_some name) rfl
              refine others.go ⟨nofun, nofun, nofun, ?_, nofun, nofun⟩ fun q ne =>
                DaemonPhase.pair_of_opened rfl rfl ?_ nofun nofun
              · rintro ino' ⟨⟩
                exact .inl name
              · intro ino' _
                rw [locked q]
                exact nofun
  | waiting action ino =>
      rw [phase] at stepped fits forth
      cases ok with
      | false =>
          cases stepped
          exact others.idle (idle_leaving action ino _)
      | true =>
          obtain ⟨lock, shared, rfl⟩ := Option.map_eq_some_iff.mp stepped
          refine (others.share shared).go ⟨nofun, nofun, nofun, fits.opened, ?_, nofun⟩ fun q ne =>
            DaemonPhase.pair_of_opened rfl rfl (forth q ne).locked nofun nofun
          rintro ino' ⟨⟩
          change p.num ∈ (Function.update s.locks ino lock ino).readers
          rw [Function.update_self]
          exact FileLock.mem_share shared
  | reading action ino =>
      rw [phase] at stepped fits forth
      cases ok with
      | false =>
          cases stepped
          exact others.idle (idle_leaving action ino _)
      | true =>
          cases stepped
          refine others.go ⟨nofun, nofun, nofun, fits.opened, fits.shares, nofun⟩ fun q ne =>
            DaemonPhase.pair_of_opened rfl rfl (forth q ne).locked ?_ nofun
          rintro action' ino' buf ⟨⟩ name owns
          rw [inv.read phase name ne owns]
          exact digits_take small q
  | probing action ino buf =>
      rw [phase] at stepped fits forth
      -- A process that owns the file is not gone.
      have stale : ¬ (bufferPid buf ≠ 0 ∧ s.kill (bufferPid buf) ok = true) →
          (s.go p (.removing action ino)).Inv := by
        intro gone
        refine others.go ⟨nofun, nofun, nofun, fits.opened, fits.shares, nofun⟩ fun q ne =>
          DaemonPhase.pair_of_opened rfl rfl (forth q ne).locked nofun ?_
        rintro action' ino' ⟨⟩ name
        by_contra owned
        have owns : (s.procs q).owns = true := Bool.not_eq_false _ ▸ owned
        have there := s.kill_owner ok owns
        rw [← bufferPid_digits small, ← (forth q ne).probing action ino buf rfl name owns] at there
        exact gone there
      simp only at stepped
      split at stepped
      · next zero =>
          cases stepped
          exact stale fun both => both.1 zero
      · split at stepped
        · cases stepped
          exact others.idle (idle_leaving action ino _)
        · next gone =>
            cases stepped
            exact stale fun both => gone both.2
  | removing action ino =>
      rw [phase] at stepped fits forth
      cases stepped
      refine (others.unlink fun q ne => ?_).idle (idle_leaving action ino 0)
      by_contra owned
      have owns : (s.procs q).owns = true := Bool.not_eq_false _ ▸ owned
      obtain ⟨ino', name, _⟩ := (inv.fits q).owner owns
      rcases fits.opened ino rfl with here | none
      · exact owned ((forth q ne).removing action ino rfl here)
      · rw [none] at name
        cases name
  | leaving action ino pid =>
      rw [phase] at stepped
      cases stepped
      exact (others.close ino).idle (idle_checked action pid)
  | checked action pid =>
      rw [phase] at stepped
      cases action with
      | start =>
          simp only at stepped
          split at stepped
          · cases stepped
            exact others.idle idle_absent
          · cases stepped
      | stop =>
          cases stepped
          exact others.idle idle_absent
  | creating =>
      rw [phase] at stepped
      cases name : s.name with
      | some ino =>
          rw [name] at stepped
          cases stepped
          exact others.idle idle_absent
      | none =>
          rw [name] at stepped
          cases ok with
          | false =>
              cases stepped
              exact others.idle idle_absent
          | true =>
              cases stepped
              have idle : ∀ q, (s.procs q).Idle := by
                intro q
                refine DaemonPhase.idle_of ?_ (quiet.2 phase name rfl q)
                by_contra owned
                obtain ⟨ino, name', _⟩ := (inv.fits q).owner (Bool.not_eq_false _ ▸ owned)
                rw [name] at name'
                cases name'
              refine DaemonState.Others.go (DaemonState.Others.of_idle (fun q _ => idle q) inv.apart)
                ⟨?_, nofun, nofun, nofun, nofun, nofun⟩ fun q ne => ?_
              · rintro ino ⟨⟩
                rfl
              · exact ((idle q).pair _ q p _).symm
  | asking ino =>
      rw [phase] at stepped fits forth back
      cases ok with
      | false =>
          cases stepped
          exact others.go ⟨fits.named, nofun, nofun, nofun, nofun, nofun⟩ fun q ne =>
            (forth q ne).owner (back q ne) rfl rfl (fun _ => id) rfl
      | true =>
          obtain ⟨lock, excluded, rfl⟩ := Option.map_eq_some_iff.mp stepped
          refine (others.exclude excluded).go ⟨fits.named, nofun, nofun, nofun, nofun, ?_⟩
            fun q ne => (forth q ne).owner (back q ne) rfl rfl nofun rfl
          rintro ino' ⟨⟩
          change (Function.update s.locks ino lock ino).writer = some p.num
          rw [Function.update_self]
          exact FileLock.writer_exclude excluded
  | writing ino =>
      rw [phase] at stepped fits forth back
      cases ok with
      | false =>
          cases stepped
          exact others.go ⟨fits.named, nofun, nofun, nofun, nofun, fits.excludes⟩ fun q ne =>
            (forth q ne).owner (back q ne) rfl rfl nofun rfl
      | true =>
          cases stepped
          have alone : ∀ r, r ≠ p → (s.procs r).owns = false := fun r ne => (forth r ne).one rfl
          refine (others.content alone).go ⟨fits.named, ?_, nofun, nofun, nofun, fits.excludes⟩
            fun q ne => (forth q ne).owner (back q ne) rfl rfl nofun rfl
          rintro ino' ⟨⟩
          exact (Function.update_self ..).trans (digits_take small p)
  | undoing ino locked =>
      rw [phase] at stepped forth
      cases stepped
      exact (others.unlink fun q ne => (forth q ne).one rfl).idle (idle_failed ino)
  | finishing ino ret =>
      rw [phase] at stepped fits forth back
      cases stepped
      split
      · next done =>
          subst done
          refine (others.close ino).go ⟨nofun, nofun, fun _ => ?_, nofun, nofun, nofun⟩ fun q ne =>
            (forth q ne).owner (back q ne) rfl rfl nofun rfl
          exact ⟨ino, fits.named ino rfl, fits.written ino rfl⟩
      · exact (others.close ino).idle idle_absent
  | daemon =>
      rw [phase] at stepped forth
      cases stepped
      exact (others.unlink fun q ne => (forth q ne).one rfl).idle idle_other

theorem DaemonState.Inv.step (small : n ≤ 2 ^ 31) (inv : s.Inv) {act : DaemonAct n}
    (quiet : s.Quiet act) (stepped : s.step act = some s') : s'.Inv := by
  cases act with
  | exec p action =>
      obtain ⟨-, ⟨⟩⟩ := Option.ite_none_right_eq_some.mp stepped
      exact (inv.others p).idle (idle_checking action)
  | spawn p =>
      obtain ⟨-, ⟨⟩⟩ := Option.ite_none_right_eq_some.mp stepped
      exact (inv.others p).idle idle_other
  | advance p ok => exact inv.advance small quiet stepped
  | fork p child =>
      simp only [DaemonState.step] at stepped
      split at stepped
      · obtain ⟨-, ⟨⟩⟩ := Option.ite_none_left_eq_some.mp stepped
        exact (((inv.others p).idle idle_other).others child).idle idle_creating
      · cases stepped
  | die p =>
      cases stepped
      exact ((inv.others p).release fun _ => .inr rfl).idle idle_absent

theorem DaemonState.inv_init (left : Option (List UInt8)) : (.init left : DaemonState n).Inv where
  fits := fun q => idle_absent.fits _ q
  pair := fun q r _ => (idle_absent.pair _ q r _).1
  apart := fun _ held => absurd rfl held

/-- In every run without the two races, whatever file was left behind: there is at most one
daemon, the file has its pid, and that is the pid that `verben start` and `verben stop` read. -/
theorem pid_file_exclusive (small : n ≤ 2 ^ 31) {left : Option (List UInt8)} {s : DaemonState n}
    (reach : Reach DaemonState.step DaemonState.Quiet (.init left) s) :
    (∀ p q, s.procs p = .daemon → s.procs q = .daemon → p = q) ∧
      ∀ q, s.procs q = .daemon →
        (∃ ino, s.name = some ino ∧ s.content ino = Decimal.digits q.num) ∧
          ∀ p action ino buf, s.procs p = .probing action ino buf → bufferPid buf = q.num := by
  have inv : s.Inv := reach.invariant (DaemonState.inv_init left) fun inv quiet stepped =>
    inv.step small quiet stepped
  refine ⟨?_, ?_⟩
  · intro p q here there
    by_contra ne
    have one := (inv.pair p q ne).one (by rw [here]; rfl)
    rw [there] at one
    cases one
  · intro q daemon
    have owns : (s.procs q).owns = true := by rw [daemon]; rfl
    obtain ⟨ino, name, content⟩ := (inv.fits q).daemon daemon
    refine ⟨⟨ino, name, content⟩, ?_⟩
    intro p action ino' buf probing
    have ne : p ≠ q := by
      rintro rfl
      rw [daemon] at probing
      cases probing
    have here : s.name = some ino' := by
      rcases (inv.fits p).opened ino' (by rw [probing]; rfl) with here | none
      · exact here
      · rw [none] at name
        cases name
    rw [(inv.pair p q ne).probing action ino' buf probing here owns]
    exact bufferPid_digits small q

/-- The pids from 1 on, of four processes. -/
def somePid (k : Fin 4) : Pid 5 := ⟨k.succ, Nat.succ_pos _⟩

/-- A process goes on by so many calls, none of which fails. -/
def goesOn (k : Fin 4) (calls : Nat) : List (DaemonAct 5) :=
  List.replicate calls (.advance (somePid k) true)

/-- A daemon starts although an old file is there, and another one does not. -/
theorem pid_file_exclusive_twice :
    ∃ s : DaemonState 5, Reach DaemonState.step DaemonState.Quiet (.init (some [52])) s ∧
      s.procs (somePid 1) = .daemon ∧ s.procs (somePid 2) = .absent ∧
      ∃ ino, s.name = some ino ∧ s.content ino = Decimal.digits 2 := by
  have ends : (runGuarded DaemonState.step DaemonState.Quiet (.init (some [52]) : DaemonState 5)
      (.exec (somePid 0) .start :: goesOn 0 6 ++ .fork (somePid 0) (somePid 1) :: goesOn 1 4 ++
        .exec (somePid 2) .start :: goesOn 2 6)).any
      (fun s => s.procs (somePid 1) = .daemon ∧ s.procs (somePid 2) = .absent) = true := by
    decide +kernel
  obtain ⟨s, ran, there⟩ := (Option.any_eq_true ..).mp ends
  obtain ⟨daemon, refused⟩ := of_decide_eq_true there
  have reach := reach_of_runGuarded ran
  exact ⟨s, reach, daemon, refused,
    ((pid_file_exclusive (by decide) reach).2 _ daemon).1⟩

/-- Each race leads to two daemons: a process that is starting looks into the new file of
another; and one that has found an old file removes the new one. -/
example : (run DaemonState.step (.init none : DaemonState 5)
    (.exec (somePid 0) .start :: goesOn 0 1 ++ .fork (somePid 0) (somePid 1) :: goesOn 1 1 ++
      .exec (somePid 2) .start :: goesOn 2 6 ++ goesOn 1 3 ++
      .fork (somePid 2) (somePid 3) :: goesOn 3 4)).any
    (fun s => s.procs (somePid 1) = .daemon ∧ s.procs (somePid 3) = .daemon) = true := by
  decide +kernel

example : (run DaemonState.step (.init (some [52]) : DaemonState 5)
    (.exec (somePid 0) .start :: goesOn 0 4 ++ .exec (somePid 2) .start :: goesOn 2 4 ++
      goesOn 0 2 ++ .fork (somePid 0) (somePid 1) :: goesOn 1 4 ++ goesOn 2 2 ++
      .fork (somePid 2) (somePid 3) :: goesOn 3 4)).any
    (fun s => s.procs (somePid 1) = .daemon ∧ s.procs (somePid 3) = .daemon) = true := by
  decide +kernel

end Verben
