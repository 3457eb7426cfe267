import Verben.Conf.Aligned
import Verben.Conf.Twins

/-!
# Lines that are passed over

Of two texts that differ in a comment or in a blank line, `conf_parse` makes the same, as long as
no line without fields is taken for the end of a block, or leads nowhere
(`conf_parse_ignores_line`). The code takes it for that when `field[0]` happens to point to a
`}`: the pointer is not set by such a line, so it comes from an earlier one, whose place in the
buffer may hold a comment by now, or from nowhere, and then it may be one that cannot be followed.
`calmLoop` is the loop without this slip. It reads the two texts side by side, one loop waiting
while the other passes over the additional line (`Mirrors`).
-/

namespace Verben

/-! ## A loop that misreads no line -/

/-- The next line would be taken for the end of the block, or lead nowhere. -/
def ConfFrame.misreadsNext (f : ConfFrame) (fp : List UInt8) : Bool :=
  (fgets maxLine fp).any fun line => decide (f.Misreads line.1 line.2)

/-- The loop of `conf_parse`, with `slip` in the place of what it does when a line without fields
is read while `field[0]` points to a `}` or cannot be followed. -/
def confLoopWith (env : ConfEnv) (slip : ParseLoop → ParseLoop) : Nat → ParseLoop
  | 0, _, _, _ => none
  | fuel + 1, f, fp, store =>
      if f.misreadsNext fp then slip (confLoopWith env slip fuel) f fp store
      else confLine env (fuel + 1) (confLoopWith env slip fuel) f fp store

/-- A line is passed over. -/
def skipLine (loop : ParseLoop) : ParseLoop := fun f fp store =>
  (fgets maxLine fp).bind fun line => loop f line.2 store

/-- The loop that passes over all lines without fields. -/
def calmLoop (env : ConfEnv) (fuel : Nat) : ParseLoop := confLoopWith env skipLine fuel

/-- The same result, in texts that differ in additional lines. -/
structure ConfOut.Alike (d : Nat) (out out' : ConfOut) : Prop where
  ret : out.ret = out'.ret
  store : out.store = out'.store
  fp : Aligned d out.fp out'.fp

/-- The second loop comes to the result of the first. -/
def Mirrors (d : Nat) (loop loop' : ParseLoop) : Prop :=
  ∀ ⦃f g : ConfFrame⦄ ⦃fp fp' : List UInt8⦄ ⦃store : ConfStore⦄ ⦃out : ConfOut⦄, f.Alike g →
    Aligned d fp fp' → loop f fp store = some out →
    ∃ out', loop' g fp' store = some out' ∧ out.Alike d out'

section Calm

variable {env : ConfEnv} {fuel : Nat} {f : ConfFrame} {fp raw rest : List UInt8}
  {store : ConfStore}

theorem calmLoop_line (env : ConfEnv) (fuel : Nat) (f : ConfFrame) (store : ConfStore)
    (got : fgets maxLine fp = some (raw, rest)) :
    ∃ g, f.Alike g ∧ calmLoop env (fuel + 1) f fp store =
      g.does env (fuel + 1) (calmLoop env fuel) rest store
        (some (lineKind (lineText raw))) := by
  change ∃ g, f.Alike g ∧ (if f.misreadsNext fp then skipLine (calmLoop env fuel) f fp store
    else confLine env (fuel + 1) (calmLoop env fuel) f fp store) = _
  have next : f.misreadsNext fp = decide (f.Misreads raw rest) := by
    unfold ConfFrame.misreadsNext
    rw [got, Option.any_some]
  by_cases misread : f.Misreads raw rest
  case pos =>
    refine ⟨f, ⟨rfl, rfl, rfl⟩, ?_⟩
    rw [next, if_pos (decide_eq_true misread), misread.1]
    unfold skipLine
    rw [got]
    rfl
  case neg =>
    refine ⟨f.after raw, f.alike_after raw, ?_⟩
    rw [next, if_neg fun eq => misread (of_decide_eq_true eq),
      confLine_reads env (fuel + 1) (calmLoop env fuel) f store got,
      ConfFrame.reads_of_calm misread]

/-- A line that is passed over. -/
theorem calmLoop_idle (env : ConfEnv) (fuel : Nat) (f : ConfFrame) (store : ConfStore)
    (got : fgets maxLine fp = some (raw, rest)) (idle : Idle raw) :
    ∃ g, f.Alike g ∧
      calmLoop env (fuel + 1) f fp store = calmLoop env fuel g rest store := by
  obtain ⟨g, alike, ran⟩ := calmLoop_line env fuel f store got
  refine ⟨g, alike, ran.trans ?_⟩
  rcases idle with kind | kind <;> rw [kind] <;> rfl

theorem calmLoop_nil (got : fgets maxLine fp = none) :
    calmLoop env (fuel + 1) f fp store = some ⟨.ok, fp, store⟩ := by
  change (if f.misreadsNext fp then skipLine (calmLoop env fuel) f fp store
    else confLine env (fuel + 1) (calmLoop env fuel) f fp store) = _
  have next : f.misreadsNext fp = false := by
    unfold ConfFrame.misreadsNext
    rw [got, Option.any_none]
  rw [next, if_neg Bool.false_ne_true]
  exact confLine_nil got

end Calm

section Mirrors

variable {env : ConfEnv} {m n d : Nat} {loop loop' : ParseLoop} {f g : ConfFrame}
  {fp fp' : List UInt8} {store : ConfStore} {out : ConfOut}

theorem ConfOut.Same.alike {out' : ConfOut} (same : out.Same (Aligned d) out') :
    out.Alike d out' :=
  ⟨same.ret, same.store, same.fp⟩

theorem Mirrors.carries (mirrors : Mirrors d loop loop') :
    Carries ConfFrame.Alike (Aligned d) loop loop' := by
  intro f g fp fp' store out frames aligned ran
  obtain ⟨out', ran', alike⟩ := mirrors frames aligned ran
  exact ⟨out', ran', alike.ret, alike.store, alike.fp⟩

theorem comparable_aligned (d : Nat) : Comparable ConfFrame.Alike (Aligned d) :=
  ⟨fun _ => ⟨rfl, rfl, rfl⟩, id, .same d⟩

theorem does_mirrors (mirrors : Mirrors d loop loop') (frames : f.Alike g)
    (aligned : Aligned d fp fp') {kind : Option LineKind} (le : n ≤ m)
    (ran : f.does env n loop fp store kind = some out) :
    ∃ out', g.does env m loop' fp' store kind = some out' ∧ out.Alike d out' := by
  rcases kind with _ | _ | _ | _ | ⟨key, value⟩
  · cases ran
    exact ⟨_, rfl, rfl, rfl, aligned⟩
  · exact mirrors frames aligned ran
  · exact mirrors frames aligned ran
  · cases ran
    refine ⟨_, rfl, ?_⟩
    rw [← frames.block, ← frames.conf]
    split
    · exact ⟨rfl, rfl, aligned⟩
    · exact (confError_same _ aligned _).alike
  · next =>
      change confPair env n loop f fp store key value = some out at ran
      rw [confPair_eq_run] at ran
      obtain ⟨out', ran', same⟩ := Round.run_carries (comparable_aligned d) mirrors.carries
        (pairRound_twins frames frames.conf aligned le key value) ran
      exact ⟨out', (confPair_eq_run ..).trans ran', same.alike⟩

end Mirrors

/-- **Two calm loops come to the same result**: while one of them passes over an additional line,
the other waits. -/
theorem calmLoop_mirrors (env : ConfEnv) {n m d : Nat} (enough : n + d ≤ m) :
    Mirrors d (calmLoop env n) (calmLoop env m) := by
  induction total : n + m using Nat.strongRecOn generalizing n m d with
  | ind k ih =>
      subst total
      intro f g fp fp' store out frames aligned ran
      cases n with
      | zero => cases ran
      | succ n =>
          obtain ⟨m, rfl⟩ : ∃ m', m = m' + 1 := ⟨m - 1, by omega⟩
          cases aligned.reads with
          | ended got got' aligned =>
              rw [calmLoop_nil got] at ran
              cases ran
              exact ⟨_, calmLoop_nil got', rfl, rfl, aligned⟩
          | both raw rest rest' got got' aligned' =>
              obtain ⟨f', alike, same⟩ := calmLoop_line env n f store got
              obtain ⟨g', alike', same'⟩ := calmLoop_line env m g store got'
              rw [same] at ran
              rw [same']
              have mirrors : Mirrors d (calmLoop env n) (calmLoop env m) :=
                ih (n + m) (by omega) (by omega) rfl
              exact does_mirrors mirrors ((alike.symm.trans frames).trans alike') aligned'
                (by omega) ran
          | first raw rest got idle aligned' =>
              obtain ⟨f', alike, same⟩ := calmLoop_idle env n f store got idle
              rw [same] at ran
              exact ih (n + (m + 1)) (by omega) (by omega) rfl (alike.symm.trans frames) aligned'
                ran
          | second raw rest less d_eq got idle aligned' =>
              obtain ⟨g', alike, same⟩ := calmLoop_idle env m g store got idle
              rw [same]
              obtain ⟨out', ran', alike'⟩ := ih (n + 1 + m) (by omega)
                (by omega : n + 1 + less ≤ m) rfl (frames.trans alike) aligned' ran
              exact ⟨out', ran', alike'.ret, alike'.store, alike'.fp.mono (by omega)⟩

/-! ## Calls -/

/-- A call of `conf_parse` comes to an end. -/
def Returns (env : ConfEnv) (ht : Option Nat) (path : CStr) (block : Bool) (store : ConfStore)
    (text : List UInt8) (t : Nat) (ret : ConfRet) (store' : ConfStore) : Prop :=
  ∃ fuel fp,
    confParse env (confLoop env fuel) ht path text block store = some (t, ⟨ret, fp, store'⟩)

/-- No line is ever misread: whatever the loop did there, the call would do the same. -/
def NeverMisreads (env : ConfEnv) (ht : Option Nat) (path : CStr) (block : Bool)
    (store : ConfStore) (text : List UInt8) : Prop :=
  ∀ slip fuel, confParse env (confLoopWith env slip fuel) ht path text block store =
    confParse env (confLoop env fuel) ht path text block store

/-- A comment, or a line of blanks. -/
def Ignored (line : List UInt8) : Prop :=
  10 ∉ line ∧ (line.head? = some 35 ∨ ∀ b ∈ line, defaultIfs b = true)

section Insert

variable {env : ConfEnv} {ht : Option Nat} {path : CStr} {block : Bool} {store : ConfStore}
  {line before after text text' : List UInt8} {d : Nat}

theorem Aligned.returns (aligned : Aligned d text text')
    (calm : NeverMisreads env ht path block store text)
    (calm' : NeverMisreads env ht path block store text') {t : Nat} {ret : ConfRet}
    {store' : ConfStore} (returns : Returns env ht path block store text t ret store') :
    Returns env ht path block store text' t ret store' := by
  obtain ⟨fuel, fp, ran⟩ := returns
  rw [← calm skipLine] at ran
  obtain ⟨⟨_, fp', _⟩, ran', alike⟩ :=
    confParse_carries (comparable_aligned d)
      (calmLoop_mirrors env (Nat.le_refl (fuel + d))).carries aligned ran
  cases alike.ret
  cases alike.store
  refine ⟨fuel + d, fp', ?_⟩
  rw [← calm' skipLine]
  exact ran'

theorem idle_of_blank {raw : List UInt8} (blank : ∀ b ∈ raw, defaultIfs b = true) : Idle raw := by
  have sub : ∀ b ∈ lineText raw, b ∈ raw := by
    intro b mem
    unfold lineText at mem
    dsimp only at mem
    split at mem
    · exact (List.takeWhile_sublist _).subset ((List.dropLast_sublist _).subset mem)
    · exact (List.takeWhile_sublist _).subset mem
  have entry : (lineText raw).head? ≠ some 35 := by
    intro head
    have sep := blank 35 (sub 35 (List.mem_of_mem_head? head))
    cases sep
  have none' : (lineText raw).dropWhile defaultIfs = [] :=
    List.dropWhile_eq_nil_iff.mpr fun b mem => blank b (sub b mem)
  refine Or.inr ?_
  unfold lineKind
  rw [if_neg entry, splitFields, none']

theorem idle_of_comment {raw : List UInt8} (clean : 10 ∉ raw) (comment : raw.head? = some 35) :
    Idle raw := by
  have kept : (raw.takeWhile (· ≠ 0)).getLast? ≠ some 10 := fun last =>
    clean ((List.takeWhile_sublist _).subset (List.mem_of_getLast? last))
  have entry : (lineText raw).head? = some 35 := by
    unfold lineText
    simp only [kept, if_false]
    cases raw with
    | nil => cases comment
    | cons b raw =>
        cases comment
        rfl
  refine Or.inl ?_
  unfold lineKind
  rw [if_pos entry]

/-- All pieces of the line are passed over, when those behind the first are. -/
theorem Ignored.pieces (ignored : Ignored line)
    (pieces : ∀ i, Idle ((line.drop (1023 * (i + 1))).take 1023)) (i : Nat) :
    Idle ((line.drop (1023 * i)).take 1023) := by
  cases i with
  | succ i => exact pieces i
  | zero =>
      rw [Nat.mul_zero, List.drop_zero]
      rcases ignored.2 with comment | blank
      · refine idle_of_comment (fun mem => ignored.1 (List.mem_of_mem_take mem)) ?_
        rwa [List.head?_take, if_neg (by decide)]
      · exact idle_of_blank fun b mem => blank b (List.mem_of_mem_take mem)

end Insert

end Verben
