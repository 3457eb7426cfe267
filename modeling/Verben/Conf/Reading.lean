import Verben.Conf.Evaluate
import Verben.Conf.Held

/-!
# The tree is the reference reading

The loop is followed along the reference reading of a text: each line with a key adds an item, and
a block is read by a call of its own, up to the line that closes it (`confLoop_holds`). So the
tables of an accepted configuration hold what the text gives, at every level
(`conf_tree_is_reading`).
-/

namespace Verben

open Scopes ConfStore

section Line

variable {text line raw rest : List UInt8}

theorem PlainText.textLines_eq (plain : PlainText text) (first : FirstLine text line raw rest) :
    textLines text = line :: textLines rest := by
  obtain ⟨line', lines, split⟩ : ∃ line' lines, textLines text = line' :: lines := by
    cases text with
    | nil => exact nomatch first.got
    | cons b text =>
        rw [textLines_cons]
        split <;> exact ⟨_, _, rfl⟩
  have short : ((textLines text).headD []).length < maxLine - 1 := by
    rw [split]
    exact (plain.lines line' (split ▸ List.mem_cons_self)).short
  obtain ⟨raw', rest', taken, next, ends, clean, _⟩ := takeLine_eq short
  have got : fgets maxLine text = some (takeLine (maxLine - 1) text) := by
    cases text with
    | nil => exact nomatch first.got
    | cons b text => rfl
  rw [first.got, taken] at got
  cases got
  rw [split, List.headD_cons] at ends clean
  rw [split, List.tail_cons] at next
  have same : line = line' := by
    rcases first.ends with raw₁ | raw₁ <;> rcases ends with raw₂ | raw₂
    · exact List.append_cancel_right (raw₁.symm.trans raw₂)
    · exact absurd (raw₂ ▸ raw₁ ▸ List.mem_append_right line (List.mem_singleton_self 10)) clean
    · exact absurd (raw₁ ▸ raw₂ ▸ List.mem_append_right line' (List.mem_singleton_self 10))
        first.clean
    · exact raw₁.symm.trans raw₂
  rw [split, next, same]

theorem FirstLine.lineText_eq (first : FirstLine text line raw rest) : lineText raw = line := by
  have whole : line.takeWhile (· ≠ 0) = line := by
    rw [List.takeWhile_eq_self_iff]
    intro b mem
    exact decide_eq_true fun nul => first.noNul (nul ▸ mem)
  have kept : line.getLast? ≠ some 10 := fun last => first.clean (List.mem_of_getLast? last)
  have bare : lineText line = line := by
    unfold lineText
    simp only [whole, kept, if_false]
  rcases first.ends with rfl | rfl
  · rw [lineText_concat first.clean, bare]
  · exact bare

theorem PlainLine.kind_ne_blank (plain : PlainLine line) : lineKind line ≠ .blank := by
  have fields := plain.fields
  unfold lineKind
  split
  · exact nofun
  · generalize splitFields defaultIfs 1 line = split at fields
    match split with
    | [] => exact absurd rfl fields
    | [field] =>
        dsimp only
        split <;> exact nofun
    | key :: value :: split => exact nofun

/-- A key of a plain text can be put into the table as it is, with its value. -/
theorem PlainLine.pair (plain : PlainLine line) (noReference : 36 ∉ line) {key value : CStr}
    (kind : lineKind line = .pair key value) :
    36 ∉ value ∧ key ≠ [105, 110, 99, 108, 117, 100, 101] := by
  have length := length_splitFields defaultIfs 1 line
  have noInclude := plain.noInclude
  have bytes : ∀ {field b}, field ∈ splitFields defaultIfs 1 line → b ∈ field → b ∈ line :=
    fun mem byte => mem_splitFields mem byte
  unfold lineKind at kind
  split at kind
  · cases kind
  · generalize splitFields defaultIfs 1 line = split at kind length noInclude bytes
    match split with
    | [] => cases kind
    | [field] =>
        dsimp only at kind
        split at kind <;> cases kind
    | [key, value] =>
        cases kind
        refine ⟨fun mem => ?_, ?_⟩
        · exact noReference (bytes (List.mem_cons_of_mem _ List.mem_cons_self) mem)
        · rintro rfl
          exact noInclude _ rfl
    | a :: b :: c :: split => simp at length

theorem PlainText.noBlank (plain : PlainText text) : .blank ∉ textKinds text := by
  intro mem
  obtain ⟨line, mem', kind⟩ := List.mem_map.mp mem
  exact (plain.lines line mem').kind_ne_blank kind

end Line

/-- What a round comes to with a line of a kind, in a plain text. -/
def ConfFrame.takes (f : ConfFrame) (rest : List UInt8) (store : ConfStore) :
    LineKind → Round
  | .skip => .next f rest store
  | .blank => .next f rest store
  | .close => .done (if f.block then ⟨.ok, rest, store⟩ else confError f.conf rest store)
  | .pair key value => itemRound f rest store key value value

section Reading

variable {env : ConfEnv} {fuel : Nat} {loop : ParseLoop} {f : ConfFrame}
  {text rest : List UInt8} {store : ConfStore} {lines tail : List LineKind}
  {items done : List ConfItem} {low : Nat} {out : ConfOut}

theorem round_takes (env : ConfEnv) (fuel : Nat) (f : ConfFrame) (store : ConfStore)
    (plain : PlainText text) (some' : text ≠ []) :
    ∃ rest kind g, textKinds text = kind :: textKinds rest ∧ PlainText rest ∧
      rest.length < text.length ∧ f.Alike g ∧
      f.round env (fuel + 1) text store = g.takes rest store kind := by
  obtain ⟨line, raw, rest, first⟩ := plain.firstLine some'
  have noBlank := first.plain.kind_ne_blank
  have kinds : textKinds text = lineKind line :: textKinds rest := by
    unfold textKinds
    rw [plain.textLines_eq first]
    rfl
  have alike := f.alike_after raw
  refine ⟨rest, lineKind line, f.after raw, kinds, first.plainRest, first.shorter, alike, ?_⟩
  have reads : f.reads raw rest = some (lineKind line) := by
    rw [ConfFrame.reads_of_calm fun misread => noBlank (first.lineText_eq ▸ misread.1),
      first.lineText_eq]
  unfold ConfFrame.round
  rw [first.got]
  dsimp only
  rw [reads]
  cases kind : lineKind line with
  | skip => rfl
  | blank => rfl
  | close =>
      rw [alike.block, alike.conf]
      rfl
  | pair key value =>
      obtain ⟨noReference, noInclude⟩ := first.plain.pair first.noReference kind
      change pairRound env (fuel + 1) (f.after raw) rest store key value = _
      unfold pairRound
      rw [confEvaluate_succ, evalNext_of_plain noReference]
      exact if_neg noInclude

/-- What the loop has read of the text of its block, and of the lines behind it. -/
structure ReadOn (conf : Nat) (block : Bool) (low : Nat) (items : List ConfItem)
    (text : List UInt8) (tail : List LineKind) (store : ConfStore) (out : ConfOut) : Prop where
  holding : Holding out.store conf low items
  beyond : store.Beyond out.store conf low
  rest : block = true →
    PlainText out.fp ∧ out.fp.length < text.length ∧ textKinds out.fp = tail.tail

theorem ReadOn.before {conf : Nat} {block : Bool} {store' : ConfStore}
    (read : ReadOn conf block low items rest tail store' out)
    (shorter : rest.length < text.length) (beyond : store.Beyond store' conf low) :
    ReadOn conf block low items text tail store out where
  holding := read.holding
  beyond := beyond.trans read.beyond
  rest := fun block => by
    obtain ⟨plain, shorter', kinds⟩ := read.rest block
    exact ⟨plain, Nat.lt_trans shorter' shorter, kinds⟩

theorem textKinds_eq_nil (none' : textKinds text = []) : text = [] := by
  cases text with
  | nil => rfl
  | cons b text =>
      unfold textKinds at none'
      rw [textLines_cons] at none'
      split at none' <;> cases none'

/-- The first round of the loop, when the first line is known. -/
theorem confLoop_round {kind : LineKind} {kinds : List LineKind} (plain : PlainText text)
    (split : textKinds text = kind :: kinds)
    (ran : confLoop env fuel f text store = some out) :
    ∃ fuel' rest g, textKinds rest = kinds ∧ PlainText rest ∧ rest.length < text.length ∧
      f.Alike g ∧
      (g.takes rest store kind).run env (confLoop env fuel') (confLoop env fuel') = some out := by
  cases fuel with
  | zero => cases ran
  | succ fuel =>
      have some' : text ≠ [] := by
        rintro rfl
        cases split
      obtain ⟨rest, kind', g, kinds', plain', shorter, alike, takes⟩ :=
        round_takes env fuel f store plain some'
      rw [kinds'] at split
      cases split
      rw [confLoop_succ, takes] at ran
      exact ⟨fuel, rest, g, rfl, plain', shorter, alike, ran⟩

/-- A block that is followed by more was accepted itself. -/
theorem run_block_ok {nested : ParseLoop} {first : Bool} {fp : List UInt8} {cv : Nat}
    (ran : (Round.block first f fp store cv).run env nested loop = some out) (ok : out.ret = .ok) :
    ∃ t out₁, confParse env nested none f.resolvedPath fp true store = some (t, out₁) ∧
      out₁.ret = .ok ∧ loop f out₁.fp
        (out₁.store.setValue cv (linkBlock first (out₁.store.values cv) t)) = some out := by
  obtain ⟨t, out₁, called, next | ⟨_, rfl⟩ | ⟨failed, _, rfl⟩⟩ := Round.run_block_cases ran
  · exact ⟨t, out₁, called, next⟩
  · exact absurd ok (confError_ne _ _ _)
  · exact absurd ok failed

/-- **The loop reads the items of its block**, when it is accepted. A block ends with the line that
closes it, and the text at the top with its end. -/
theorem confLoop_holds (env : ConfEnv) (reading : ConfText lines items) :
    ∀ {fuel : Nat} {f : ConfFrame} {text : List UInt8} {store : ConfStore}
      {done : List ConfItem} {tail : List LineKind} {low : Nat} {out : ConfOut},
      PlainText text → textKinds text = lines ++ tail →
      confLoop env fuel f text store = some out → out.ret = .ok → (f.block = false → tail = []) →
      (f.block = true → tail.head? = some .close) → Holding store f.conf low done →
      ReadOn f.conf f.block low (done ++ items) text tail store out := by
  induction reading with
  | nil =>
      intro fuel f text store done tail low out plain kinds ran ok top closes holding
      rw [List.nil_append] at kinds
      rw [List.append_nil]
      cases block : f.block with
      | false =>
          rw [top block] at kinds
          cases textKinds_eq_nil kinds
          cases fuel with
          | zero => cases ran
          | succ fuel =>
              cases ran
              exact ⟨holding, .refl .., nofun⟩
      | true =>
          obtain ⟨kinds', rfl⟩ : ∃ kinds', tail = .close :: kinds' :=
            ⟨tail.tail, (List.cons_head?_tail (closes block)).symm⟩
          obtain ⟨fuel', rest, g, kinds₁, plain₁, shorter, alike, ran⟩ :=
            confLoop_round plain kinds ran
          change some (if g.block then _ else _) = some out at ran
          rw [if_pos (alike.block.symm.trans block)] at ran
          cases ran
          exact ⟨holding, .refl .., fun _ => ⟨plain₁, shorter, kinds₁⟩⟩
  | skip _ ih =>
      intro fuel f text store done tail low out plain kinds ran ok top closes holding
      obtain ⟨fuel', rest, g, kinds₁, plain₁, shorter, alike, ran⟩ :=
        confLoop_round plain kinds ran
      rw [alike.conf] at holding ⊢
      rw [alike.block] at top closes ⊢
      have read := ih plain₁ kinds₁ ran ok top closes holding
      exact read.before shorter (.refl ..)
  | @value key value lines items sets _ ih =>
      intro fuel f text store done tail low out plain kinds ran ok top closes holding
      obtain ⟨fuel', rest, g, kinds₁, plain₁, shorter, alike, ran⟩ :=
        confLoop_round plain kinds ran
      rw [alike.conf] at holding ⊢
      rw [alike.block] at top closes ⊢
      change (itemRound g rest store key value value).run env _ _ = some out at ran
      rcases itemRound_cases holding with refused | ⟨store', _, item, holding', beyond⟩ |
        ⟨_, _, _, opens, _⟩
      · rw [refused] at ran
        cases ran
        exact absurd ok (confError_ne _ _ _)
      · rw [item] at ran
        have read := ih plain₁ kinds₁ ran ok top closes holding'
        rw [List.append_assoc, List.singleton_append] at read
        exact read.before shorter beyond
      · exact absurd opens sets
  | @block key inner lines items' items _ _ ihBody ihRest =>
      intro fuel f text store done tail low out plain kinds ran ok top closes holding
      have kinds' : textKinds text = .pair key [123] :: (inner ++ (.close :: (lines ++ tail))) := by
        rw [kinds]
        simp
      obtain ⟨fuel', rest, g, kinds₁, plain₁, shorter, alike, ran⟩ :=
        confLoop_round plain kinds' ran
      rw [alike.conf] at holding ⊢
      rw [alike.block] at top closes ⊢
      change (itemRound g rest store key [123] [123]).run env _ _ = some out at ran
      rcases itemRound_cases holding with refused | ⟨_, sets, _⟩ |
        ⟨first, store₁, cv, _, item, opened⟩
      · rw [refused] at ran
        cases ran
        exact absurd ok (confError_ne _ _ _)
      · exact absurd rfl sets
      · rw [item] at ran
        obtain ⟨t, out₁, called, ok₁, next⟩ := run_block_ok ran ok
        obtain ⟨g', store', conf, block, own, ran', empty, beyond⟩ :=
          confParse_holds _ true store₁ called
        have body := ihBody plain₁ kinds₁ ran' ok₁
          (fun top => absurd (block.symm.trans top) nofun) (fun _ => rfl) (conf.symm ▸ empty)
        obtain ⟨plain₂, shorter₂, kinds₂⟩ := body.rest block
        rw [List.nil_append, conf] at body
        obtain ⟨holding', beyond'⟩ :=
          opened.linked out₁.store items' body.holding (beyond.trans body.beyond)
        rw [← own] at holding' beyond'
        have read := ihRest plain₂ kinds₂ next ok top closes holding'
        rw [List.append_assoc, List.singleton_append] at read
        exact read.before (Nat.lt_trans shorter₂ shorter) beyond'

end Reading

/-- **The tree is the reference reading.** For every plain text that closes its blocks: when
`conf_parse` accepts it, what is found in the tables are the items that the text gives, at every
level and for every key, the last one that is given first. -/
theorem conf_tree_is_reading (env : ConfEnv) {fuel : Nat} {text : List UInt8}
    (plain : PlainText text) (closed : depth (textTokens text) = 0)
    (enough : text.length < fuel) (path : CStr) (store : ConfStore) :
    ∃ t out, confParse env (confLoop env fuel) none path text false store = some (t, out) ∧
      (out.ret = .ok → (∃ items, ConfText (textKinds text) items) ∧
        ∀ items, ConfText (textKinds text) items → ∀ level, Agrees out.store level t items) := by
  obtain ⟨t, out, called, accepted⟩ := confParse_ok_iff env plain enough path store
  refine ⟨t, out, called, fun ok => ⟨?_, fun items reading level => ?_⟩⟩
  · exact confText_of_balanced plain.noBlank closed (accepted.mp ok).1
  · obtain ⟨f, store', conf, block, first, ran, empty, _⟩ :=
      confParse_holds path false store called
    have kinds : textKinds text = textKinds text ++ [] := (List.append_nil _).symm
    have read := confLoop_holds env reading plain kinds ran ok (fun _ => rfl)
      (fun closed => absurd (block.symm.trans closed) nofun) (conf.symm ▸ empty)
    rw [List.nil_append, conf] at read
    rw [first]
    exact (read.holding.storedAll level).agrees

/-- The text is `b 1`, the block `a {`, `b 2`, `}`, and then `b 3`. -/
theorem conf_tree_is_reading_nested :
    ∃ t out, confParse .bare (confLoop .bare 19) none []
        [98, 32, 49, 10, 97, 32, 123, 10, 98, 32, 50, 10, 125, 10, 98, 32, 51, 10] false .init =
          some (t, out) ∧
      ∀ level, Agrees out.store level t
        [.value [98] [49], .block [97] [.value [98] [50]], .value [98] [51]] := by
  have lines : textLines
      [98, 32, 49, 10, 97, 32, 123, 10, 98, 32, 50, 10, 125, 10, 98, 32, 51, 10] =
      [[98, 32, 49], [97, 32, 123], [98, 32, 50], [125], [98, 32, 51]] := by decide
  have plain : PlainText
      [98, 32, 49, 10, 97, 32, 123, 10, 98, 32, 50, 10, 125, 10, 98, 32, 51, 10] := by
    refine plainText_of (by decide) (by decide) ?_
    rw [lines]
    simp only [List.forall_mem_cons]
    exact ⟨⟨by decide, [98], [[49]], by decide, by decide⟩,
      ⟨by decide, [97], [[123]], by decide, by decide⟩,
      ⟨by decide, [98], [[50]], by decide, by decide⟩,
      ⟨by decide, [125], [], by decide, by decide⟩,
      ⟨by decide, [98], [[51]], by decide, by decide⟩, nofun⟩
  have reading : ConfText
      (textKinds [98, 32, 49, 10, 97, 32, 123, 10, 98, 32, 50, 10, 125, 10, 98, 32, 51, 10])
      [.value [98] [49], .block [97] [.value [98] [50]], .value [98] [51]] := by
    have kinds : textKinds
        [98, 32, 49, 10, 97, 32, 123, 10, 98, 32, 50, 10, 125, 10, 98, 32, 51, 10] =
        .pair [98] [49] :: .pair [97] [123] :: ([.pair [98] [50]] ++ .close ::
          [.pair [98] [51]]) := by decide
    rw [kinds]
    exact .value (by decide) (.block (.value (by decide) .nil) (.value (by decide) .nil))
  have enough : ([98, 32, 49, 10, 97, 32, 123, 10, 98, 32, 50, 10, 125, 10, 98, 32, 51, 10] :
      List UInt8).length < 19 := by decide
  obtain ⟨t, out, called, tree⟩ :=
    conf_tree_is_reading .bare plain (by decide) enough [] .init
  have accepted : (confParse .bare (confLoop .bare 19) none []
      [98, 32, 49, 10, 97, 32, 123, 10, 98, 32, 50, 10, 125, 10, 98, 32, 51, 10] false
      .init).map (·.2.ret) = some .ok := rfl
  rw [called] at accepted
  exact ⟨t, out, called, (tree (Option.some.inj accepted)).2 _ reading⟩

end Verben
