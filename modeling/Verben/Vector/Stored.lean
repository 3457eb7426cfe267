import Mathlib.Tactic.Ring
import Verben.Lib.Transition
import Verben.Vector.Model

/-!
# What a vector stores

A call of `vector_set_at` or `vector_push` stores one element. It may resize the block several
times before, and each resize keeps the elements where they are, as long as the number of bytes
is not cut to 32 bits. So an element stays until the next store at its index
(`vector_keeps`). The loop of `vector_set_at` always ends: `vectorGrow_isSome`.
-/

namespace Verben

open Transition

/-- A block with room for all slots. -/
structure Vec.Sound (vec : Vec) : Prop where
  slots_pos : 0 < vec.slots
  slots_lt : vec.slots < 2 ^ 32
  fits : vec.slots * vec.size < 2 ^ 32
  block : vec.data.length = vec.slots * vec.size

/-- A vector with more slots, and the bytes of another one. -/
structure Vec.Grown (vec vec' : Vec) : Prop where
  sound : vec'.Sound
  count : vec'.count = vec.count
  size : vec'.size = vec.size
  slots : vec.slots ≤ vec'.slots
  keeps : ∀ {off : Nat} {bs : List UInt8}, vec.data.Has off bs → vec'.data.Has off bs

theorem Vec.Grown.refl {vec : Vec} (sound : vec.Sound) : vec.Grown vec :=
  ⟨sound, rfl, rfl, Nat.le_refl _, id⟩

theorem Vec.Grown.trans {vec vec' vec'' : Vec} (first : vec.Grown vec')
    (second : vec'.Grown vec'') : vec.Grown vec'' :=
  ⟨second.sound, second.count.trans first.count, second.size.trans first.size,
    Nat.le_trans first.slots second.slots, fun has => second.keeps (first.keeps has)⟩

/-- A resize that succeeds and asks for a number of bytes that is not cut to 32 bits. -/
def ResizeOk (realloc : Nat → Bool) (slots size : Nat) : Prop :=
  0 < slots * 2 * size ∧ slots * 2 * size < 2 ^ 32 ∧ realloc (slots * 2 * size) = true

/-- And so do all resizes in the loop of `vector_set_at`. -/
def GrowOk (realloc : Nat → Bool) (slots size index : Nat) : Prop :=
  ∀ k, slots * 2 ^ k ≤ index → ResizeOk realloc (slots * 2 ^ k) size

section Grow

variable {vec vec' : Vec} {realloc : Nat → Bool} {index : Nat}

theorem vectorResize_spec (sound : vec.Sound) (ok : ResizeOk realloc vec.slots vec.size) :
    ∃ vec', vectorResize vec realloc = (0, vec') ∧ vec.Grown vec' ∧
      vec'.slots = vec.slots * 2 := by
  obtain ⟨some', fits, succeeds⟩ := ok
  have bytes : vec.slots * 2 * vec.size % 2 ^ 32 = vec.slots * 2 * vec.size :=
    Nat.mod_eq_of_lt fits
  have size : 0 < vec.size := Nat.pos_of_mul_pos_left some'
  have slots_lt : vec.slots * 2 < 2 ^ 32 :=
    Nat.lt_of_le_of_lt (Nat.le_mul_of_pos_right _ size) fits
  have slots : vec.slots * 2 % 2 ^ 32 = vec.slots * 2 := Nat.mod_eq_of_lt slots_lt
  unfold vectorResize
  dsimp only
  rw [bytes, if_neg (by omega), if_pos succeeds, slots]
  refine ⟨_, rfl, ⟨⟨?_, slots_lt, fits, Region.length_resize _ _⟩, rfl, rfl, ?_,
    fun {off bs} has => ?_⟩, rfl⟩
  · exact Nat.mul_pos sound.slots_pos (by decide)
  · exact Nat.le_mul_of_pos_right _ (by decide)
  · have inside := has.inside
    have more : vec.slots * vec.size ≤ vec.slots * 2 * vec.size :=
      Nat.mul_le_mul_right _ (Nat.le_mul_of_pos_right _ (by decide))
    rw [sound.block] at inside
    exact has.resize (Nat.le_trans inside more)

/-- After a few doublings no bit of the number of slots is left, and a request for no bytes
fails. So the loop ends, whatever `realloc` returns. -/
theorem vectorGrow_isSome_of_dvd (rounds : Nat) (few : rounds ≤ 31)
    (doubled : 2 ^ (31 - rounds) ∣ vec.slots) :
    ∃ out, vectorGrow realloc index (rounds + 1) vec = some out := by
  induction rounds generalizing vec with
  | zero =>
      have empty : vec.slots * 2 * vec.size % 2 ^ 32 = 0 := by
        obtain ⟨m, slots⟩ := doubled
        rw [slots]
        exact Nat.mod_eq_zero_of_dvd ⟨m * vec.size, by ring⟩
      unfold vectorGrow
      split
      · exact ⟨_, rfl⟩
      · unfold vectorResize
        rw [empty]
        exact ⟨_, rfl⟩
  | succ rounds ih =>
      unfold vectorGrow
      split
      · exact ⟨_, rfl⟩
      · unfold vectorResize
        dsimp only
        split
        · rename_i resized
          split at resized
          · cases resized
          · split at resized
            · cases resized
              refine ih (by omega) ?_
              have power : 2 ^ (31 - rounds) = 2 * 2 ^ (31 - (rounds + 1)) := by
                rw [← Nat.pow_succ']
                congr 1
                omega
              refine (Nat.dvd_mod_iff (Nat.pow_dvd_pow 2 (by omega))).mpr ?_
              rw [power, Nat.mul_comm]
              exact Nat.mul_dvd_mul doubled (Nat.dvd_refl 2)
            · cases resized
        · exact ⟨_, rfl⟩

theorem vectorGrow_isSome (vec : Vec) (realloc : Nat → Bool) (index : Nat) :
    ∃ out, vectorGrow realloc index growRounds vec = some out :=
  vectorGrow_isSome_of_dvd 31 (Nat.le_refl 31) (Nat.one_dvd _)

/-- When it has ended, there is a slot for the index. -/
theorem vectorGrow_spec {rounds : Nat} {ret : Int} (sound : vec.Sound)
    (ok : GrowOk realloc vec.slots vec.size index)
    (ran : vectorGrow realloc index rounds vec = some (ret, vec')) :
    ret = 0 ∧ index < vec'.slots ∧ vec.Grown vec' := by
  induction rounds generalizing vec with
  | zero => cases ran
  | succ rounds ih =>
      unfold vectorGrow at ran
      split at ran
      · rename_i less
        cases ran
        exact ⟨rfl, less, .refl sound⟩
      · rename_i full
        have first := ok 0 (by rw [Nat.pow_zero, Nat.mul_one]; exact Nat.le_of_not_lt full)
        rw [Nat.pow_zero, Nat.mul_one] at first
        obtain ⟨vec₁, resized, grown, slots⟩ := vectorResize_spec sound first
        rw [resized] at ran
        have ok' : GrowOk realloc vec₁.slots vec₁.size index := by
          intro k le
          rw [slots, Nat.mul_assoc, ← Nat.pow_succ'] at le ⊢
          rw [grown.size]
          exact ok (k + 1) le
        obtain ⟨zero, less, grown'⟩ := ih grown.sound ok' ran
        exact ⟨zero, less, grown.trans grown'⟩

end Grow

/-! ## Calls -/

/-- The calls that store, with the data at the pointer, and the sizes for which `realloc`
succeeds. -/
inductive VecCall : Type
  | push (data : List UInt8) (realloc : Nat → Bool)
  | setAt (index : Nat) (data : List UInt8) (realloc : Nat → Bool)

/-- The index where a call stores. -/
def VecCall.index (vec : Vec) : VecCall → Nat
  | .push _ _ => vec.count
  | .setAt index _ _ => index

def VecCall.data : VecCall → List UInt8
  | .push data _ => data
  | .setAt _ data _ => data

def VecCall.call (vec : Vec) : VecCall → Option (Int × Vec)
  | .push data realloc => vectorPush vec data realloc
  | .setAt index data realloc => vectorSetAt vec index data realloc

/-- The data are as long as an element, `realloc` succeeds whenever it is called, and the number
of bytes is not cut to 32 bits. -/
def VecCall.Fits (vec : Vec) : VecCall → Prop
  | .push data realloc =>
      vec.size ≤ data.length ∧
        if vec.count = unsignedPred vec.slots then
          ResizeOk realloc vec.slots vec.size ∧
            GrowOk realloc (vec.slots * 2) vec.size vec.count
        else GrowOk realloc vec.slots vec.size vec.count
  | .setAt index data realloc =>
      vec.size ≤ data.length ∧ GrowOk realloc vec.slots vec.size index

/-- A vector with the element at an index stored. -/
structure Vec.StoredAt (vec vec' : Vec) (index : Nat) (element : List UInt8) : Prop where
  sound : vec'.Sound
  count : vec'.count = (vec.count + 1) % 2 ^ 32
  size : vec'.size = vec.size
  slots : vec.slots ≤ vec'.slots
  inside : index < vec'.slots
  here : vec'.data.Has (index * vec.size) element
  others : ∀ {i : Nat} {bs : List UInt8}, i ≠ index → bs.length = vec.size →
    vec.data.Has (i * vec.size) bs → vec'.data.Has (i * vec.size) bs

section Calls

variable {vec : Vec} {realloc : Nat → Bool} {index : Nat} {data : List UInt8}

/-- Two elements are apart. -/
theorem apart_of_ne {i j size : Nat} (ne : i ≠ j) :
    i * size + size ≤ j * size ∨ j * size + size ≤ i * size := by
  rcases Nat.lt_or_gt_of_ne ne with less | greater
  · left
    rw [← Nat.succ_mul]
    exact Nat.mul_le_mul_right size less
  · right
    rw [← Nat.succ_mul]
    exact Nat.mul_le_mul_right size greater

theorem vectorSetAt_spec (sound : vec.Sound) (long : vec.size ≤ data.length)
    (ok : GrowOk realloc vec.slots vec.size index) :
    ∃ vec', vectorSetAt vec index data realloc = some (0, vec') ∧
      vec.StoredAt vec' index (data.take vec.size) := by
  obtain ⟨⟨ret, vec₁⟩, grew⟩ := vectorGrow_isSome vec realloc index
  obtain ⟨rfl, inside, grown⟩ := vectorGrow_spec sound ok grew
  have length : (data.take vec₁.size).length = vec₁.size := by
    rw [grown.size]
    exact List.length_take_of_le long
  have room : index * vec₁.size + vec₁.size ≤ vec₁.slots * vec₁.size := by
    rw [← Nat.succ_mul]
    exact Nat.mul_le_mul_right _ inside
  have off : index * vec₁.size % 2 ^ 32 = index * vec₁.size := by
    have fits := grown.sound.fits
    apply Nat.mod_eq_of_lt
    by_cases empty : vec₁.size = 0
    · rw [empty, Nat.mul_zero]
      decide
    · omega
  have room' : index * vec₁.size + (data.take vec₁.size).length ≤ vec₁.data.length := by
    rw [length, grown.sound.block]
    exact room
  obtain ⟨stored, ran, block, here, others⟩ := Region.store_spec room'
  refine ⟨{ vec₁ with data := stored, count := (vec₁.count + 1) % 2 ^ 32 }, ?_, ?_⟩
  · unfold vectorSetAt
    rw [grew, Option.bind_eq_bind, Option.bind_some]
    dsimp only
    rw [if_neg (by decide), if_neg (by rw [grown.size]; omega), off, ran]
    rfl
  · refine ⟨⟨grown.sound.slots_pos, grown.sound.slots_lt, grown.sound.fits,
      block.trans grown.sound.block⟩, ?_, grown.size, grown.slots, inside, ?_,
      fun {i bs} ne length' has => ?_⟩
    · dsimp only
      rw [grown.count]
    · rw [← grown.size]
      exact here
    · refine others (grown.keeps has) ?_
      rw [length', length, grown.size]
      exact apart_of_ne ne

/-- A call that fits returns 0, and stores one element. -/
theorem VecCall.call_spec (c : VecCall) (sound : vec.Sound) (fits : c.Fits vec) :
    ∃ vec', c.call vec = some (0, vec') ∧
      vec.StoredAt vec' (c.index vec) (c.data.take vec.size) := by
  cases c with
  | setAt index data realloc => exact vectorSetAt_spec sound fits.1 fits.2
  | push data realloc =>
      obtain ⟨long, grows⟩ := fits
      unfold call vectorPush index
      dsimp only
      by_cases full : vec.count = unsignedPred vec.slots
      case neg =>
        rw [if_neg full] at grows ⊢
        exact vectorSetAt_spec sound long grows
      case pos =>
        rw [if_pos full] at grows ⊢
        obtain ⟨ok, grows⟩ := grows
        obtain ⟨vec₁, resized, grown, slots⟩ := vectorResize_spec sound ok
        rw [resized]
        rw [← slots, ← grown.size, ← grown.count] at grows
        obtain ⟨vec', ran, stored⟩ :=
          vectorSetAt_spec grown.sound (by rw [grown.size]; exact long) grows
        refine ⟨vec', ran, ?_⟩
        rw [grown.count, grown.size] at stored
        exact ⟨stored.sound, by rw [stored.count, grown.count], stored.size.trans grown.size,
          Nat.le_trans grown.slots stored.slots, stored.inside, grown.size ▸ stored.here,
          fun {i bs} ne length has => by
            have kept := stored.others ne (length.trans grown.size.symm)
            rw [grown.size] at kept
            exact kept (grown.keeps has)⟩

end Calls

/-! ## Whole runs -/

/-- A vector, and for each index the data stored last. -/
structure VecRun : Type where
  vec : Vec
  stored : Nat → Option (List UInt8)

def VecRun.step (r : VecRun) (c : VecCall) : Option VecRun :=
  (c.call r.vec).map fun (ret, vec) =>
    ⟨vec, if ret = 0 then
        Function.update r.stored (c.index r.vec) (some (c.data.take r.vec.size))
      else r.stored⟩

/-- Calls that fit, in a run. -/
def FitsIn (r : VecRun) (c : VecCall) : Prop := c.Fits r.vec

/-- The number of slots that a new vector has. -/
def newSlots (slots : Nat) : Nat := if slots = 0 then 16 else slots

/-- The run of a new vector. -/
def newRun (vec : Vec) : VecRun := ⟨vec, fun _ => none⟩

/-- The block holds the data stored last at each index. -/
structure VecRun.Right (r : VecRun) : Prop where
  sound : r.vec.Sound
  holds : ∀ {index : Nat} {data : List UInt8}, r.stored index = some data →
    index < r.vec.slots ∧ data.length = r.vec.size ∧ r.vec.data.Has (index * r.vec.size) data

section Runs

variable {slots size : Nat} {vec : Vec} {r : VecRun}

theorem vectorNew_spec (typed : slots < 2 ^ 32)
    (new : vectorNew slots size true true = some vec) (fits : newSlots slots * size < 2 ^ 32) :
    (newRun vec).Right ∧ vec.count = 0 ∧ vec.slots = newSlots slots ∧ vec.size = size := by
  cases new
  refine ⟨⟨⟨?_, ?_, fits, ?_⟩, fun stored => nomatch stored⟩, rfl, rfl, rfl⟩
  · unfold newRun
    dsimp only
    split
    · decide
    · omega
  · unfold newRun
    dsimp only
    split
    · decide
    · exact typed
  · unfold newRun newSlots at *
    rw [List.length_replicate, Nat.mod_eq_of_lt fits]

/-- A step by a call that fits stores its data, and keeps all others. -/
theorem VecRun.Right.step_spec (right : r.Right) (c : VecCall) (fits : FitsIn r c) :
    ∃ r', r.step c = some r' ∧ r'.Right ∧ r'.vec.count = (r.vec.count + 1) % 2 ^ 32 ∧
      r'.vec.size = r.vec.size ∧ c.index r.vec < r'.vec.slots ∧
      r'.stored =
        Function.update r.stored (c.index r.vec) (some (c.data.take r.vec.size)) := by
  obtain ⟨vec, ran, stored⟩ := c.call_spec right.sound fits
  have long : r.vec.size ≤ c.data.length := by
    cases c with
    | push => exact fits.1
    | setAt => exact fits.1
  refine ⟨_, by unfold step; rw [ran]; rfl, ⟨stored.sound, fun {index data} last => ?_⟩,
    stored.count, stored.size, stored.inside, rfl⟩
  dsimp only at last ⊢
  rw [if_pos rfl] at last
  rw [stored.size]
  by_cases here : index = c.index r.vec
  case pos =>
    subst here
    rw [Function.update_self, Option.some_inj] at last
    subst last
    exact ⟨stored.inside, List.length_take_of_le long, stored.here⟩
  case neg =>
    rw [Function.update_of_ne here] at last
    obtain ⟨inside, length, has⟩ := right.holds last
    exact ⟨Nat.lt_of_lt_of_le inside stored.slots, length, stored.others here length has⟩

/-- What is read at an index is the data stored last. -/
theorem VecRun.Right.element (right : r.Right) {index : Nat} {data : List UInt8}
    (last : r.stored index = some data) :
    vectorGetAt r.vec index = some (index * r.vec.size) ∧
      r.vec.element (index * r.vec.size) = some data := by
  obtain ⟨inside, length, has⟩ := right.holds last
  have fits := right.sound.fits
  have off : index * r.vec.size % 2 ^ 32 = index * r.vec.size :=
    Nat.mod_eq_of_lt
      (Nat.lt_of_le_of_lt (Nat.mul_le_mul_right _ (Nat.le_of_lt inside)) fits)
  constructor
  · unfold vectorGetAt
    rw [if_neg (by omega), off]
  · unfold Vec.element
    rw [← length]
    rw [← length] at has
    exact has.load

end Runs

/-- **A vector keeps what is stored.** In every state of every run from a new vector, as long as
`realloc` succeeds and no number of bytes is cut to 32 bits: `vector_get_at` returns the data
stored last at each index. And every call returns, without an error. -/
theorem vector_keeps {slots size : Nat} {vec : Vec} (typed : slots < 2 ^ 32)
    (new : vectorNew slots size true true = some vec) (fits : newSlots slots * size < 2 ^ 32)
    {r : VecRun} (reach : Reach VecRun.step FitsIn (newRun vec) r) :
    (∀ index data, r.stored index = some data →
      ∃ off, vectorGetAt r.vec index = some off ∧ r.vec.element off = some data) ∧
    ∀ c : VecCall, FitsIn r c → ∃ vec', c.call r.vec = some (0, vec') := by
  have right : r.Right := by
    apply reach.invariant (vectorNew_spec typed new fits).1
    intro r c r' right fits stepped
    obtain ⟨r₁, ran, right', -⟩ := right.step_spec c fits
    cases stepped.symm.trans ran
    exact right'
  constructor
  · intro index data last
    exact ⟨_, right.element last⟩
  · intro c fits
    obtain ⟨vec', ran, -⟩ := c.call_spec right.sound fits
    exact ⟨vec', ran⟩

/-! ## Small vectors -/

/-- Allocations that succeed. -/
def plenty : Nat → Bool := fun _ => true

section Plenty

variable {r : VecRun} {data : List UInt8}

/-- If an index is small enough, no resize on the way to it is cut. -/
theorem growOk_plenty {slots size index : Nat} (slots_pos : 0 < slots) (size_pos : 0 < size)
    (small : index * 2 * size < 2 ^ 32) : GrowOk plenty slots size index := by
  intro k le
  refine ⟨?_, Nat.lt_of_le_of_lt ?_ small, rfl⟩
  · exact Nat.mul_pos (Nat.mul_pos (Nat.mul_pos slots_pos (Nat.two_pow_pos k)) (by decide)) size_pos
  · exact Nat.mul_le_mul_right _ (Nat.mul_le_mul_right _ le)

theorem VecRun.Right.fitsIn_setAt (right : r.Right) {index : Nat} (size_pos : 0 < r.vec.size)
    (long : r.vec.size ≤ data.length) (small : index * 2 * r.vec.size < 2 ^ 32) :
    FitsIn r (.setAt index data plenty) :=
  ⟨long, growOk_plenty right.sound.slots_pos size_pos small⟩

theorem VecRun.Right.fitsIn_push (right : r.Right) (size_pos : 0 < r.vec.size)
    (long : r.vec.size ≤ data.length) (small : (r.vec.count + 1) * 2 * r.vec.size < 2 ^ 32) :
    FitsIn r (.push data plenty) := by
  have slots_pos := right.sound.slots_pos
  have less : r.vec.count * 2 * r.vec.size < 2 ^ 32 :=
    Nat.lt_of_le_of_lt (Nat.mul_le_mul_right _ (by omega)) small
  refine ⟨long, ?_⟩
  split
  · rename_i full
    rw [unsignedPred_of_pos slots_pos] at full
    rw [show r.vec.count + 1 = r.vec.slots by omega] at small
    refine ⟨⟨Nat.mul_pos (by omega) size_pos, small, rfl⟩, ?_⟩
    exact growOk_plenty (by omega) size_pos less
  · exact growOk_plenty slots_pos size_pos less

end Plenty

/-- A new vector with two slots for a byte. -/
def bytes : Vec := ⟨0, 2, 1, [some 0, some 0]⟩

theorem bytes_new : vectorNew 2 1 true true = some bytes := by decide

theorem bytes_right : (newRun bytes).Right :=
  (vectorNew_spec (by decide) bytes_new (by decide)).1

theorem bytes_push : FitsIn (newRun bytes) (.push [7] plenty) :=
  bytes_right.fitsIn_push (by decide) (by decide) (by decide)

/-- The first store. -/
theorem bytes_step {c : VecCall} (fits : FitsIn (newRun bytes) c) :
    ∃ r, (newRun bytes).step c = some r ∧ r.Right ∧ r.vec.count = 1 ∧ r.vec.size = 1 ∧
      r.stored = Function.update (fun _ => none) (c.index bytes) (some (c.data.take 1)) := by
  obtain ⟨r, step, right, count, size, -, stored⟩ := bytes_right.step_spec c fits
  exact ⟨r, step, right, count, size, stored⟩

/-- A store far behind the slots, an append, and a store over the first one. -/
theorem vector_keeps_sparse : ∃ r, Reach VecRun.step FitsIn (newRun bytes) r ∧
    (∃ off, vectorGetAt r.vec 5 = some off ∧ r.vec.element off = some [8]) ∧
    ∃ off, vectorGetAt r.vec 1 = some off ∧ r.vec.element off = some [9] := by
  have fits₁ : FitsIn (newRun bytes) (.setAt 5 [7] plenty) :=
    bytes_right.fitsIn_setAt (by decide) (by decide) (by decide)
  obtain ⟨r₁, step₁, right₁, count₁, size₁, stored₁⟩ := bytes_step fits₁
  have fits₂ : FitsIn r₁ (.push [9] plenty) :=
    right₁.fitsIn_push (by omega) (by rw [size₁]; decide) (by rw [count₁, size₁]; decide)
  obtain ⟨r₂, step₂, right₂, -, size₂, -, stored₂⟩ := right₁.step_spec _ fits₂
  rw [size₁] at size₂
  have fits₃ : FitsIn r₂ (.setAt 5 [8] plenty) :=
    right₂.fitsIn_setAt (by omega) (by rw [size₂]; decide) (by rw [size₂]; decide)
  obtain ⟨r₃, step₃, -, -, -, -, stored₃⟩ := right₂.step_spec _ fits₃
  have reach : Reach VecRun.step FitsIn (newRun bytes) r₃ :=
    .tail (.tail (.single ⟨_, fits₁, step₁⟩) ⟨_, fits₂, step₂⟩) ⟨_, fits₃, step₃⟩
  have keeps := (vector_keeps (by decide) bytes_new (by decide) reach).1
  have fifth : r₃.stored 5 = some [8] := by
    rw [stored₃, size₂]
    rfl
  have first : r₃.stored 1 = some [9] := by
    have apart : (1 : Nat) ≠ VecCall.index r₂.vec (.setAt 5 [8] plenty) := by
      change 1 ≠ 5
      decide
    have here : VecCall.index r₁.vec (.push [9] plenty) = 1 := count₁
    rw [stored₃, Function.update_of_ne apart, stored₂, here, Function.update_self, size₁]
    rfl
  exact ⟨r₃, reach, keeps 5 _ fifth, keeps 1 _ first⟩

end Verben
