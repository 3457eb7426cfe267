import Mathlib.Data.List.Basic
import Mathlib.Tactic.Common

/-!
# One allocation

The bytes of a block of memory from an allocator, `none` where nothing was stored
yet. An access that leaves the block has no result, so a function that returns
made no such access.

`Region.Starts r bs` says that the block begins with the bytes `bs`; the rules
below follow it through stores at its end, moves to the front and a resize.
`Region.Has r off bs` says that the bytes are at an offset: a resize and a store
beside them keep them there.
-/

/-- The bytes of an allocation, by offset. -/
abbrev Region := List (Option UInt8)

namespace Region

/-- Store bytes from an offset on. -/
def store (r : Region) (off : Int) (bs : List UInt8) : Option Region :=
  if 0 ≤ off ∧ off + bs.length ≤ r.length then
    some (r.take off.toNat ++ bs.map some ++ r.drop (off.toNat + bs.length))
  else
    none

/-- The `n` bytes from an offset on; a byte that was never stored has no value. -/
def load (r : Region) (off n : Int) : Option (List UInt8) :=
  if 0 ≤ off ∧ 0 ≤ n ∧ off + n ≤ r.length then
    ((r.drop off.toNat).take n.toNat).mapM id
  else
    none

/-- The byte at an offset; it has no value where nothing was stored. -/
def byte (r : Region) (off : Int) : Option UInt8 :=
  if 0 ≤ off then (r[off.toNat]?).bind id else none

/-- Move the `n` bytes at `src` to `dst`; the ranges may overlap. -/
def move (r : Region) (dst src n : Int) : Option Region :=
  if 0 ≤ src ∧ 0 ≤ n ∧ src + n ≤ r.length ∧ 0 ≤ dst ∧ dst + n ≤ r.length then
    some (r.take dst.toNat ++ (r.drop src.toNat).take n.toNat ++ r.drop (dst + n).toNat)
  else
    none

/-- Reallocate: the bytes up to the smaller size stay. -/
def resize (r : Region) (n : Nat) : Region := r.take n ++ List.replicate (n - r.length) none

@[simp] theorem length_resize (r : Region) (n : Nat) : (r.resize n).length = n := by
  unfold resize
  rw [List.length_append, List.length_take, List.length_replicate]
  omega

/-- A store leaves the size of the block. -/
theorem length_store {r r' : Region} {off : Int} {bs : List UInt8}
    (stored : r.store off bs = some r') : r'.length = r.length := by
  unfold store at stored
  split at stored
  · cases stored
    simp only [List.length_append, List.length_take, List.length_map, List.length_drop]
    omega
  · cases stored

/-- The block begins with these bytes. -/
def Starts (r : Region) (bs : List UInt8) : Prop := bs.map some <+: r

variable {r : Region} {bs cs : List UInt8}

theorem Starts.length_le (starts : r.Starts bs) : bs.length ≤ r.length := by
  have := List.IsPrefix.length_le starts
  rwa [List.length_map] at this

theorem Starts.of_append (starts : r.Starts (bs ++ cs)) : r.Starts bs := by
  unfold Starts at starts ⊢
  rw [List.map_append] at starts
  exact (List.prefix_append _ _).trans starts

/-- What is read back from the front of the block. -/
theorem Starts.take_eq (starts : r.Starts bs) : r.take bs.length = bs.map some := by
  have := List.prefix_iff_eq_take.mp starts
  rw [List.length_map] at this
  exact this.symm

theorem mapM_id_map_some (bs : List UInt8) : (bs.map some).mapM id = some bs := by
  induction bs with
  | nil => rfl
  | cons b bs ih =>
      rw [List.map_cons, List.mapM_cons, ih]
      rfl

/-- A load from the front reads the prefix. -/
theorem Starts.load (starts : r.Starts (bs ++ cs)) : r.load 0 bs.length = some bs := by
  have fits := starts.of_append.length_le
  unfold Region.load
  rw [if_pos (by omega), Int.toNat_natCast, Int.toNat_zero, List.drop_zero,
    starts.of_append.take_eq]
  exact mapM_id_map_some bs

/-- A load of a whole prefix. -/
theorem Starts.load_all (starts : r.Starts bs) : r.load 0 bs.length = some bs := by
  have starts' : r.Starts (bs ++ []) := by rwa [List.append_nil]
  exact starts'.load

theorem Starts.byte {b : UInt8} (starts : r.Starts (bs ++ b :: cs)) :
    r.byte bs.length = some b := by
  rcases starts with ⟨rest, split⟩
  unfold Region.byte
  rw [if_pos (by omega), Int.toNat_natCast, ← split]
  simp

/-- A store behind a prefix extends it. -/
theorem Starts.store (starts : r.Starts bs) (room : bs.length + cs.length ≤ r.length) :
    ∃ r', r.store bs.length cs = some r' ∧ r'.length = r.length ∧ r'.Starts (bs ++ cs) := by
  have inside : 0 ≤ (bs.length : Int) ∧ (bs.length : Int) + cs.length ≤ r.length := by omega
  have stored : r.store bs.length cs =
      some (r.take bs.length ++ cs.map some ++ r.drop (bs.length + cs.length)) := if_pos inside
  refine ⟨_, stored, length_store stored, ?_⟩
  unfold Starts
  rw [starts.take_eq, List.map_append]
  exact List.prefix_append _ _

/-- Moving the rest of a prefix to the front drops what was before it. -/
theorem Starts.move (starts : r.Starts (bs ++ cs)) :
    ∃ r', r.move 0 bs.length cs.length = some r' ∧ r'.length = r.length ∧ r'.Starts cs := by
  have fits := starts.length_le
  rw [List.length_append] at fits
  have inside : 0 ≤ (bs.length : Int) ∧ 0 ≤ (cs.length : Int) ∧
      (bs.length : Int) + cs.length ≤ r.length ∧ 0 ≤ (0 : Int) ∧
      0 + (cs.length : Int) ≤ r.length := by omega
  have source : (r.drop bs.length).take cs.length = cs.map some := by
    rcases starts with ⟨rest, split⟩
    rw [← split, List.map_append, List.append_assoc,
      List.drop_left' (List.length_map some), List.take_left' (List.length_map some)]
  refine ⟨_, if_pos inside, ?_, ?_⟩
  · simp only [List.length_append, List.length_take, List.length_drop]
    omega
  · unfold Starts
    rw [Int.toNat_natCast, Int.toNat_natCast, source]
    exact List.prefix_append _ _

/-- A resize that keeps room for a prefix keeps it. -/
theorem Starts.resize (starts : r.Starts bs) {n : Nat} (room : bs.length ≤ n) :
    (r.resize n).Starts bs := by
  have kept : bs.map some <+: r.take n :=
    List.prefix_take_iff.mpr ⟨starts, by rwa [List.length_map]⟩
  exact kept.trans (List.prefix_append _ _)

/-- The block has these bytes at an offset. -/
structure Has (r : Region) (off : Nat) (bs : List UInt8) : Prop where
  inside : off + bs.length ≤ r.length
  here : bs.map some <+: r.drop off

variable {r' : Region} {off off' : Nat}

theorem Has.load (has : r.Has off bs) : r.load off bs.length = some bs := by
  have inside := has.inside
  have front : (r.drop off).take bs.length = bs.map some := by
    have := List.prefix_iff_eq_take.mp has.here
    rw [List.length_map] at this
    exact this.symm
  unfold Region.load
  rw [if_pos ⟨by omega, by omega, by omega⟩, Int.toNat_natCast, Int.toNat_natCast, front]
  exact mapM_id_map_some bs

/-- Bytes in front of a cut are still there. -/
theorem prefix_drop_take {n : Nat} (here : bs.map some <+: r.drop off)
    (room : off + bs.length ≤ n) (rest : Region) (inside : off + bs.length ≤ r.length) :
    bs.map some <+: (r.take n ++ rest).drop off := by
  have low : off ≤ (r.take n).length := by
    rw [List.length_take]
    omega
  have kept : bs.map some <+: (r.drop off).take (n - off) := by
    refine List.prefix_take_iff.mpr ⟨here, ?_⟩
    rw [List.length_map]
    omega
  rw [List.drop_append_of_le_length low, List.drop_take]
  exact kept.trans (List.prefix_append _ _)

theorem Has.resize (has : r.Has off bs) {n : Nat} (room : off + bs.length ≤ n) :
    (r.resize n).Has off bs :=
  ⟨by rwa [length_resize], prefix_drop_take has.here room _ has.inside⟩

/-- What a store leaves behind. -/
theorem store_spec (room : off + cs.length ≤ r.length) :
    ∃ r', r.store off cs = some r' ∧ r'.length = r.length ∧ r'.Has off cs ∧
      ∀ {off' : Nat} {bs : List UInt8}, r.Has off' bs →
        (off' + bs.length ≤ off ∨ off + cs.length ≤ off') → r'.Has off' bs := by
  have stored : r.store off cs =
      some (r.take off ++ cs.map some ++ r.drop (off + cs.length)) :=
    if_pos ⟨by omega, by omega⟩
  have length := length_store stored
  have front : (r.take off).length = off := by
    rw [List.length_take]
    omega
  refine ⟨_, stored, length, ⟨by rwa [length], ?_⟩, fun {off' bs} has apart => ?_⟩
  · rw [List.append_assoc, List.drop_left' front]
    exact List.prefix_append _ _
  · have inside := has.inside
    refine ⟨by rwa [length], ?_⟩
    rcases apart with before | behind
    · rw [List.append_assoc]
      exact prefix_drop_take has.here before _ inside
    · have both : (r.take off ++ cs.map some).length = off + cs.length := by
        rw [List.length_append, front, List.length_map]
      obtain ⟨gap, rfl⟩ := Nat.exists_eq_add_of_le behind
      rw [← List.drop_drop, List.drop_left' both, List.drop_drop]
      exact has.here

end Region
