import Mathlib.Logic.Function.Basic
import Mathlib.Tactic.Common

/-!
# Files and their names

A directory gives names to files, a descriptor is open on a file, and what is written
through a descriptor goes to the end of its file. A file has one name at most. `rename` gives
a file another name, and the file that had this name until then has none any more: what was
in it is kept in `replaced`, the oldest such file first. Only the reader of a proof sees this
list; no operation depends on it.

What an operation does is said by `content`, which is what a name stands for, and by `Opens`,
which says that a descriptor is open on the file of a name.
-/

/-- Files, to which items of type `L` are written. -/
structure Files (N L : Type*) where
  dir : N → Option Nat
  data : Nat → List L
  next : Nat
  opened : Int → Option Nat
  replaced : List (List L)
  below : ∀ a f, dir a = some f → f < next
  single : ∀ a b f, dir a = some f → dir b = some f → a = b

namespace Files

variable {N L : Type*}

/-- There are no files. -/
def empty : Files N L where
  dir := fun _ => none
  data := fun _ => []
  next := 0
  opened := fun _ => none
  replaced := []
  below := by
    intro _ _ named
    cases named
  single := by
    intro _ _ _ named
    cases named

/-- What is in the file of a name. -/
def content (fs : Files N L) (a : N) : Option (List L) := (fs.dir a).map fs.data

/-- Is there a file of this name? -/
def access (fs : Files N L) (a : N) : Bool := (fs.dir a).isSome

/-- What is in the file of a descriptor. -/
def stat (fs : Files N L) (fd : Int) : Option (List L) := (fs.opened fd).map fs.data

def close (fs : Files N L) (fd : Int) : Files N L :=
  { fs with opened := Function.update fs.opened fd none }

/-- Write an item to the end of the file of a descriptor. -/
def append (fs : Files N L) (fd : Int) (l : L) : Files N L :=
  match fs.opened fd with
  | some f => { fs with data := Function.update fs.data f (fs.data f ++ [l]) }
  | none => fs

/-- The descriptor is open on the file of the name. -/
def Opens (fs : Files N L) (fd : Int) (a : N) : Prop :=
  ∃ f, fs.opened fd = some f ∧ fs.dir a = some f

section Descriptors

variable {fs : Files N L} {a c : N} {fd : Int} {l : L}

theorem access_eq (fs : Files N L) (a : N) : fs.access a = (fs.content a).isSome := by
  unfold access content
  rw [Option.isSome_map]

theorem Opens.stat_eq (opens : fs.Opens fd a) : fs.stat fd = fs.content a := by
  obtain ⟨f, opened, named⟩ := opens
  unfold stat content
  rw [opened, named]

theorem content_append_self (opens : fs.Opens fd a) :
    (fs.append fd l).content a = (fs.content a).map (· ++ [l]) := by
  obtain ⟨f, opened, named⟩ := opens
  unfold append content
  rw [opened]
  dsimp only
  rw [named, Option.map_some, Function.update_self, Option.map_some, Option.map_some]

theorem content_append_of_ne (opens : fs.Opens fd a) (other : c ≠ a) :
    (fs.append fd l).content c = fs.content c := by
  obtain ⟨f, opened, named⟩ := opens
  unfold append content
  rw [opened]
  dsimp only
  cases named' : fs.dir c with
  | none => rfl
  | some g =>
      have apart : g ≠ f := by
        rintro rfl
        exact other (fs.single c a g named' named)
      rw [Option.map_some, Option.map_some, Function.update_of_ne apart]

theorem Opens.append {fd' : Int} (opens : fs.Opens fd a) : (fs.append fd' l).Opens fd a := by
  obtain ⟨f, opened, named⟩ := opens
  unfold Files.append
  split
  · exact ⟨f, opened, named⟩
  · exact ⟨f, opened, named⟩

/-- Another descriptor is closed. -/
theorem Opens.close {fd' : Int} (opens : fs.Opens fd a) (other : fd ≠ fd') :
    (fs.close fd').Opens fd a := by
  obtain ⟨f, opened, named⟩ := opens
  exact ⟨f, (Function.update_of_ne other ..).trans opened, named⟩

@[simp] theorem replaced_append : (fs.append fd l).replaced = fs.replaced := by
  unfold append
  split
  · rfl
  · rfl

end Descriptors

section Operations

variable [DecidableEq N] {dir : N → Option Nat} {a b c : N} {f : Nat}

/-- A name that is given to a file without a name leaves every file with one name at most. -/
theorem single_update (single : ∀ c d g, dir c = some g → dir d = some g → c = d)
    (nameless : ∀ c, c ≠ b → dir c ≠ some f) (c d : N) (g : Nat)
    (first : Function.update dir b (some f) c = some g)
    (second : Function.update dir b (some f) d = some g) : c = d := by
  by_cases isC : c = b
  case pos =>
    subst isC
    rw [Function.update_self] at first
    cases first
    by_contra other
    rw [Function.update_of_ne (Ne.symm other)] at second
    exact nameless d (Ne.symm other) second
  case neg =>
    rw [Function.update_of_ne isC] at first
    by_cases isD : d = b
    case pos =>
      subst isD
      rw [Function.update_self] at second
      cases second
      exact absurd first (nameless c isC)
    case neg =>
      rw [Function.update_of_ne isD] at second
      exact single c d g first second

/-- A name that was taken away stands for no file, and the others stand for what they did. -/
theorem of_update_none (named : Function.update dir a none c = some f) :
    c ≠ a ∧ dir c = some f := by
  by_cases same : c = a
  case pos =>
    subst same
    rw [Function.update_self] at named
    cases named
  case neg =>
    rw [Function.update_of_ne same] at named
    exact ⟨same, named⟩

theorem below_update {n : Nat} (below : ∀ c g, dir c = some g → g < n) (low : f < n) (c : N)
    (g : Nat) (named : Function.update dir b (some f) c = some g) : g < n := by
  by_cases same : c = b
  case pos =>
    subst same
    rw [Function.update_self] at named
    cases named
    exact low
  case neg =>
    rw [Function.update_of_ne same] at named
    exact below c g named

/-- A new file gets the name `a`. -/
def create (fs : Files N L) (a : N) : Files N L where
  dir := Function.update fs.dir a (some fs.next)
  data := Function.update fs.data fs.next []
  next := fs.next + 1
  opened := fs.opened
  replaced := fs.replaced
  below := below_update (fun c g named => Nat.lt_succ_of_lt (fs.below c g named))
    (Nat.lt_succ_self _)
  single := single_update fs.single fun c _ named =>
    Nat.lt_irrefl _ (fs.below c _ named)

/-- Open the file of a name, which is made if there is none, with this descriptor. -/
def openAt (fs : Files N L) (a : N) (fd : Int) : Files N L :=
  match fs.dir a with
  | some f => { fs with opened := Function.update fs.opened fd (some f) }
  | none => { fs.create a with opened := Function.update fs.opened fd (some fs.next) }

/-- The file `f` gets the name `b` in place of its name `a`. -/
def move (fs : Files N L) (a b : N) (f : Nat) (named : fs.dir a = some f) : Files N L where
  dir := Function.update (Function.update fs.dir a none) b (some f)
  data := fs.data
  next := fs.next
  opened := fs.opened
  replaced := if a = b then fs.replaced else fs.replaced ++ (fs.content b).toList
  below := below_update (fun c g named' => fs.below c g (of_update_none named').2)
    (fs.below a f named)
  single := single_update
    (fun c d g first second =>
      fs.single c d g (of_update_none first).2 (of_update_none second).2)
    fun c _ named' =>
      (of_update_none named').1 (fs.single c a f (of_update_none named').2 named)

/-- Give the file of the name `a` the name `b`; there is no result without such a file. -/
def rename (fs : Files N L) (a b : N) : Option (Files N L) :=
  match named : fs.dir a with
  | some f => some (fs.move a b f named)
  | none => none

end Operations

section Rules

variable [DecidableEq N] {fs fs' : Files N L} {a b c : N} {fd : Int}

/-- A new file is empty, and the others stay as they are. -/
theorem content_create_of_ne (other : c ≠ a) : (fs.create a).content c = fs.content c := by
  unfold content create
  dsimp only
  rw [Function.update_of_ne other]
  cases named : fs.dir c with
  | none => rfl
  | some f =>
      have old : f ≠ fs.next := Nat.ne_of_lt (fs.below c f named)
      rw [Option.map_some, Option.map_some, Function.update_of_ne old]

theorem content_create_self : (fs.create a).content a = some [] := by
  unfold content create
  dsimp only
  rw [Function.update_self, Option.map_some, Function.update_self]

/-- The file that is opened is there, and empty if it was not there before. -/
theorem content_openAt_self :
    (fs.openAt a fd).content a = some ((fs.content a).getD []) := by
  unfold openAt
  split
  · next f named =>
      unfold content
      rw [named]
      rfl
  · next unnamed =>
      have none' : fs.content a = none := by
        unfold content
        rw [unnamed]
        rfl
      rw [none', Option.getD_none]
      exact content_create_self

theorem content_openAt_of_ne (other : c ≠ a) : (fs.openAt a fd).content c = fs.content c := by
  unfold openAt
  split
  · rfl
  · exact content_create_of_ne other

theorem opens_openAt : (fs.openAt a fd).Opens fd a := by
  unfold openAt
  split
  · next f named => exact ⟨f, Function.update_self .., named⟩
  · exact ⟨fs.next, Function.update_self .., Function.update_self ..⟩

/-- Another file is opened, with another descriptor. -/
theorem Opens.openAt {fd' : Int} (opens : fs.Opens fd c) (other : c ≠ a) (apart : fd ≠ fd') :
    (fs.openAt a fd').Opens fd c := by
  obtain ⟨f, opened, named⟩ := opens
  unfold Files.openAt
  split
  · exact ⟨f, (Function.update_of_ne apart ..).trans opened, named⟩
  · exact ⟨f, (Function.update_of_ne apart ..).trans opened,
      (Function.update_of_ne other ..).trans named⟩

@[simp] theorem replaced_openAt : (fs.openAt a fd).replaced = fs.replaced := by
  unfold openAt
  split
  · rfl
  · rfl

/-- There is a file to rename just when the name stands for one. -/
theorem rename_isSome : (fs.rename a b).isSome = (fs.content a).isSome := by
  unfold rename content
  rw [Option.isSome_map]
  split
  · next f named =>
      rw [Option.isSome_some, named]
      rfl
  · next unnamed =>
      rw [unnamed]
      rfl

/-- What a rename does: the file of `a` is the file of `b` from now on. -/
theorem rename_eq_some (renamed : fs.rename a b = some fs') (apart : a ≠ b) :
    fs'.content b = fs.content a ∧ fs'.content a = none ∧
      (∀ c, c ≠ a → c ≠ b → fs'.content c = fs.content c) ∧
      fs'.replaced = fs.replaced ++ (fs.content b).toList ∧ fs'.opened = fs.opened := by
  unfold rename at renamed
  split at renamed
  · next f named =>
      cases renamed
      refine ⟨?_, ?_, ?_, if_neg apart, rfl⟩
      · unfold content move
        dsimp only
        rw [Function.update_self, named]
      · unfold content move
        dsimp only
        rw [Function.update_of_ne apart, Function.update_self]
        rfl
      · intro c notA notB
        unfold content move
        dsimp only
        rw [Function.update_of_ne notB, Function.update_of_ne notA]
  · cases renamed

/-- A descriptor stays open on a file that keeps its name. -/
theorem Opens.rename (opens : fs.Opens fd c) (renamed : fs.rename a b = some fs')
    (notA : c ≠ a) (notB : c ≠ b) : fs'.Opens fd c := by
  obtain ⟨f, opened, named⟩ := opens
  unfold Files.rename at renamed
  split at renamed
  · cases renamed
    refine ⟨f, opened, ?_⟩
    unfold move
    dsimp only
    rw [Function.update_of_ne notB, Function.update_of_ne notA]
    exact named
  · cases renamed

/-! ## Names that move down by one -/

/-- The files of the names `1` to `m` get the names before theirs, in this order. -/
def shiftDown (name : Nat → N) (m : Nat) (fs : Files N L) : Files N L :=
  (List.range' 1 m).foldl (fun fs i => (fs.rename (name i) (name (i - 1))).getD fs) fs

theorem shiftDown_succ (name : Nat → N) (m : Nat) (fs : Files N L) :
    shiftDown name (m + 1) fs =
      ((shiftDown name m fs).rename (name (m + 1)) (name m)).getD (shiftDown name m fs) := by
  unfold shiftDown
  rw [List.range'_concat, List.foldl_append, Nat.one_mul, Nat.add_comm 1 m]
  rfl

/-- What the names stand for behind a shift: every file is there under the name before its own,
and the first one has no name any more, unless there is only one. -/
structure Shifted (name : Nat → N) (m : Nat) (fs fs' : Files N L) : Prop where
  down : ∀ i < m, fs'.content (name i) = fs.content (name (i + 1))
  top : fs'.content (name m) = if m = 0 then fs.content (name m) else none
  others : ∀ c, (∀ i ≤ m, c ≠ name i) → fs'.content c = fs.content c
  replaced : fs'.replaced = fs.replaced ++ if m = 0 then [] else (fs.content (name 0)).toList
  opens : ∀ fd c, (∀ i ≤ m, c ≠ name i) → fs.Opens fd c → fs'.Opens fd c

theorem shifted_shiftDown {name : Nat → N} {m : Nat} (fs : Files N L)
    (distinct : ∀ i ≤ m, ∀ j ≤ m, name i = name j → i = j)
    (there : ∀ i ≤ m, (fs.content (name i)).isSome) :
    Shifted name m fs (shiftDown name m fs) := by
  induction m with
  | zero =>
      exact
        { down := fun i low => absurd low (Nat.not_lt_zero i)
          top := rfl
          others := fun _ _ => rfl
          replaced := (List.append_nil _).symm
          opens := fun _ _ _ opens => opens }
  | succ m ih =>
      have ih := ih
        (fun i low j low' => distinct i (Nat.le_succ_of_le low) j (Nat.le_succ_of_le low'))
        (fun i low => there i (Nat.le_succ_of_le low))
      have differ : ∀ i ≤ m, name (m + 1) ≠ name i := by
        intro i low same
        have := distinct (m + 1) (Nat.le_refl _) i (Nat.le_succ_of_le low) same
        omega
      have last : (shiftDown name m fs).content (name (m + 1)) = fs.content (name (m + 1)) :=
        ih.others _ differ
      have apart : name (m + 1) ≠ name m := differ m (Nat.le_refl m)
      have exists' : ((shiftDown name m fs).rename (name (m + 1)) (name m)).isSome := by
        rw [rename_isSome, last]
        exact there (m + 1) (Nat.le_refl _)
      obtain ⟨fs', renamed⟩ := Option.isSome_iff_exists.mp exists'
      obtain ⟨moved, gone, others, replaced, -⟩ := rename_eq_some renamed apart
      rw [shiftDown_succ, renamed, Option.getD_some]
      refine
        { down := fun i low => ?_
          top := gone
          others := fun c other => ?_
          replaced := ?_
          opens := fun fd c other opens => ?_ }
      · by_cases top : i = m
        case pos =>
          subst top
          rw [moved, last]
        case neg =>
          have below : i < m := by omega
          have notLast : name i ≠ name (m + 1) := (differ i (Nat.le_of_lt below)).symm
          have notTop : name i ≠ name m := fun same =>
            top (distinct i (Nat.le_of_lt low) m (Nat.le_succ m) same)
          rw [others _ notLast notTop, ih.down i below]
      · rw [others c (other (m + 1) (Nat.le_refl _)) (other m (Nat.le_succ m)),
          ih.others c fun i low => other i (Nat.le_succ_of_le low)]
      · rw [replaced, ih.replaced, if_neg (Nat.succ_ne_zero m)]
        by_cases zero : m = 0
        case pos =>
          subst zero
          rw [if_pos rfl, List.append_nil]
          rfl
        case neg =>
          rw [if_neg zero, ih.top, if_neg zero, Option.toList_none, List.append_nil]
      · have kept : (shiftDown name m fs).Opens fd c :=
          ih.opens fd c (fun i low => other i (Nat.le_succ_of_le low)) opens
        exact kept.rename renamed (other (m + 1) (Nat.le_refl _)) (other m (Nat.le_succ m))

end Rules

end Files
