import Mathlib.Data.Finset.Card
import Mathlib.Data.Finset.Range
import Mathlib.Data.Set.Function
import Verben.Ae.Backend
import Verben.Lib.Transition

/-!
# What the poll backend watches

The entries that are given to `poll` are to be the descriptors with a registered event, one for
each. `ae_api_del_event` takes the entry of a descriptor away: it moves the last entry into the
hole, but it does not count one entry less. So the array is right along a run exactly as long
as no descriptor loses its last event (`ae_poll_watches_iff`).
-/

namespace Verben

open Transition

variable {P D : Type}

/-- One of the two events. -/
inductive AeKind : Type
  | readable
  | writable

def AeMask.has (mask : AeMask) : AeKind → Prop
  | .readable => mask.readable = true
  | .writable => mask.writable = true

/-- What the entries for `poll` ask for. -/
def AePoll.watched (state : AePoll) : Set (Nat × AeKind) :=
  {w | ∃ i < state.nfds, (state.events i).fd = w.1 ∧ (state.events i).events.has w.2}

/-- What the sets for `select` ask for, up to the highest descriptor. -/
def AeSelect.watched (state : AeSelect) (maxfd : Int) : Set (Nat × AeKind) :=
  {w | (w.1 : Int) < maxfd + 1 ∧ AeMask.has ⟨state.rfds w.1, state.wfds w.1⟩ w.2}

/-- The descriptors with a mask that is not empty. -/
def AeEventLoop.registered (el : AeEventLoop P D) : Set Nat :=
  {fd | fd < aeSetsize ∧ (el.events fd).mask ≠ aeNone}

/-- The array of the poll backend is right for the event loop. -/
structure PollRight (el : AeEventLoop P D) (poll : AePoll) : Prop where
  nfds_le : poll.nfds ≤ aeSetsize
  entries : Set.BijOn (fun i => (poll.events i).fd) {i | i < poll.nfds} el.registered
  index : ∀ i < poll.nfds, poll.index (poll.events i).fd = i
  absent : ∀ fd < aeSetsize, fd ∉ el.registered → poll.index fd = -1
  events : ∀ i < poll.nfds, (poll.events i).events = (el.events (poll.events i).fd).mask

/-- And both backends watch the same. -/
structure AeWatch.Right (w : AeWatch P D) : Prop where
  poll : PollRight w.el w.poll
  same : w.poll.watched = w.select.watched w.el.maxfd

/-- A call that takes no descriptor's last event away. A new descriptor has an event, and
`select` has a bit for it. -/
def KeepsEntry (fdSetsize : Nat) (w : AeWatch P D) : AeFileCall P D → Prop
  | .create fd mask _ _ =>
      fd < aeSetsize →
        (mask = aeNone → fd ∈ w.el.registered) ∧ (mask ≠ aeNone → fd < fdSetsize)
  | .delete fd mask => fd ∈ w.el.registered → (w.el.events fd).mask.andNot mask ≠ aeNone

/-- What is kept: the unused entries are empty, and the sets of the select backend are the
masks. -/
structure AeWatch.Inv (fdSetsize : Nat) (w : AeWatch P D) : Prop where
  poll : PollRight w.el w.poll
  unused : ∀ i, w.poll.nfds ≤ i → (w.poll.events i).events = aeNone
  select : ∀ fd, (⟨w.select.rfds fd, w.select.wfds fd⟩ : AeMask) = (w.el.events fd).mask
  outside : ∀ fd, aeSetsize ≤ fd → (w.el.events fd).mask = aeNone
  maxfd : ∀ fd ∈ w.el.registered, (fd : Int) ≤ w.el.maxfd
  bits : ∀ fd ∈ w.el.registered, fd < fdSetsize

section Masks

variable {a b : AeMask}

theorem AeMask.none_or (b : AeMask) : aeNone.or b = b := by
  cases b
  rfl

theorem AeMask.or_ne_none_left (some : a ≠ aeNone) (b : AeMask) : a.or b ≠ aeNone := by
  rcases a with ⟨_ | _, _ | _⟩ <;> rcases b with ⟨_ | _, _ | _⟩ <;>
    first | exact absurd rfl some | decide

theorem AeMask.or_none (a : AeMask) : a.or aeNone = a := by
  rcases a with ⟨_ | _, _ | _⟩ <;> rfl

theorem AeMask.ne_none_of_has {kind : AeKind} (has : a.has kind) : a ≠ aeNone := by
  rintro rfl
  cases kind <;> cases has

end Masks

variable {fdSetsize : Nat} {w w' : AeWatch P D} {fd : Nat} {mask : AeMask}

theorem AeWatch.Inv.right (inv : w.Inv fdSetsize) : w.Right := by
  refine ⟨inv.poll, Set.ext fun ⟨fd, kind⟩ => ?_⟩
  constructor
  case mp =>
    rintro ⟨i, inside, rfl, has⟩
    have registered := inv.poll.entries.mapsTo inside
    have highest := inv.maxfd _ registered
    rw [inv.poll.events i inside] at has
    exact ⟨Int.lt_add_one_of_le highest, (inv.select _).symm ▸ has⟩
  case mpr =>
    rintro ⟨-, has⟩
    simp only [inv.select] at has
    have registered : fd ∈ w.el.registered := by
      refine ⟨?_, AeMask.ne_none_of_has has⟩
      by_contra behind
      exact AeMask.ne_none_of_has has (inv.outside fd (Nat.not_lt.mp behind))
    obtain ⟨i, inside, rfl⟩ := inv.poll.entries.surjOn registered
    exact ⟨i, inside, rfl, (inv.poll.events i inside).symm ▸ has⟩

theorem inv_init : (AeWatch.init : AeWatch P D).Inv fdSetsize := by
  have none : (AeWatch.init : AeWatch P D).el.registered = ∅ :=
    Set.eq_empty_of_forall_notMem fun fd registered => registered.2 rfl
  refine ⟨⟨Nat.zero_le _, ?_, fun i inside => absurd inside (Nat.not_lt_zero i),
    fun _ _ _ => rfl, fun i inside => absurd inside (Nat.not_lt_zero i)⟩, fun _ _ => rfl,
    fun _ => rfl, fun _ _ => rfl, fun fd registered => ?_, fun fd registered => ?_⟩
  · rw [none]
    refine ⟨fun i inside => absurd inside (Nat.not_lt_zero i),
      fun i inside => absurd inside (Nat.not_lt_zero i), Set.empty_subset _⟩
  · exact absurd rfl registered.2
  · exact absurd rfl registered.2

/-- There is room for one more descriptor. -/
theorem PollRight.nfds_lt {el : AeEventLoop P D} {poll : AePoll} (right : PollRight el poll)
    (inside : fd < aeSetsize) (absent : fd ∉ el.registered) : poll.nfds < aeSetsize := by
  have maps : ∀ i ∈ Finset.range poll.nfds,
      (poll.events i).fd ∈ (Finset.range aeSetsize).erase fd := by
    intro i mem
    have registered := right.entries.mapsTo (Finset.mem_range.mp mem)
    refine Finset.mem_erase.mpr ⟨?_, Finset.mem_range.mpr registered.1⟩
    rintro rfl
    exact absent registered
  have injective : Set.InjOn (fun i => (poll.events i).fd) (Finset.range poll.nfds) := by
    intro i mem j mem' same
    exact right.entries.injOn (Finset.mem_range.mp mem) (Finset.mem_range.mp mem') same
  have count := Finset.card_le_card_of_injOn _ maps injective
  rw [Finset.card_range, Finset.card_erase_of_mem (Finset.mem_range.mpr inside),
    Finset.card_range] at count
  have positive : 0 < aeSetsize := by decide
  omega

/-! ## One entry more, or another mask -/

/-- The masks after a call for one descriptor. -/
def Masks (el el' : AeEventLoop P D) (fd : Nat) (mask : AeMask) : Prop :=
  (el'.events fd).mask = mask ∧
    ∀ other, other ≠ fd → (el'.events other).mask = (el.events other).mask

section Entry

variable {el el' : AeEventLoop P D} {poll : AePoll} {i : Nat}

theorem Masks.registered (masks : Masks el el' fd mask) (inside : fd < aeSetsize)
    (some : mask ≠ aeNone) : el'.registered = insert fd el.registered := by
  ext other
  by_cases same : other = fd
  · subst same
    refine ⟨fun _ => .inl rfl, fun _ => ⟨inside, ?_⟩⟩
    rwa [masks.1]
  · have kept := masks.2 other same
    constructor
    · rintro ⟨inside', used⟩
      exact .inr ⟨inside', kept ▸ used⟩
    · rintro (rfl | ⟨inside', used⟩)
      · exact absurd rfl same
      · exact ⟨inside', kept.symm ▸ used⟩

/-- The entry of a descriptor, from its index. -/
theorem PollRight.entry (right : PollRight el poll) (registered : fd ∈ el.registered) :
    ∃ i < poll.nfds, poll.index fd = i ∧ poll.events i = ⟨fd, (el.events fd).mask⟩ := by
  obtain ⟨i, inside, rfl⟩ := right.entries.surjOn registered
  refine ⟨i, inside, right.index i inside, ?_⟩
  change poll.events i = ⟨(poll.events i).fd, (el.events (poll.events i).fd).mask⟩
  rw [← right.events i inside]

/-- Another mask for a descriptor that has one. -/
theorem PollRight.change (right : PollRight el poll) (masks : Masks el el' fd mask)
    (some : mask ≠ aeNone) (inside : i < poll.nfds) (here : (poll.events i).fd = fd) :
    PollRight el' { poll with events := Function.update poll.events i ⟨fd, mask⟩ } := by
  have registered : fd ∈ el.registered := here ▸ right.entries.mapsTo inside
  have same : el'.registered = el.registered := by
    rw [masks.registered registered.1 some, Set.insert_eq_of_mem registered]
  have fds : ∀ j, (Function.update poll.events i ⟨fd, mask⟩ j).fd = (poll.events j).fd := by
    intro j
    by_cases there : j = i
    · rw [there, Function.update_self, here]
    · rw [Function.update_of_ne there]
  constructor
  case nfds_le => exact right.nfds_le
  case entries =>
    rw [same]
    exact right.entries.congr fun j _ => (fds j).symm
  case index =>
    intro j inside'
    simp only [fds]
    exact right.index j inside'
  case absent =>
    rw [same]
    exact right.absent
  case events =>
    intro j inside'
    simp only [fds]
    by_cases there : j = i
    · subst there
      rw [Function.update_self, here, masks.1]
    · have other : (poll.events j).fd ≠ fd := fun again =>
        there (right.entries.injOn inside' inside (again.trans here.symm))
      rw [Function.update_of_ne there, masks.2 _ other]
      exact right.events j inside'

/-- An entry for a new descriptor. -/
theorem PollRight.new (right : PollRight el poll) (masks : Masks el el' fd mask)
    (some : mask ≠ aeNone) (inside : fd < aeSetsize) (absent : fd ∉ el.registered) :
    PollRight el' ⟨poll.nfds + 1, Function.update poll.index fd poll.nfds,
      Function.update poll.events poll.nfds ⟨fd, mask⟩⟩ := by
  have registered := masks.registered inside some
  have old : ∀ j < poll.nfds,
      Function.update poll.events poll.nfds ⟨fd, mask⟩ j = poll.events j := by
    intro j before
    exact Function.update_of_ne (Nat.ne_of_lt before) ..
  have other : ∀ j < poll.nfds, (poll.events j).fd ≠ fd := fun j before same =>
    absent (same ▸ right.entries.mapsTo before)
  have parts : ∀ j, j < poll.nfds + 1 → j < poll.nfds ∨ j = poll.nfds := by
    intro j before
    omega
  constructor
  case nfds_le => exact right.nfds_lt inside absent
  case entries =>
    have domain : {j | j < poll.nfds + 1} = insert poll.nfds {j | j < poll.nfds} := by
      ext j
      simp only [Set.mem_ofPred_eq, Set.mem_insert_iff]
      omega
    have before : Set.BijOn
        (fun j => (Function.update poll.events poll.nfds ⟨fd, mask⟩ j).fd)
        {j | j < poll.nfds} el.registered :=
      right.entries.congr fun j before => by
        simp only [old j before]
    rw [domain, registered]
    have added := before.insert (a := poll.nfds)
    rw [Function.update_self] at added
    exact added absent
  case index =>
    intro j before
    simp only
    rcases parts j before with before | rfl
    · rw [old j before, Function.update_of_ne (other j before)]
      exact right.index j before
    · rw [Function.update_self, Function.update_self]
  case absent =>
    intro fd' inside' absent'
    rw [registered, Set.mem_insert_iff, not_or] at absent'
    simp only
    rw [Function.update_of_ne absent'.1]
    exact right.absent fd' inside' absent'.2
  case events =>
    intro j before
    simp only
    rcases parts j before with before | rfl
    · rw [old j before, masks.2 _ (other j before)]
      exact right.events j before
    · rw [Function.update_self, masks.1]

end Entry

/-! ## Calls -/

section Calls

variable {proc : P} {clientData : D}

theorem aeCreateFileEvent_of_lt (el : AeEventLoop P D) (inside : fd < aeSetsize) (mask : AeMask)
    (proc : P) (clientData : D) :
    ∃ el', aeCreateFileEvent el fd mask proc clientData true = some el' ∧
      Masks el el' fd ((el.events fd).mask.or mask) ∧
      el'.maxfd = if el.maxfd < fd then (fd : Int) else el.maxfd := by
  have created : aeCreateFileEvent el fd mask proc clientData true = some
      { maxfd := if el.maxfd < fd then (fd : Int) else el.maxfd
        events :=
          Function.update el.events fd ((el.events fd).register mask proc clientData) } := by
    unfold aeCreateFileEvent
    rw [if_neg (Nat.not_le.mpr inside), if_pos rfl]
  refine ⟨_, created, ⟨?_, fun other ne => ?_⟩, rfl⟩
  · simp only
    rw [Function.update_self]
    rfl
  · rw [events_of_aeCreateFileEvent_ne created ne]

theorem masks_aeDeleteFileEvent (el : AeEventLoop P D) (inside : fd < aeSetsize) (mask : AeMask) :
    Masks el (aeDeleteFileEvent el fd mask) fd ((el.events fd).mask.andNot mask) := by
  refine ⟨?_, fun other ne => ?_⟩
  · rw [mask_aeDeleteFileEvent el inside]
  · rw [events_aeDeleteFileEvent_ne el mask ne]

/-- The highest descriptor is not searched for if an event is left. -/
theorem maxfd_aeDeleteFileEvent (el : AeEventLoop P D)
    (left : (el.events fd).mask.andNot mask ≠ aeNone) :
    (aeDeleteFileEvent el fd mask).maxfd = el.maxfd := by
  unfold aeDeleteFileEvent
  split
  · rfl
  · simp only
    split
    · rfl
    · exact if_neg fun both => left both.2

/-- The sets of the select backend follow the masks. -/
theorem select_of_masks {el el' : AeEventLoop P D} {select : AeSelect} {r w : Nat → Bool}
    (before : ∀ fd, (⟨select.rfds fd, select.wfds fd⟩ : AeMask) = (el.events fd).mask)
    (masks : Masks el el' fd mask) (here : (⟨r fd, w fd⟩ : AeMask) = mask)
    (others : ∀ other, other ≠ fd → r other = select.rfds other ∧ w other = select.wfds other)
    (other : Nat) : (⟨r other, w other⟩ : AeMask) = (el'.events other).mask := by
  by_cases same : other = fd
  · rw [same, here, masks.1]
  · rw [(others other same).1, (others other same).2, before other, masks.2 other same]

theorem fdChange_ne (asked value : Bool) (set : Nat → Bool) {other : Nat} (ne : other ≠ fd) :
    fdChange asked value set fd other = set other := by
  unfold fdChange
  cases asked
  · rfl
  · exact Function.update_of_ne ne ..

theorem fdChange_true (asked : Bool) (set : Nat → Bool) :
    fdChange asked true set fd fd = (set fd || asked) := by
  unfold fdChange
  cases asked
  · exact (Bool.or_false _).symm
  · exact (Function.update_self ..).trans (Bool.or_true _).symm

theorem fdChange_false (asked : Bool) (set : Nat → Bool) :
    fdChange asked false set fd fd = (set fd && !asked) := by
  unfold fdChange
  cases asked
  · exact (Bool.and_true _).symm
  · exact (Function.update_self ..).trans (Bool.and_false _).symm

/-- What is left to show of the invariant once the array is right: the masks of the others are
the same, and the new one has bits in both sets. -/
theorem AeWatch.Inv.update {el' : AeEventLoop P D} {poll' : AePoll} {r s : Nat → Bool}
    (inv : w.Inv fdSetsize) (masks : Masks w.el el' fd mask) (inside : fd < aeSetsize)
    (some : mask ≠ aeNone) (poll : PollRight el' poll')
    (unused : ∀ i, poll'.nfds ≤ i → (poll'.events i).events = aeNone)
    (here : (⟨r fd, s fd⟩ : AeMask) = mask)
    (others : ∀ other, other ≠ fd → r other = w.select.rfds other ∧ s other = w.select.wfds other)
    (highest : w.el.maxfd ≤ el'.maxfd ∧ (fd : Int) ≤ el'.maxfd) (bit : fd < fdSetsize) :
    (AeWatch.mk el' poll' ⟨r, s⟩).Inv fdSetsize := by
  have registered := masks.registered inside some
  constructor
  case poll => exact poll
  case unused => exact unused
  case select => exact select_of_masks inv.select masks here others
  case outside =>
    intro other behind
    rw [masks.2 other (by omega)]
    exact inv.outside other behind
  case maxfd =>
    simp only [registered]
    rintro other (rfl | old)
    · exact highest.2
    · exact Int.le_trans (inv.maxfd other old) highest.1
  case bits =>
    simp only [registered]
    rintro other (rfl | old)
    · exact bit
    · exact inv.bits other old

theorem aePollAdd_registered {el : AeEventLoop P D} {poll : AePoll} (right : PollRight el poll)
    (registered : fd ∈ el.registered) (mask : AeMask) :
    ∃ i < poll.nfds, (poll.events i).fd = fd ∧ aePollAdd poll fd mask = some { poll with
      events := Function.update poll.events i ⟨fd, (el.events fd).mask.or mask⟩ } := by
  obtain ⟨i, inside, index, entry⟩ := right.entry registered
  have known : poll.index fd ≠ -1 := by omega
  have room : ¬ aeSetsize ≤ i := Nat.not_le.mpr (Nat.lt_of_lt_of_le inside right.nfds_le)
  refine ⟨i, inside, by rw [entry], ?_⟩
  unfold aePollAdd AePoll.entry
  rw [if_neg known, index, Int.toNat_natCast]
  simp only [entry]
  by_cases empty : mask = aeNone
  · rw [if_pos empty, empty, AeMask.or_none, ← entry, Function.update_eq_self]
  · rw [if_neg empty, if_neg room]

theorem aePollAdd_new {poll : AePoll} (absent : poll.index fd = -1) (some' : mask ≠ aeNone)
    (room : poll.nfds < aeSetsize) (unused : (poll.events poll.nfds).events = aeNone) :
    aePollAdd poll fd mask = some ⟨poll.nfds + 1, Function.update poll.index fd poll.nfds,
      Function.update poll.events poll.nfds ⟨fd, mask⟩⟩ := by
  unfold aePollAdd AePoll.entry
  rw [if_pos absent]
  simp only
  rw [if_neg some', if_neg (Nat.not_le.mpr room), unused, AeMask.none_or]

theorem aePollDel_left {el : AeEventLoop P D} {poll : AePoll} (right : PollRight el poll)
    (registered : fd ∈ el.registered) (left : (el.events fd).mask.andNot mask ≠ aeNone) :
    ∃ i < poll.nfds, (poll.events i).fd = fd ∧ aePollDel poll fd mask = some { poll with
      events := Function.update poll.events i ⟨fd, (el.events fd).mask.andNot mask⟩ } := by
  obtain ⟨i, inside, index, entry⟩ := right.entry registered
  have known : ¬ (i : Int) = -1 := by omega
  have room : ¬ aeSetsize ≤ i := Nat.not_le.mpr (Nat.lt_of_lt_of_le inside right.nfds_le)
  refine ⟨i, inside, by rw [entry], ?_⟩
  unfold aePollDel
  simp only [index, if_neg known, Int.toNat_natCast, if_neg room, entry, if_pos left]

/-- Where the last event is taken away, one entry too many is left: a copy of the one that was
moved, or an empty one. -/
theorem aePollDel_last {el el' : AeEventLoop P D} {poll poll' : AePoll}
    (right : PollRight el poll) (registered : fd ∈ el.registered)
    (none' : (el.events fd).mask.andNot mask = aeNone) (masks : Masks el el' fd aeNone)
    (deleted : aePollDel poll fd mask = some poll') : ¬ PollRight el' poll' := by
  intro right'
  obtain ⟨i, inside, index, entry⟩ := right.entry registered
  have known : ¬ (i : Int) = -1 := by omega
  have room : ¬ aeSetsize ≤ i := Nat.not_le.mpr (Nat.lt_of_lt_of_le inside right.nfds_le)
  unfold aePollDel at deleted
  simp only [index, if_neg known, Int.toNat_natCast, if_neg room, entry, none', ne_eq,
    not_true_eq_false, if_false] at deleted
  split at deleted
  · next moved =>
      split at deleted
      · cases deleted
      · cases deleted
        have apart : poll.nfds - 1 ≠ i := by omega
        have again := right'.entries.injOn (show i < poll.nfds from inside)
          (show poll.nfds - 1 < poll.nfds by omega) (by
            simp only [Function.update_self, Function.update_of_ne apart])
        exact apart again.symm
  · cases deleted
    have still := right'.entries.mapsTo (show i < poll.nfds from inside)
    simp only [Function.update_self] at still
    exact still.2 masks.1

/-! ## Runs -/

theorem mask_of_not_registered {el : AeEventLoop P D} (inside : fd < aeSetsize)
    (absent : fd ∉ el.registered) : (el.events fd).mask = aeNone := by
  by_contra used
  exact absent ⟨inside, used⟩

/-- The array is right after an addition: an entry gets more events, or there is one more. -/
theorem AeWatch.Inv.pollAdd {el' : AeEventLoop P D} (inv : w.Inv fdSetsize)
    (inside : fd < aeSetsize) (known : mask = aeNone → fd ∈ w.el.registered)
    (masks : Masks w.el el' fd ((w.el.events fd).mask.or mask)) :
    ∃ poll', aePollAdd w.poll fd mask = some poll' ∧ PollRight el' poll' ∧
      (w.el.events fd).mask.or mask ≠ aeNone ∧
      ∀ i, poll'.nfds ≤ i → (poll'.events i).events = aeNone := by
  by_cases registered : fd ∈ w.el.registered
  case pos =>
    have some := AeMask.or_ne_none_left registered.2 mask
    obtain ⟨i, before, entry, added⟩ := aePollAdd_registered inv.poll registered mask
    refine ⟨_, added, inv.poll.change masks some before entry, some, fun j behind => ?_⟩
    simp only
    rw [Function.update_of_ne (by simp only at behind; omega)]
    exact inv.unused j behind
  case neg =>
    have some : mask ≠ aeNone := fun empty => registered (known empty)
    have none := mask_of_not_registered inside registered
    have room := inv.poll.nfds_lt inside registered
    have added := aePollAdd_new (inv.poll.absent fd inside registered) some room
      (inv.unused _ (Nat.le_refl _))
    rw [none, AeMask.none_or] at masks ⊢
    refine ⟨_, added, inv.poll.new masks some inside registered, some, fun j behind => ?_⟩
    simp only at behind ⊢
    rw [Function.update_of_ne (by omega)]
    exact inv.unused j (by omega)

theorem AeWatch.Inv.create (inv : w.Inv fdSetsize)
    (meets : KeepsEntry fdSetsize w (.create fd mask proc clientData)) :
    ∃ w', w.step fdSetsize (.create fd mask proc clientData) = some w' ∧ w'.Inv fdSetsize := by
  by_cases inside : fd < aeSetsize
  case neg => exact ⟨w, if_pos (Nat.not_lt.mp inside), inv⟩
  case pos =>
    obtain ⟨known, bit⟩ := meets inside
    obtain ⟨el', created, masks, maxfd⟩ := aeCreateFileEvent_of_lt w.el inside mask proc clientData
    have bits : fd < fdSetsize := by
      by_cases empty : mask = aeNone
      · exact inv.bits fd (known empty)
      · exact bit empty
    have selected : aeSelectAdd fdSetsize w.select fd mask =
        some ⟨fdChange mask.readable true w.select.rfds fd,
          fdChange mask.writable true w.select.wfds fd⟩ :=
      if_neg fun both => Nat.not_lt.mpr both.2 bits
    have here : (⟨fdChange mask.readable true w.select.rfds fd fd,
        fdChange mask.writable true w.select.wfds fd fd⟩ : AeMask) =
          (w.el.events fd).mask.or mask := by
      rw [fdChange_true, fdChange_true, ← inv.select fd]
      rfl
    have others : ∀ other, other ≠ fd →
        fdChange mask.readable true w.select.rfds fd other = w.select.rfds other ∧
          fdChange mask.writable true w.select.wfds fd other = w.select.wfds other :=
      fun other ne => ⟨fdChange_ne _ _ _ ne, fdChange_ne _ _ _ ne⟩
    have highest : w.el.maxfd ≤ el'.maxfd ∧ (fd : Int) ≤ el'.maxfd := by
      rw [maxfd]
      split <;> omega
    obtain ⟨poll', added, right, some, unused⟩ := inv.pollAdd inside known masks
    refine ⟨⟨el', poll', ⟨fdChange mask.readable true w.select.rfds fd,
      fdChange mask.writable true w.select.wfds fd⟩⟩, ?_,
      inv.update masks inside some right unused here others highest bits⟩
    unfold AeWatch.step
    simp only [if_neg (Nat.not_le.mpr inside), added, selected, created, Option.bind_eq_bind,
      Option.bind_some]

theorem AeWatch.Inv.delete (inv : w.Inv fdSetsize)
    (meets : KeepsEntry fdSetsize w (.delete fd mask)) :
    ∃ w', w.step fdSetsize (.delete fd mask) = some w' ∧ w'.Inv fdSetsize := by
  by_cases idle : aeSetsize ≤ fd ∨ (w.el.events fd).mask = aeNone
  case pos => exact ⟨w, if_pos idle, inv⟩
  case neg =>
    rw [not_or, Nat.not_le] at idle
    have registered : fd ∈ w.el.registered := idle
    have left := meets registered
    have bits := inv.bits fd registered
    have masks := masks_aeDeleteFileEvent w.el registered.1 mask
    have maxfd := maxfd_aeDeleteFileEvent w.el left
    obtain ⟨i, before, entry, deleted⟩ := aePollDel_left inv.poll registered left
    have selected : aeSelectDel fdSetsize w.select fd mask =
        some ⟨fdChange mask.readable false w.select.rfds fd,
          fdChange mask.writable false w.select.wfds fd⟩ :=
      if_neg fun both => Nat.not_lt.mpr both.2 bits
    have here : (⟨fdChange mask.readable false w.select.rfds fd fd,
        fdChange mask.writable false w.select.wfds fd fd⟩ : AeMask) =
          (w.el.events fd).mask.andNot mask := by
      rw [fdChange_false, fdChange_false, ← inv.select fd]
      rfl
    refine ⟨_, ?_, inv.update masks registered.1 left
      (inv.poll.change masks left before entry) (fun j behind => ?_) here
      (fun other ne => ⟨fdChange_ne _ _ _ ne, fdChange_ne _ _ _ ne⟩) ?_ bits⟩
    · unfold AeWatch.step
      have busy : ¬ (aeSetsize ≤ fd ∨ (w.el.events fd).mask = aeNone) := by
        rintro (behind | none)
        · omega
        · exact registered.2 none
      simp only [if_neg busy, deleted, selected, Option.bind_eq_bind, Option.bind_some]
    · simp only at behind ⊢
      rw [Function.update_of_ne (by omega)]
      exact inv.unused j behind
    · rw [maxfd]
      exact ⟨Int.le_refl _, inv.maxfd fd registered⟩

/-- A call that is not of this kind spoils the array, or does not return. -/
theorem AeWatch.Inv.keepsEntry {call : AeFileCall P D} (inv : w.Inv fdSetsize)
    (stepped : w.step fdSetsize call = some w') (right : w'.Right) :
    KeepsEntry fdSetsize w call := by
  cases call with
  | create fd mask proc clientData =>
      intro inside
      obtain ⟨el', created, masks, -⟩ := aeCreateFileEvent_of_lt w.el inside mask proc clientData
      unfold AeWatch.step at stepped
      simp only [if_neg (Nat.not_le.mpr inside)] at stepped
      obtain ⟨poll', added, rest⟩ := Option.bind_eq_some_iff.mp stepped
      obtain ⟨select', selected, last⟩ := Option.bind_eq_some_iff.mp rest
      rw [created] at last
      cases last
      refine ⟨fun empty => ?_, fun some => ?_⟩
      · by_contra absent
        have none := mask_of_not_registered inside absent
        -- an index without an event
        rw [empty, AeMask.or_none, none] at masks
        have index := right.poll.absent fd inside fun registered => registered.2 masks.1
        unfold aePollAdd AePoll.entry at added
        rw [if_pos (inv.poll.absent fd inside absent)] at added
        simp only [if_pos empty] at added
        cases added
        simp only [Function.update_self] at index
        omega
      · by_contra behind
        have outside : aeSelectAdd fdSetsize w.select fd mask = none :=
          if_pos ⟨some, Nat.not_lt.mp behind⟩
        cases outside.symm.trans selected
  | delete fd mask =>
      intro registered none
      have busy : ¬ (aeSetsize ≤ fd ∨ (w.el.events fd).mask = aeNone) := by
        rintro (behind | none)
        · exact Nat.not_lt.mpr behind registered.1
        · exact registered.2 none
      unfold AeWatch.step at stepped
      simp only [if_neg busy] at stepped
      obtain ⟨poll', deleted, rest⟩ := Option.bind_eq_some_iff.mp stepped
      obtain ⟨select', -, last⟩ := Option.bind_eq_some_iff.mp rest
      cases last
      have masks := masks_aeDeleteFileEvent w.el registered.1 mask
      rw [none] at masks
      exact aePollDel_last inv.poll registered none masks deleted right.poll

end Calls

/-- Along a run of calls, the entries for `poll` are the registered descriptors, and `select`
would watch the same, if and only if no call takes the last event of a descriptor away, each
new descriptor has an event, and `select` has bits for the descriptors. -/
theorem ae_poll_watches_iff (fdSetsize : Nat) (calls : List (AeFileCall P D)) :
    ((run (AeWatch.step fdSetsize) AeWatch.init calls).isSome ∧
        Throughout (AeWatch.step fdSetsize) AeWatch.Right AeWatch.init calls) ↔
      Along (AeWatch.step fdSetsize) (KeepsEntry fdSetsize) AeWatch.init calls := by
  refine along_iff AeWatch.Inv.right (fun {w call} inv meets => ?_) AeWatch.Inv.keepsEntry
    inv_init calls
  cases call with
  | create => exact inv.create meets
  | delete => exact inv.delete meets

/-- Descriptor 5 is read for a while. -/
def readOnce : List (AeFileCall Unit Unit) :=
  [.create 5 aeReadable () (), .delete 5 aeReadable]

/-- The entry of the descriptor is still counted. -/
theorem ae_poll_keeps_entry : ¬ ∀ (fdSetsize : Nat) (calls : List (AeFileCall Unit Unit)),
    (∀ call ∈ calls, match call with
      | .create fd _ _ _ => fd < aeSetsize ∧ fd < fdSetsize
      | .delete fd _ => fd < aeSetsize ∧ fd < fdSetsize) →
    (run (AeWatch.step fdSetsize) AeWatch.init calls).isSome ∧
      Throughout (AeWatch.step fdSetsize) AeWatch.Right AeWatch.init calls := by
  intro claim
  obtain ⟨-, -, rest⟩ := claim 1024 readOnce (by
    intro call mem
    rcases List.mem_cons.mp mem with rfl | mem
    · decide
    · cases List.mem_singleton.mp mem
      decide)
  have right := ((rest _ rfl).2 _ rfl).poll
  have registered := right.entries.mapsTo (show 0 < 1 from Nat.one_pos)
  exact registered.2 rfl

end Verben
