import Mathlib.Logic.Function.Basic
import Mathlib.Tactic.Common

/-!
# The event loop's table

The file events of `src/ae.c`: one entry for each fd, with the mask of registered
events, a callback for each kind and one client data for both. The table is generic
in the callbacks and the client data. What the multiplexing layer answers is an
argument of `aeCreateFileEvent`.
-/

namespace Verben

/-- `AE_SETSIZE`. -/
def aeSetsize : Nat := 10240

/-- A mask of `AE_READABLE` and `AE_WRITABLE`. -/
structure AeMask : Type where
  readable : Bool
  writable : Bool
  deriving DecidableEq

def aeNone : AeMask := ⟨false, false⟩
def aeReadable : AeMask := ⟨true, false⟩
def aeWritable : AeMask := ⟨false, true⟩

/-- `a | b`. -/
def AeMask.or (a b : AeMask) : AeMask := ⟨a.readable || b.readable, a.writable || b.writable⟩

/-- `a & ~b`. -/
def AeMask.andNot (a b : AeMask) : AeMask :=
  ⟨a.readable && !b.readable, a.writable && !b.writable⟩

/-- `ae_file_event`. The callbacks and the client data of an entry that was never
registered are unset. -/
structure AeFileEvent (P D : Type) : Type where
  mask : AeMask
  rFileProc : Option P
  wFileProc : Option P
  clientData : Option D
  deriving DecidableEq

/-- `ae_event_loop`, without its time events. -/
structure AeEventLoop (P D : Type) : Type where
  maxfd : Int
  events : Nat → AeFileEvent P D

variable {P D : Type}

/-- `ae_create_event_loop`. -/
def aeCreateEventLoop : AeEventLoop P D where
  maxfd := -1
  events := fun _ => ⟨aeNone, none, none, none⟩

/-- The entry that `ae_create_file_event` leaves. -/
def AeFileEvent.register (fe : AeFileEvent P D) (mask : AeMask) (proc : P) (clientData : D) :
    AeFileEvent P D where
  mask := fe.mask.or mask
  rFileProc := if mask.readable then some proc else fe.rFileProc
  wFileProc := if mask.writable then some proc else fe.wFileProc
  clientData := some clientData

/-- `ae_create_file_event`; `none` is `AE_ERR`. `addOk` says whether
`ae_api_add_event` succeeds. -/
def aeCreateFileEvent (el : AeEventLoop P D) (fd : Nat) (mask : AeMask) (proc : P)
    (clientData : D) (addOk : Bool) : Option (AeEventLoop P D) :=
  if aeSetsize ≤ fd then
    none
  else if addOk then
    some {
      maxfd := if el.maxfd < fd then fd else el.maxfd
      events := Function.update el.events fd ((el.events fd).register mask proc clientData) }
  else
    none

/-- The search for the new `maxfd`, from below an fd down. -/
def aeSearchMaxfd (events : Nat → AeFileEvent P D) : Nat → Int
  | 0 => -1
  | j + 1 => if (events j).mask ≠ aeNone then j else aeSearchMaxfd events j

/-- `ae_delete_file_event`. -/
def aeDeleteFileEvent (el : AeEventLoop P D) (fd : Nat) (mask : AeMask) : AeEventLoop P D :=
  if aeSetsize ≤ fd then
    el
  else
    let fe := el.events fd
    if fe.mask = aeNone then
      el
    else
      let left := fe.mask.andNot mask
      let events := Function.update el.events fd { fe with mask := left }
      { maxfd :=
          if el.maxfd = fd ∧ left = aeNone then aeSearchMaxfd events fd else el.maxfd
        events := events }

/-! ## What the calls do to the entries -/

variable {el el' : AeEventLoop P D} {fd : Nat} {mask : AeMask} {proc : P} {clientData : D}
  {addOk : Bool}

/-- Registering changes one entry. -/
theorem events_of_aeCreateFileEvent
    (created : aeCreateFileEvent el fd mask proc clientData addOk = some el') :
    fd < aeSetsize ∧
      el'.events = Function.update el.events fd ((el.events fd).register mask proc clientData) := by
  unfold aeCreateFileEvent at created
  split at created
  · cases created
  · next inside =>
      split at created
      · cases created
        exact ⟨Nat.lt_of_not_le inside, rfl⟩
      · cases created

theorem events_of_aeCreateFileEvent_ne
    (created : aeCreateFileEvent el fd mask proc clientData addOk = some el') {other : Nat}
    (ne : other ≠ fd) : el'.events other = el.events other := by
  rw [(events_of_aeCreateFileEvent created).2, Function.update_of_ne ne]

/-- Unregistering takes the bits out of one mask. -/
theorem mask_aeDeleteFileEvent (el : AeEventLoop P D) (inside : fd < aeSetsize) (mask : AeMask) :
    (aeDeleteFileEvent el fd mask).events fd =
      { el.events fd with mask := (el.events fd).mask.andNot mask } := by
  unfold aeDeleteFileEvent
  rw [if_neg (Nat.not_le.mpr inside)]
  simp only
  split
  · next empty =>
      cases entry : el.events fd
      rw [entry] at empty
      cases empty
      rfl
  · exact Function.update_self ..

theorem events_aeDeleteFileEvent_ne (el : AeEventLoop P D) (mask : AeMask) {other : Nat}
    (ne : other ≠ fd) : (aeDeleteFileEvent el fd mask).events other = el.events other := by
  unfold aeDeleteFileEvent
  split
  · rfl
  · simp only
    split
    · rfl
    · exact Function.update_of_ne ne ..

end Verben
