import Verben.Ae.Model

/-!
# The poll and select backends

`ae_api_add_event` and `ae_api_del_event` of `src/ae_poll.c` and `src/ae_select.c`. The poll
backend keeps an array for `poll`, and where the entry of each descriptor is in it. The select
backend keeps two sets for `select`, each of `FD_SETSIZE` descriptors.

A function returns `none` where the code would access memory outside of an array or a set.
-/

namespace Verben

/-! ## poll -/

/-- `struct pollfd`, with `POLLIN` and `POLLOUT` as a mask, and without what `poll` answers. -/
structure PollFd : Type where
  fd : Nat
  events : AeMask
  deriving DecidableEq

/-- `ae_api_state` of the poll backend. Its arrays have `AE_SETSIZE` elements. -/
structure AePoll : Type where
  nfds : Nat
  index : Nat → Int
  events : Nat → PollFd

/-- `ae_api_create`. -/
def aePollCreate : AePoll where
  nfds := 0
  index := fun _ => -1
  events := fun _ => ⟨0, aeNone⟩

/-- The entry that `ae_api_add_event` takes for a descriptor, which may be a new one. -/
def AePoll.entry (state : AePoll) (fd : Nat) : AePoll × Nat :=
  if state.index fd = -1 then
    ({ state with nfds := state.nfds + 1, index := Function.update state.index fd state.nfds },
      state.nfds)
  else
    (state, (state.index fd).toNat)

/-- `ae_api_add_event`. The entry is only accessed if the mask has a bit. -/
def aePollAdd (state : AePoll) (fd : Nat) (mask : AeMask) : Option AePoll :=
  let (state, i) := state.entry fd
  if mask = aeNone then
    some state
  else if aeSetsize ≤ i then
    none
  else
    some { state with
      events := Function.update state.events i ⟨fd, (state.events i).events.or mask⟩ }

/-- `ae_api_del_event`. -/
def aePollDel (state : AePoll) (fd : Nat) (mask : AeMask) : Option AePoll :=
  if state.index fd = -1 then
    some state
  else
    let i := (state.index fd).toNat
    if aeSetsize ≤ i then
      none
    else
      let left := (state.events i).events.andNot mask
      let events := Function.update state.events i { state.events i with events := left }
      if left ≠ aeNone then
        some { state with events := events }
      else
        let index := Function.update state.index fd (-1)
        if (i : Int) ≠ state.nfds - 1 then
          let final := events (state.nfds - 1)
          if state.nfds = 0 ∨ aeSetsize < state.nfds ∨ aeSetsize ≤ final.fd then
            none
          else
            some { state with
              index := Function.update index final.fd i
              events := Function.update events i final }
        else
          some { state with index := index, events := events }

/-! ## select -/

/-- `ae_api_state` of the select backend, without the copies that `select` changes. -/
structure AeSelect : Type where
  rfds : Nat → Bool
  wfds : Nat → Bool

/-- `ae_api_create`. -/
def aeSelectCreate : AeSelect where
  rfds := fun _ => false
  wfds := fun _ => false

/-- `FD_SET` or `FD_CLR`, if a bit of the mask asks for it. -/
def fdChange (asked value : Bool) (set : Nat → Bool) (fd : Nat) : Nat → Bool :=
  if asked then Function.update set fd value else set

/-- `ae_api_add_event`. -/
def aeSelectAdd (fdSetsize : Nat) (state : AeSelect) (fd : Nat) (mask : AeMask) :
    Option AeSelect :=
  if mask ≠ aeNone ∧ fdSetsize ≤ fd then
    none
  else
    some ⟨fdChange mask.readable true state.rfds fd, fdChange mask.writable true state.wfds fd⟩

/-- `ae_api_del_event`. -/
def aeSelectDel (fdSetsize : Nat) (state : AeSelect) (fd : Nat) (mask : AeMask) :
    Option AeSelect :=
  if mask ≠ aeNone ∧ fdSetsize ≤ fd then
    none
  else
    some ⟨fdChange mask.readable false state.rfds fd, fdChange mask.writable false state.wfds fd⟩

/-! ## The event loop over both -/

variable {P D : Type}

/-- `ae_create_file_event` or `ae_delete_file_event`. -/
inductive AeFileCall (P D : Type) : Type
  | create (fd : Nat) (mask : AeMask) (proc : P) (clientData : D)
  | delete (fd : Nat) (mask : AeMask)

/-- An event loop, with the states of both backends after the same calls. -/
structure AeWatch (P D : Type) : Type where
  el : AeEventLoop P D
  poll : AePoll
  select : AeSelect

/-- `ae_create_event_loop`. -/
def AeWatch.init : AeWatch P D where
  el := aeCreateEventLoop
  poll := aePollCreate
  select := aeSelectCreate

/-- A call. The backend adds before the event loop does, and deletes after it, unless the
event loop returns before. -/
def AeWatch.step (fdSetsize : Nat) (w : AeWatch P D) : AeFileCall P D → Option (AeWatch P D)
  | .create fd mask proc clientData =>
      if aeSetsize ≤ fd then some w
      else do
        let poll ← aePollAdd w.poll fd mask
        let select ← aeSelectAdd fdSetsize w.select fd mask
        let el ← aeCreateFileEvent w.el fd mask proc clientData true
        some ⟨el, poll, select⟩
  | .delete fd mask =>
      if aeSetsize ≤ fd ∨ (w.el.events fd).mask = aeNone then some w
      else do
        let poll ← aePollDel w.poll fd mask
        let select ← aeSelectDel fdSetsize w.select fd mask
        some ⟨aeDeleteFileEvent w.el fd mask, poll, select⟩

end Verben
