import Verben.Ae.Model
import Verben.Lib.Transition

/-!
# The epoll and kqueue backends

`ae_api_add_event` and `ae_api_del_event` of `src/ae_epoll.c` and `src/ae_kqueue.c`. What they
ask for is kept by the kernel, which forgets a descriptor that is closed. The event loop is not
told of that, and the epoll backend looks into the event loop's table to know what the kernel
has. So the two may come apart, and a call of `epoll_ctl` or `kevent` may fail.
-/

namespace Verben

open Transition

/-! ## epoll -/

/-- The `op` of `epoll_ctl`. -/
inductive EpollOp : Type
  | add
  | mod
  | del
  deriving DecidableEq

/-- What an epoll instance has: for a descriptor, `EPOLLIN` and `EPOLLOUT` as a mask. -/
abbrev EpollSet : Type := Nat → Option AeMask

/-- `epoll_ctl`; `none` is -1, with `EBADF`, `EEXIST` or `ENOENT`. -/
def epollCtl (interest : EpollSet) (fdOpen : Nat → Bool) (op : EpollOp) (fd : Nat)
    (events : AeMask) : Option EpollSet :=
  if fdOpen fd = false then
    none
  else
    match op, interest fd with
    | .add, none => some (Function.update interest fd (some events))
    | .mod, some _ => some (Function.update interest fd (some events))
    | .del, some _ => some (Function.update interest fd none)
    | _, _ => none

/-- `ae_api_add_event`. `mask` is what the event loop's table has for the descriptor. -/
def aeEpollAdd (interest : EpollSet) (fdOpen : Nat → Bool) (mask : AeMask) (fd : Nat)
    (added : AeMask) : Option EpollSet :=
  let op := if mask = aeNone then EpollOp.add else .mod
  epollCtl interest fdOpen op fd (added.or mask)

/-- `ae_api_del_event`, which the event loop calls when its table is changed already. -/
def aeEpollDel (interest : EpollSet) (fdOpen : Nat → Bool) (mask : AeMask) (fd : Nat)
    (delmask : AeMask) : Option EpollSet :=
  let left := mask.andNot delmask
  if left ≠ aeNone then epollCtl interest fdOpen .mod fd left
  else epollCtl interest fdOpen .del fd left

/-! ## kqueue -/

/-- What a kqueue has: for a descriptor, whether `EVFILT_READ` and `EVFILT_WRITE` are there. -/
abbrev KqueueSet : Type := Nat → AeMask

/-- `kevent` with `EV_ADD` for one filter. -/
def keventAdd (filters : KqueueSet) (fdOpen : Nat → Bool) (fd : Nat) (filter : AeMask) :
    Option KqueueSet :=
  if fdOpen fd = false then none
  else some (Function.update filters fd ((filters fd).or filter))

/-- `kevent` with `EV_DELETE` for one filter; -1 with `ENOENT` if it is not there. -/
def keventDelete (filters : KqueueSet) (fdOpen : Nat → Bool) (fd : Nat) (filter : AeMask) :
    Option KqueueSet :=
  if fdOpen fd = false ∨ (filters fd).or filter ≠ filters fd then none
  else some (Function.update filters fd ((filters fd).andNot filter))

/-- `ae_api_add_event`. -/
def aeKqueueAdd (filters : KqueueSet) (fdOpen : Nat → Bool) (fd : Nat) (mask : AeMask) :
    Option KqueueSet := do
  let filters ← if mask.readable then keventAdd filters fdOpen fd aeReadable else some filters
  if mask.writable then keventAdd filters fdOpen fd aeWritable else some filters

/-- `ae_api_del_event`. -/
def aeKqueueDel (filters : KqueueSet) (fdOpen : Nat → Bool) (fd : Nat) (mask : AeMask) :
    Option KqueueSet := do
  let filters ← if mask.readable then keventDelete filters fdOpen fd aeReadable else some filters
  if mask.writable then keventDelete filters fdOpen fd aeWritable else some filters

/-! ## The event loop over both -/

variable {P D : Type}

/-- What a process does to its descriptors and to their file events. Where the kernel has no
`room`, nothing is added. -/
inductive AeFdCall (P D : Type) : Type
  | opened (fd : Nat)
  | closed (fd : Nat)
  | create (fd : Nat) (mask : AeMask) (proc : P) (clientData : D) (room : Bool)
  | delete (fd : Nat) (mask : AeMask)

/-- An event loop, the open descriptors, and what the kernel has for either backend. -/
structure AeKernel (P D : Type) : Type where
  el : AeEventLoop P D
  fdOpen : Nat → Bool
  epoll : EpollSet
  kqueue : KqueueSet

/-- `ae_create_event_loop`. -/
def AeKernel.init (fdOpen : Nat → Bool) : AeKernel P D where
  el := aeCreateEventLoop
  fdOpen := fdOpen
  epoll := fun _ => none
  kqueue := fun _ => aeNone

/-- A call; `none` where `epoll_ctl` or `kevent` fails though the kernel has room. -/
def AeKernel.step (k : AeKernel P D) : AeFdCall P D → Option (AeKernel P D)
  | .opened fd => some { k with fdOpen := Function.update k.fdOpen fd true }
  | .closed fd =>
      some { k with
        fdOpen := Function.update k.fdOpen fd false
        epoll := Function.update k.epoll fd none
        kqueue := Function.update k.kqueue fd aeNone }
  | .create fd mask proc clientData room =>
      match aeCreateFileEvent k.el fd mask proc clientData room with
      | none => some k
      | some el => do
        let epoll ← aeEpollAdd k.epoll k.fdOpen (k.el.events fd).mask fd mask
        let kqueue ← aeKqueueAdd k.kqueue k.fdOpen fd mask
        some { k with el := el, epoll := epoll, kqueue := kqueue }
  | .delete fd mask =>
      if aeSetsize ≤ fd ∨ (k.el.events fd).mask = aeNone then some k
      else do
        let el := aeDeleteFileEvent k.el fd mask
        let epoll ← aeEpollDel k.epoll k.fdOpen (el.events fd).mask fd mask
        let kqueue ← aeKqueueDel k.kqueue k.fdOpen fd mask
        some { k with el := el, epoll := epoll, kqueue := kqueue }

end Verben
