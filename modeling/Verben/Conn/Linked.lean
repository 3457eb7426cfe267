import Verben.Conn.Model
import Verben.Dlist.Entries

/-!
# Closing connections in the linked list

The timer of `src/conn.c` on the list as it is in memory: `server_cron` walks `clients` with an
iterator while `close_client` searches the list for the connection and takes the node out. The
other state of the process is as in `ConnProc`, which has the connections of the list in a
sequence; `LinkedProc.toConn` forgets the nodes.
-/

namespace Verben

open Links

/-- The state of the process, with the list of connections as it is in memory. -/
structure LinkedProc : Type where
  heap : Nat → Option ClientConn
  clients : Dlist Nat
  connVec : Nat → Nat
  ael : AeEventLoop FileProc Nat
  fdOpen : Nat → Bool
  clientLimit : Int
  clientTimeout : Int
  unixClock : Int
  connPid : Int
  identifier : Nat

/-- The process with a sequence of connections in place of the list. -/
def LinkedProc.toConn (s : LinkedProc) (clis : List Nat) : ConnProc where
  heap := s.heap
  clients := clis
  connVec := s.connVec
  ael := s.ael
  fdOpen := s.fdOpen
  clientLimit := s.clientLimit
  clientTimeout := s.clientTimeout
  unixClock := s.unixClock
  connPid := s.connPid
  identifier := s.identifier

/-- `free_client_node`, the `free` method of the list. -/
def freeClientNode (s : LinkedProc) (cli : Nat) : Option LinkedProc :=
  (s.heap cli).map fun _ => { s with heap := Function.update s.heap cli none }

/-- `free_client`. There is memory for the iterator of the search. -/
def freeClient (fuel : Nat) (s : LinkedProc) (cli : Nat) : Option LinkedProc := do
  let ln ← dlistSearchKey fuel s.clients true cli
  let addr ← ln
  let (clients, value) ← dlistDeleteNode s.clients addr
  freeClientNode { s with clients := clients } value

/-- `close_client`. -/
def LinkedProc.closeClient (fuel : Nat) (s : LinkedProc) (cli : Nat) : Option LinkedProc := do
  let c ← s.heap cli
  freeClient fuel { s with
    ael := aeDeleteFileEvent (aeDeleteFileEvent s.ael c.fd aeReadable) c.fd aeWritable
    connVec := Function.update s.connVec c.fd 0
    fdOpen := Function.update s.fdOpen c.fd false } cli

/-- What `server_cron` does with the connections. -/
inductive CronEvent : Type
  | visited (cli : Nat)
  | closed (cli : Nat)
  deriving DecidableEq

/-- The loop of `server_cron`. A search of the list is given `budget` steps. -/
def cronWalk (budget : Nat) : Nat → LinkedProc → DlistIter →
    Option (LinkedProc × List CronEvent)
  | 0, _, _ => none
  | fuel + 1, s, iter => do
      let (node, iter) ← dlistNext s.clients iter
      match node with
      | none => some (s, [])
      | some addr => do
          let node ← s.clients.nodes addr
          let cli := node.value
          let c ← s.heap cli
          if s.clientTimeout ≠ 0 ∧ s.clientTimeout < s.unixClock - c.accessTime then
            let s ← s.closeClient budget cli
            let (s, events) ← cronWalk budget fuel s iter
            some (s, .visited cli :: .closed cli :: events)
          else
            let (s, events) ← cronWalk budget fuel s iter
            some (s, .visited cli :: events)

/-- `server_cron` when `time(NULL)` is `now`. -/
def LinkedProc.serverCron (fuel : Nat) (s : LinkedProc) (now : Int) :
    Option (LinkedProc × List CronEvent) :=
  cronWalk fuel fuel { s with unixClock := now } (dlistRewind s.clients)

/-- The connection has been idle for longer than the timeout. -/
def idleAt (heap : Nat → Option ClientConn) (timeout now : Int) (cli : Nat) : Bool :=
  (heap cli).any fun c => timeout < now - c.accessTime

/-- What the timer does with a connection. -/
def cronEvents (idle : Nat → Bool) (cli : Nat) : List CronEvent :=
  if idle cli then [.visited cli, .closed cli] else [.visited cli]

/-- The state that `close_client` leaves, with the list without the connection. -/
def LinkedProc.drop (s : LinkedProc) (dl : Dlist Nat) (cli fd : Nat) : LinkedProc :=
  { s with
    ael := aeDeleteFileEvent (aeDeleteFileEvent s.ael fd aeReadable) fd aeWritable
    connVec := Function.update s.connVec fd 0
    fdOpen := Function.update s.fdOpen fd false
    heap := Function.update s.heap cli none
    clients := dl }

section Close

variable {s : LinkedProc} {before after : List (Nat × Nat)} {addr cli : Nat} {c : ClientConn}

/-- `close_client` finds the node of the connection, and leaves the list of the others. -/
theorem LinkedProc.closeClient_eq
    (listed : s.clients.Entries (before ++ (addr, cli) :: after))
    (other : cli ∉ before.map Prod.snd) (live : s.heap cli = some c) :
    ∃ dl, dl.Entries (before ++ after) ∧ ∀ fuel, before.length < fuel →
      s.closeClient fuel cli = some (s.drop dl cli c.fd) := by
  obtain ⟨dl, deleted, kept⟩ := listed.delete
  refine ⟨dl, kept, ?_⟩
  intro fuel enough
  unfold LinkedProc.closeClient freeClient freeClientNode
  simp only [Option.bind_eq_bind, live, Option.bind_some, listed.searchKey other enough, deleted,
    Option.map_some]
  rfl

/-- On the sequence of the connections, `close_client` does the same. -/
theorem closeClient_toConn (other : cli ∉ before.map Prod.snd) (live : s.heap cli = some c)
    (dl : Dlist Nat) :
    Verben.closeClient (s.toConn ((before ++ (addr, cli) :: after).map Prod.snd)) cli =
      some ((s.drop dl cli c.fd).toConn ((before ++ after).map Prod.snd), [.closed cli]) := by
  have split : (before ++ (addr, cli) :: after).map Prod.snd =
      before.map Prod.snd ++ cli :: after.map Prod.snd := by
    rw [List.map_append, List.map_cons]
  have mem : cli ∈ (s.toConn (before.map Prod.snd ++ cli :: after.map Prod.snd)).clients :=
    List.mem_append_right _ List.mem_cons_self
  have erased : (before.map Prod.snd ++ cli :: after.map Prod.snd).erase cli =
      (before ++ after).map Prod.snd := by
    rw [List.erase_append_right _ other, List.erase_cons_head, List.map_append]
  have live' : (s.toConn (before.map Prod.snd ++ cli :: after.map Prod.snd)).heap cli = some c :=
    live
  unfold Verben.closeClient
  rw [split, live', Option.bind_some, if_pos mem]
  unfold LinkedProc.toConn LinkedProc.drop ConnProc.drop
  rw [erased]

/-- A step of the walk: the iterator goes on to the next node before the body runs. -/
theorem cronWalk_cons (listed : s.clients.Entries (before ++ (addr, cli) :: after))
    (live : s.heap cli = some c) (budget fuel : Nat) :
    cronWalk budget (fuel + 1) s ⟨first ((addr, cli) :: after), .head⟩ =
      if s.clientTimeout ≠ 0 ∧ s.clientTimeout < s.unixClock - c.accessTime then
        (s.closeClient budget cli).bind fun s =>
          (cronWalk budget fuel s ⟨first after, .head⟩).map fun (s, events) =>
            (s, .visited cli :: .closed cli :: events)
      else
        (cronWalk budget fuel s ⟨first after, .head⟩).map fun (s, events) =>
          (s, .visited cli :: events) := by
  obtain ⟨_, node, _⟩ := listed.node
  rw [cronWalk]
  simp only [listed.next_cons, node, live, Option.bind_eq_bind, Option.bind_some]
  split
  · cases s.closeClient budget cli with
    | none => rfl
    | some s' => exact Option.map_eq_bind.symm
  · exact Option.map_eq_bind.symm

end Close

end Verben
