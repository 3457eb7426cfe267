import Verben.Ae.Model
import Verben.Lib.CInt
import Verben.Lib.Transition

/-!
# The benchmark

`src/echo_benchmark.c`: a number of clients send the same request over and over, and wait for as
many bytes as they have sent, until enough requests are answered. A step is a callback of one
client, with what the kernel answers to the callback's calls.
-/

namespace Verben

open CInt Transition

/-- The callbacks. -/
inductive BenchProc : Type
  | readHandler
  | writeHandler
  deriving DecidableEq

/-- `client`, but for the times it takes. -/
structure BenchClient : Type where
  fd : Nat
  obuf : List UInt8
  written : Nat
  read : Nat
  deriving DecidableEq

/-- `conf`, with the values of the nodes of `clients`; `quit`; and the clients in memory and the
open descriptors. -/
structure Bench : Type where
  el : AeEventLoop BenchProc Nat
  numClients : Int
  liveClients : Int
  requests : Int
  requestsIssued : Int
  requestsFinished : Int
  keepAlive : Bool
  clients : List Nat
  quit : Bool
  heap : Nat → Option BenchClient
  fdOpen : Nat → Bool

/-- Why a callback does not return: it calls `exit`; it uses a client that is freed, or an
`assert` fails; or what it is answered is nothing that the kernel and `malloc` answer. -/
inductive BenchStop : Type
  | exited
  | broken
  | unreal
  deriving DecidableEq

abbrev BenchResult : Type := Except BenchStop Bench

/-- `*cli`. -/
def Bench.client (b : Bench) (cli : Nat) : Except BenchStop BenchClient :=
  match b.heap cli with
  | some c => .ok c
  | none => .error .broken

/-- `*cli = c`. -/
def Bench.setClient (b : Bench) (cli : Nat) (c : BenchClient) : Bench :=
  { b with heap := Function.update b.heap cli (some c) }

/-- `ae_create_file_event`, whose result is not looked at. -/
def Bench.listen (b : Bench) (fd : Nat) (mask : AeMask) (proc : BenchProc) (cli : Nat)
    (addOk : Bool) : Bench :=
  { b with el := (aeCreateFileEvent b.el fd mask proc cli addOk).getD b.el }

/-- `ae_delete_file_event`. -/
def Bench.ignore (b : Bench) (fd : Nat) (mask : AeMask) : Bench :=
  { b with el := aeDeleteFileEvent b.el fd mask }

/-- `free_client`. -/
def freeBenchClient (b : Bench) (cli : Nat) : BenchResult :=
  (b.client cli).bind fun c =>
    let b := (b.ignore c.fd aeWritable).ignore c.fd aeReadable
    if cli ∈ b.clients then
      .ok { b with
        fdOpen := Function.update b.fdOpen c.fd false
        liveClients := toInt32 (b.liveClients - 1)
        clients := b.clients.erase cli
        heap := Function.update b.heap cli none }
    else
      .error .broken

/-- What a new client gets: the descriptor of its connection, its address, and whether
`ae_api_add_event` succeeds. -/
structure ConnectAnswer : Type where
  fd : Nat
  addr : Nat
  addOk : Bool
  deriving DecidableEq

/-- `create_client`, where `none` says that the connection fails. Memory does not run out. -/
def createBenchClient (b : Bench) (content : List UInt8) : Option ConnectAnswer → BenchResult
  | none => .error .exited
  | some answer =>
      if b.fdOpen answer.fd = false ∧ b.heap answer.addr = none then
        let b := { b with fdOpen := Function.update b.fdOpen answer.fd true }
        let b := b.setClient answer.addr ⟨answer.fd, content, 0, 0⟩
        let b := b.listen answer.fd aeWritable .writeHandler answer.addr answer.addOk
        .ok { b with
          clients := b.clients ++ [answer.addr]
          liveClients := toInt32 (b.liveClients + 1) }
      else
        .error .unreal

/-- `create_missing_clients`, with an answer for every new client. -/
def createMissingClients (b : Bench) (cli : Nat) : List (Option ConnectAnswer) → BenchResult
  | [] => if b.liveClients < b.numClients then .error .unreal else .ok b
  | answer :: answers =>
      if b.liveClients < b.numClients then
        (b.client cli).bind fun c =>
          (createBenchClient b c.obuf answer).bind fun b => createMissingClients b cli answers
      else
        .ok b

/-- `reset_client`. -/
def resetBenchClient (b : Bench) (cli : Nat) (addOk : Bool) : BenchResult :=
  (b.client cli).map fun c =>
    let b := (b.ignore c.fd aeWritable).ignore c.fd aeReadable
    let b := b.listen c.fd aeWritable .writeHandler cli addOk
    b.setClient cli { c with written := 0, read := 0 }

/-- What the calls behind an answered request meet: the new clients, and whether
`ae_api_add_event` succeeds. -/
structure DoneEnv : Type where
  connects : List (Option ConnectAnswer)
  addOk : Bool

/-- `client_done`. -/
def clientDone (b : Bench) (cli : Nat) (env : DoneEnv) : BenchResult :=
  if b.requestsFinished = b.requests then
    (freeBenchClient b cli).map fun b => { b with quit := true }
  else if b.keepAlive then
    resetBenchClient b cli env.addOk
  else
    let b := { b with liveClients := toInt32 (b.liveClients - 1) }
    (createMissingClients b cli env.connects).bind fun b =>
      freeBenchClient { b with liveClients := toInt32 (b.liveClients + 1) } cli

/-- What `read` returns: a number of bytes, nothing yet, or that there is no more, or an error. -/
inductive BenchRead : Type
  | data (nread : Nat)
  | again
  | ended
  deriving DecidableEq

/-- `read_handler`. -/
def readHandler (b : Bench) (cli : Nat) (answer : BenchRead) (env : DoneEnv) : BenchResult :=
  match answer with
  | .again => .ok b
  | .ended => .error .exited
  | .data nread =>
      if 0 < nread ∧ nread ≤ 4096 then
        (b.client cli).bind fun c =>
          let c := { c with read := (c.read + nread) % 2 ^ 32 }
          let b := b.setClient cli c
          if c.read = c.obuf.length then
            clientDone { b with requestsFinished := toInt32 (b.requestsFinished + 1) } cli env
          else
            .ok b
      else
        .error .unreal

/-- What `write` returns: a number of bytes, or an error. -/
inductive BenchWrite : Type
  | wrote (nwritten : Nat)
  | failed
  deriving DecidableEq

/-- `write_handler` from the second `if` on. -/
def writeRequest (b : Bench) (cli : Nat) (answer : BenchWrite) (addOk : Bool) : BenchResult :=
  (b.client cli).bind fun c =>
    if c.written < c.obuf.length then
      match answer with
      | .failed => freeBenchClient b cli
      | .wrote nwritten =>
          if 0 < nwritten ∧ nwritten ≤ c.obuf.length - c.written then
            let c := { c with written := c.written + nwritten }
            let b := b.setClient cli c
            if c.written = c.obuf.length then
              .ok ((b.ignore c.fd aeWritable).listen c.fd aeReadable .readHandler cli addOk)
            else
              .ok b
          else
            .error .unreal
    else
      .ok b

/-- `write_handler`. -/
def writeHandler (b : Bench) (cli : Nat) (answer : BenchWrite) (addOk : Bool) : BenchResult :=
  (b.client cli).bind fun c =>
    if c.written = 0 then
      let issued := b.requestsIssued
      let b := { b with requestsIssued := toInt32 (b.requestsIssued + 1) }
      if b.requests ≤ issued then
        freeBenchClient b cli
      else
        writeRequest b cli answer addOk
    else
      writeRequest b cli answer addOk

/-- An event of a client, with what its callback is answered. -/
inductive BenchAct : Type
  | readable (fd : Nat) (answer : BenchRead) (env : DoneEnv)
  | writable (fd : Nat) (answer : BenchWrite) (addOk : Bool)

/-- The callback for an event, called with what is registered. -/
def Bench.fire (b : Bench) : BenchAct → BenchResult
  | .readable fd answer env =>
      let fe := b.el.events fd
      if fe.mask.readable then
        match fe.rFileProc, fe.clientData with
        | some .readHandler, some cli => readHandler b cli answer env
        | _, _ => .error .broken
      else
        .error .unreal
  | .writable fd answer addOk =>
      let fe := b.el.events fd
      if fe.mask.writable then
        match fe.wFileProc, fe.clientData with
        | some .writeHandler, some cli => writeHandler b cli answer addOk
        | _, _ => .error .broken
      else
        .error .unreal

/-- A callback that returns. -/
def Bench.step (b : Bench) (act : BenchAct) : Option Bench := (b.fire act).toOption

/-- `conf` when `benchmark` is called. -/
def Bench.init (numClients requests : Int) (keepAlive : Bool) (fdOpen : Nat → Bool) : Bench where
  el := aeCreateEventLoop
  numClients := numClients
  liveClients := 0
  requests := requests
  requestsIssued := 0
  requestsFinished := 0
  keepAlive := keepAlive
  clients := []
  quit := false
  heap := fun _ => none
  fdOpen := fdOpen

/-- `benchmark`, up to `ae_main`. -/
def Bench.start (b : Bench) (content : List UInt8) (answer : Option ConnectAnswer)
    (answers : List (Option ConnectAnswer)) : BenchResult :=
  (createBenchClient b content answer).bind fun b =>
    match b.clients.getLast? with
    | some c => createMissingClients b c answers
    | none => .error .broken

/-- The loop of `free_all_clients` over the nodes. -/
def freeAllLoop (b : Bench) : List Nat → BenchResult
  | [] => .ok b
  | cli :: rest => (freeBenchClient b cli).bind fun b => freeAllLoop b rest

/-- `free_all_clients`. -/
def freeAllClients (b : Bench) : BenchResult := freeAllLoop b b.clients

end Verben
