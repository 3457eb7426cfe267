import Verben.Ae.Follow
import Verben.Conn.Model

/-!
# What the connection process asks of the kernel

For each callback of `src/conn.c`, the calls that it makes to the event loop and the descriptors
that it opens and closes, in order. `ConnKernel` is the process with the event loop and the
kernel that get these calls.
-/

namespace Verben

open CInt Transition

/-- A call about a descriptor of the process. -/
abbrev ConnCall : Type := AeFdCall FileProc Nat

variable (p : ConnProc) (cli : Nat)

/-- The calls of `close_client`. -/
def closeCalls (fd : Nat) : List ConnCall :=
  [.delete fd aeReadable, .delete fd aeWritable, .closed fd]

/-- `read_from_client` behind its call of `handle_input`. -/
def dispatchCalls (c : ClientConn) (env : ReadEnv) : List ConnCall :=
  match c.verdict with
  | some (.frame _) => if env.mallocOk ∧ env.pushOk then [] else closeCalls c.fd
  | some .invalid => closeCalls c.fd
  | _ => []

/-- `read_from_client`. -/
def readCalls (env : ReadEnv) : List ConnCall :=
  match p.heap cli with
  | none => []
  | some c =>
    match env.result with
    | .again => []
    | .error => closeCalls c.fd
    | .data [] => closeCalls c.fd
    | .data bytes =>
      match { c with accessTime := p.unixClock }.receive bytes env.handleInput with
      | none => []
      | some c' => dispatchCalls c' env

/-- `write_to_client` behind its call of `write`. -/
def finishCalls (c : ClientConn) (nwrite : Nat) : List ConnCall :=
  if (nwrite : Int) = sdslen c.sendbuf then
    .delete c.fd aeWritable :: if c.closeConn then closeCalls c.fd else []
  else
    []

/-- `write_to_client`. -/
def writeCalls (result : WriteResult) : List ConnCall :=
  match p.heap cli with
  | none => []
  | some c =>
    match result with
    | .error => closeCalls c.fd
    | .again => finishCalls c 0
    | .wrote n => finishCalls c n

/-- Appending to `sendbuf`. -/
def appendCalls (el : AeEventLoop FileProc Nat) (fd : Nat) (addOk : Bool) : List ConnCall :=
  .create fd aeWritable .writeToClient cli addOk ::
    match aeCreateFileEvent el fd aeWritable FileProc.writeToClient cli addOk with
    | none => closeCalls fd
    | some _ => []

/-- `create_client`. -/
def createCalls (cliFd : Nat) (env : CreateEnv) : List ConnCall :=
  match env.addr with
  | none => []
  | some cli =>
    .create cliFd aeReadable .readFromClient cli env.addOk ::
      match aeCreateFileEvent p.ael cliFd aeReadable FileProc.readFromClient cli env.addOk with
      | none => [.closed cliFd]
      | some _ => if env.nodeOk then [] else [.delete cliFd aeReadable, .closed cliFd]

/-- `accept_common_handler` behind its call of `handle_open`. -/
def openCalls (el : AeEventLoop FileProc Nat) (fd : Nat) (answer : OpenAnswer) (writeOk : Bool) :
    List ConnCall :=
  if answer.ret = verbenError then closeCalls fd
  else
    match answer.retbuf with
    | none => []
    | some _ => appendCalls cli el fd writeOk

/-- `accept_common_handler`. -/
def acceptCalls (cliFd : Nat) (cliIp : String) (cliPort : Int) (env : AcceptEnv) :
    List ConnCall :=
  createCalls p cliFd env.toCreateEnv ++
    match createClient p cliFd cliIp cliPort env.toCreateEnv with
    | (none, _) => [.closed cliFd]
    | (some cli, p) =>
      if p.clientLimit ≠ 0 ∧ toUInt32 p.clientLimit < p.clients.length then closeCalls cliFd
      else
        match env.handleOpen with
        | none => []
        | some answer => openCalls cli p.ael cliFd answer env.writeOk

/-- One pass of the loop in `notifier_handler`. -/
def messageCalls (msg : ShmMsg) (addOk : Bool) : List ConnCall :=
  if p.connPid ≠ msg.pid ∨ p.connVec msg.fd ≠ msg.cli then []
  else
    match p.heap msg.cli with
    | none => []
    | some c => appendCalls msg.cli p.ael c.fd addOk

/-- The loop of `server_cron`. -/
def cronCalls (p : ConnProc) : List Nat → List ConnCall
  | [] => []
  | cli :: rest =>
    match p.heap cli with
    | none => []
    | some c =>
      if p.TimedOut c then
        match closeClient p cli with
        | none => []
        | some done => closeCalls c.fd ++ cronCalls done.1 rest
      else
        cronCalls p rest

/-- A step of the process. `accept` opens the descriptor. -/
def ConnProc.calls : ConnAct → List ConnCall
  | .accept fd ip port env =>
      .opened fd ::
        acceptCalls { p with fdOpen := Function.update p.fdOpen fd true } fd ip port env
  | .readable fd env =>
      match (p.ael.events fd).clientData with
      | none => []
      | some cli => readCalls p cli env
  | .writable fd result =>
      match (p.ael.events fd).clientData with
      | none => []
      | some cli => writeCalls p cli result
  | .message msg addOk => messageCalls p msg addOk
  | .cron now => cronCalls { p with unixClock := now } p.clients

/-- The process behind a step. -/
def ConnProc.moved (p : ConnProc) (act : ConnAct) : Option ConnProc := (p.step act).map Prod.fst

/-- The process, and the event loop with the kernel below it. -/
structure ConnKernel : Type where
  proc : ConnProc
  kernel : AeKernel FileProc Nat

/-- The kernel that follows an event loop. -/
def AeKernel.following (el : AeEventLoop FileProc Nat) (fdOpen : Nat → Bool) :
    AeKernel FileProc Nat where
  el := el
  fdOpen := fdOpen
  epoll := fun fd => if (el.events fd).mask = aeNone then none else some (el.events fd).mask
  kqueue := fun fd => (el.events fd).mask

def ConnKernel.init (boot : ConnBoot) : ConnKernel where
  proc := .init boot
  kernel := .following (ConnProc.init boot).ael boot.fdOpen

/-- A step, where no call of `epoll_ctl` or `kevent` fails but for room. -/
def ConnKernel.step (s : ConnKernel) (act : ConnAct) : Option ConnKernel :=
  (s.proc.step act).bind fun done =>
    (run AeKernel.step s.kernel (s.proc.calls act)).map fun kernel => ⟨done.1, kernel⟩

end Verben
