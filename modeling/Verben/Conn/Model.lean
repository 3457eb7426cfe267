import Verben.Ae.Model
import Verben.Sds.Model

/-!
# The connection process

`src/conn.c`, built with `DEBUG` as the Makefile builds it. The process keeps each
connection in a `client_conn` on the heap, and finds it again in three places: the
list `clients`, the vector `conn_vec` indexed by fd, and the client data of the
fd's file events.

A callback takes the process to its next state and gives the list of what it did
to the connections (`ConnEvent`). It has no result where the process would stop:
where an assertion fails, `raise` is called, a string operation aborts, or memory
is accessed that is not a live object. What the kernel, `malloc`, the queues and
the plugin answer are arguments. Strings and vectors find the memory they need.
-/

namespace Verben

open CInt

/-- `IOBUF_SIZE`. -/
def iobufSize : Nat := 4096

/-- `MAX_PROT_LEN`. -/
def maxProtLen : Int := 4096

/-- `VERBEN_ERROR`. -/
def verbenError : Int := 1

/-- `VERBEN_CONN_CLOSE`. -/
def verbenConnClose : Int := 2

/-- `CONN_MSG_MAGIC`. -/
def connMsgMagic : Nat := 0x567890EF

/-- `CONN_MAGIC_DEBUG`. -/
def connMagicDebug : Nat := 0x1234ABCD

/-- `client_conn`. -/
structure ClientConn : Type where
  magic : Nat
  fd : Nat
  closeConn : Bool
  remoteIp : String
  remotePort : Int
  recvProtLen : Int
  sendbuf : Sds
  recvbuf : Sds
  accessTime : Int
  deriving DecidableEq

/-- `shm_msg`, with the bytes behind it. `closeConn` is unset until a worker sets it. -/
structure ShmMsg : Type where
  cli : Nat
  fd : Nat
  identi : Nat
  magic : Nat
  pid : Int
  remoteIp : String
  remotePort : Int
  closeConn : Option Bool
  data : List UInt8
  deriving DecidableEq

/-- The callbacks of the process. -/
inductive FileProc : Type
  | acceptHandler
  | notifierHandler
  | readFromClient
  | writeToClient
  deriving DecidableEq

/-- The state of the process. Pointers to `client_conn` are numbers, 0 is `NULL`,
and the heap has the structures that are allocated. `fdOpen` is the kernel's. -/
structure ConnProc : Type where
  heap : Nat → Option ClientConn
  clients : List Nat
  connVec : Nat → Nat
  ael : AeEventLoop FileProc Nat
  fdOpen : Nat → Bool
  clientLimit : Int
  clientTimeout : Int
  unixClock : Int
  connPid : Int
  identifier : Nat

/-- What a callback did to a connection. -/
inductive ConnEvent : Type
  | opened (cli fd : Nat)
  | received (cli : Nat) (bytes : List UInt8)
  | answered (cli : Nat) (len : Int)
  | pushed (msg : ShmMsg)
  | closeAsked (cli : Nat)
  | appended (cli : Nat) (bytes : List UInt8)
  | wrote (cli : Nat) (bytes : List UInt8)
  | closed (cli : Nat)
  deriving DecidableEq

/-- The process after a callback, and what the callback did. -/
abbrev ConnResult : Type := Option (ConnProc × List ConnEvent)

/-- `*cli = c`. -/
def ConnProc.setClient (p : ConnProc) (cli : Nat) (c : ClientConn) : ConnProc :=
  { p with heap := Function.update p.heap cli (some c) }

/-- `close(fd)`. -/
def ConnProc.closeFd (p : ConnProc) (fd : Nat) : ConnProc :=
  { p with fdOpen := Function.update p.fdOpen fd false }

/-- The callback's events come after those before it. -/
def ConnResult.after (events : List ConnEvent) (result : ConnResult) : ConnResult :=
  result.map fun done => (done.1, events ++ done.2)

/-! ## Closing -/

/-- The state that `close_client` leaves. -/
def ConnProc.drop (p : ConnProc) (cli fd : Nat) : ConnProc :=
  { p with
    ael := aeDeleteFileEvent (aeDeleteFileEvent p.ael fd aeReadable) fd aeWritable
    connVec := Function.update p.connVec fd 0
    fdOpen := Function.update p.fdOpen fd false
    heap := Function.update p.heap cli none
    clients := p.clients.erase cli }

/-- `close_client`, with `free_client`: `dlist_delete_node` needs the node that
`dlist_search_key` looks for. -/
def closeClient (p : ConnProc) (cli : Nat) : ConnResult :=
  (p.heap cli).bind fun c =>
    if cli ∈ p.clients then some (p.drop cli c.fd, [.closed cli]) else none

/-! ## Reading -/

/-- The answer of `read`: bytes, none of them at the end of the stream; `EAGAIN`;
or another error. -/
inductive ReadResult : Type
  | data (bytes : List UInt8)
  | again
  | error

/-- What one call of `read_from_client` depends on: the answers of `read` and of
`handle_input`, and whether `malloc` and `shmq_push` succeed. -/
structure ReadEnv : Type where
  result : ReadResult
  handleInput : List UInt8 → Int
  mallocOk : Bool
  pushOk : Bool

/-- Append the bytes to `recvbuf`, and ask `handle_input` for an unknown length. -/
def ClientConn.receive (c : ClientConn) (bytes : List UInt8) (handleInput : List UInt8 → Int) :
    Option ClientConn :=
  (sdscatlen c.recvbuf bytes).map fun recvbuf =>
    { c with
      recvbuf := recvbuf
      recvProtLen := if c.recvProtLen = 0 then handleInput recvbuf.content else c.recvProtLen }

/-- Where the comparisons of `read_from_client` lead. -/
inductive Verdict : Type
  | invalid
  | wait
  | frame (data : List UInt8)

/-- The verdict on `recv_prot_len`, with the bytes that `memcpy` copies from
`recvbuf`. The comparison with `sdslen` converts the `int` to `size_t`. -/
def ClientConn.verdict (c : ClientConn) : Option Verdict :=
  if c.recvProtLen < 0 ∨ maxProtLen < c.recvProtLen then
    some .invalid
  else if c.recvProtLen = 0 then
    some .wait
  else if toUInt64 c.recvProtLen ≤ sdslen c.recvbuf then
    (c.recvbuf.buf.load 0 c.recvProtLen).map .frame
  else
    some .wait

/-- Drop a frame that was pushed. -/
def ClientConn.consume (c : ClientConn) : Option ClientConn :=
  (sdsrange c.recvbuf c.recvProtLen (-1)).map fun recvbuf =>
    { c with recvbuf := recvbuf, recvProtLen := 0 }

/-- The message for a frame. -/
def ConnProc.message (p : ConnProc) (cli : Nat) (c : ClientConn) (data : List UInt8) : ShmMsg where
  cli := cli
  fd := c.fd
  identi := p.identifier
  magic := connMsgMagic
  pid := p.connPid
  remoteIp := c.remoteIp
  remotePort := c.remotePort
  closeConn := none
  data := data

/-- `identifier++`. -/
def ConnProc.nextIdentifier (p : ConnProc) : ConnProc :=
  { p with identifier := (p.identifier + 1) % 2 ^ 32 }

/-- The answer of `handle_input`, if it was called. -/
def answeredEvents (cli : Nat) (before after : ClientConn) : List ConnEvent :=
  if before.recvProtLen = 0 then [.answered cli after.recvProtLen] else []

/-- `read_from_client` behind its call of `handle_input`. -/
def dispatchFrame (p : ConnProc) (cli : Nat) (c : ClientConn) (env : ReadEnv) : ConnResult :=
  c.verdict.bind fun verdict =>
    match verdict with
    | .invalid => closeClient p cli
    | .wait => some (p, [])
    | .frame data =>
        if env.mallocOk then
          if env.pushOk then
            c.consume.map fun c' =>
              (p.nextIdentifier.setClient cli c', [.pushed (p.message cli c data)])
          else
            closeClient p.nextIdentifier cli
        else
          closeClient p cli

/-- `read_from_client`. The terminating NUL goes to `buf[nread]`, which a read of
`IOBUF_SIZE` bytes does not have. -/
def readFromClient (p : ConnProc) (cli : Nat) (env : ReadEnv) : ConnResult :=
  (p.heap cli).bind fun old =>
    let c := { old with accessTime := p.unixClock }
    match env.result with
    | .again => some (p.setClient cli c, [])
    | .error => closeClient (p.setClient cli c) cli
    | .data [] => closeClient (p.setClient cli c) cli
    | .data bytes =>
        if iobufSize ≤ bytes.length then
          none
        else
          (c.receive bytes env.handleInput).bind fun c' =>
            (dispatchFrame (p.setClient cli c') cli c' env).after
              (.received cli bytes :: answeredEvents cli c c')

/-! ## Writing -/

/-- The answer of `write`: how many bytes it took, `EAGAIN`, or another error. -/
inductive WriteResult : Type
  | wrote (n : Nat)
  | again
  | error

/-- `write_to_client` behind its call of `write`. -/
def finishWrite (p : ConnProc) (cli : Nat) (c : ClientConn) (nwrite : Nat) : ConnResult :=
  if (nwrite : Int) = sdslen c.sendbuf then
    (sdsclear c.sendbuf).bind fun sendbuf =>
      let p := { p with ael := aeDeleteFileEvent p.ael c.fd aeWritable }
      let p := p.setClient cli { c with sendbuf := sendbuf }
      if c.closeConn then closeClient p cli else some (p, [])
  else
    (sdsrange c.sendbuf nwrite (-1)).map fun sendbuf =>
      (p.setClient cli { c with sendbuf := sendbuf }, [])

/-- `write_to_client`. `write` takes no more bytes than it is given. -/
def writeToClient (p : ConnProc) (cli : Nat) (result : WriteResult) : ConnResult :=
  (p.heap cli).bind fun old =>
    let c := { old with accessTime := p.unixClock }
    match result with
    | .error => closeClient (p.setClient cli c) cli
    | .again => finishWrite (p.setClient cli c) cli c 0
    | .wrote n =>
        if (n : Int) ≤ sdslen c.sendbuf then
          (c.sendbuf.buf.load 0 n).bind fun bytes =>
            (finishWrite (p.setClient cli c) cli c n).after [.wrote cli bytes]
        else
          none

/-! ## Appending to `sendbuf` -/

/-- Set `close_conn`. -/
def ConnProc.setCloseConn (p : ConnProc) (cli : Nat) (c : ClientConn) (closeConn : Bool) :
    ConnProc :=
  p.setClient cli { c with closeConn := closeConn }

/-- The event for a request to close. -/
def askedEvents (cli : Nat) (closeConn : Bool) : List ConnEvent :=
  if closeConn then [.closeAsked cli] else []

/-- Append to `sendbuf` and register `write_to_client`; `close_client` where that
fails. `accept_common_handler` and `notifier_handler` do this alike. -/
def appendSendbuf (p : ConnProc) (cli : Nat) (data : List UInt8) (addOk : Bool) : ConnResult :=
  (p.heap cli).bind fun c =>
    (sdscatlen c.sendbuf data).bind fun sendbuf =>
      let p := p.setClient cli { c with sendbuf := sendbuf }
      ConnResult.after [.appended cli data] <|
        match aeCreateFileEvent p.ael c.fd aeWritable .writeToClient cli addOk with
        | none => closeClient p cli
        | some ael => some ({ p with ael := ael }, [])

/-! ## Accepting -/

/-- What `create_client` depends on: the address that `malloc` returns, and whether
the file event and the list node can be added; `time(NULL)`. -/
structure CreateEnv : Type where
  addr : Option Nat
  addOk : Bool
  nodeOk : Bool
  time : Int

/-- The connection that `create_client` fills in. -/
def newClient (p : ConnProc) (cliFd : Nat) (cliIp : String) (cliPort : Int) (time : Int) :
    ClientConn where
  magic := connMagicDebug
  fd := cliFd
  closeConn := false
  remoteIp := cliIp
  remotePort := cliPort
  recvProtLen := 0
  sendbuf := sdsempty
  recvbuf := sdsempty
  accessTime := if p.unixClock ≠ 0 then p.unixClock else time

/-- `create_client`: the connection, or `NULL`. -/
def createClient (p : ConnProc) (cliFd : Nat) (cliIp : String) (cliPort : Int) (env : CreateEnv) :
    Option Nat × ConnProc :=
  match env.addr with
  | none => (none, p)
  | some cli =>
      match aeCreateFileEvent p.ael cliFd aeReadable .readFromClient cli env.addOk with
      | none => (none, p.closeFd cliFd)
      | some ael =>
          if env.nodeOk then
            (some cli, { p with
              ael := ael
              heap := Function.update p.heap cli (some (newClient p cliFd cliIp cliPort env.time))
              clients := p.clients ++ [cli]
              connVec := Function.update p.connVec cliFd cli })
          else
            (none, { p with ael := aeDeleteFileEvent ael cliFd aeReadable }.closeFd cliFd)

/-- The answer of `handle_open`: its return value, and the bytes at `retbuf` unless
that is `NULL`. -/
structure OpenAnswer : Type where
  ret : Int
  retbuf : Option (List UInt8)

/-- What `accept_common_handler` depends on. A plugin without `handle_open` gives no
answer. -/
structure AcceptEnv : Type extends CreateEnv where
  handleOpen : Option OpenAnswer
  writeOk : Bool

/-- `accept_common_handler` behind its call of `handle_open`. -/
def openAnswered (p : ConnProc) (cli : Nat) (answer : OpenAnswer) (writeOk : Bool) : ConnResult :=
  if answer.ret = verbenError then
    closeClient p cli
  else
    (p.heap cli).bind fun c =>
      let closeConn : Bool := answer.ret = verbenConnClose
      let p := p.setCloseConn cli c closeConn
      ConnResult.after (askedEvents cli closeConn) <|
        match answer.retbuf with
        | none => some (p, [])
        | some data => appendSendbuf p cli data writeOk

/-- `accept_common_handler`. The limit is compared as an `unsigned int`. -/
def acceptCommonHandler (p : ConnProc) (cliFd : Nat) (cliIp : String) (cliPort : Int)
    (env : AcceptEnv) : ConnResult :=
  match createClient p cliFd cliIp cliPort env.toCreateEnv with
  | (none, p) => some (p.closeFd cliFd, [])
  | (some cli, p) =>
      ConnResult.after [.opened cli cliFd] <|
        if p.clientLimit ≠ 0 ∧ toUInt32 p.clientLimit < p.clients.length then
          closeClient p cli
        else
          match env.handleOpen with
          | none => some (p, [])
          | some answer => openAnswered p cli answer env.writeOk

/-! ## Responses -/

/-- One pass of the loop in `notifier_handler`, on a message that `shmq_pop` gave. -/
def notifierMessage (p : ConnProc) (msg : ShmMsg) (addOk : Bool) : ConnResult :=
  if msg.magic ≠ connMsgMagic then
    none
  else if p.connPid ≠ msg.pid then
    some (p, [])
  else if p.connVec msg.fd ≠ msg.cli then
    some (p, [])
  else
    (p.heap msg.cli).bind fun c =>
      if c.magic ≠ connMagicDebug then
        none
      else
        msg.closeConn.bind fun closeConn =>
          (appendSendbuf (p.setCloseConn msg.cli c closeConn) msg.cli msg.data addOk).after
            (askedEvents msg.cli closeConn)

/-! ## Timeouts -/

/-- The connection is idle for too long. -/
def ConnProc.TimedOut (p : ConnProc) (c : ClientConn) : Prop :=
  p.clientTimeout ≠ 0 ∧ p.clientTimeout < p.unixClock - c.accessTime

instance (p : ConnProc) (c : ClientConn) : Decidable (p.TimedOut c) :=
  inferInstanceAs (Decidable (_ ∧ _))

/-- The loop of `server_cron` over the nodes from an iterator. `dlist_next` moves
the iterator on before the body can delete the node. -/
def cronLoop (p : ConnProc) : List Nat → ConnResult
  | [] => some (p, [])
  | cli :: rest =>
      (p.heap cli).bind fun c =>
        if p.TimedOut c then
          (closeClient p cli).bind fun done => (cronLoop done.1 rest).after done.2
        else
          cronLoop p rest

/-- `server_cron` when `time(NULL)` is `now`. -/
def serverCron (p : ConnProc) (now : Int) : ConnResult :=
  cronLoop { p with unixClock := now } p.clients

/-! ## The process -/

/-- What `conn_process_cycle` starts with. The process's own fds are open. -/
structure ConnBoot : Type where
  listenFd : Nat
  notifierFd : Nat
  fdOpen : Nat → Bool
  listenOpen : fdOpen listenFd = true
  notifierOpen : fdOpen notifierFd = true
  clientLimit : Int
  clientTimeout : Int
  connPid : Int

/-- The entry of a listening fd. -/
def bootEvent (proc : FileProc) : AeFileEvent FileProc Nat := ⟨aeReadable, some proc, none, some 0⟩

/-- The process when it enters `ae_main`: both its own fds are registered. -/
def ConnProc.init (boot : ConnBoot) : ConnProc where
  heap := fun _ => none
  clients := []
  connVec := fun _ => 0
  ael := {
    maxfd := max boot.listenFd boot.notifierFd
    events := Function.update
      (Function.update (fun _ => ⟨aeNone, none, none, none⟩) boot.notifierFd
        (bootEvent .notifierHandler))
      boot.listenFd (bootEvent .acceptHandler) }
  fdOpen := boot.fdOpen
  clientLimit := boot.clientLimit
  clientTimeout := boot.clientTimeout
  unixClock := 0
  connPid := boot.connPid
  identifier := 0

/-- A step of the process: a connection that `accept` gives, a file event of a
client that fires, a message, or the timer. -/
inductive ConnAct : Type
  | accept (fd : Nat) (ip : String) (port : Int) (env : AcceptEnv)
  | readable (fd : Nat) (env : ReadEnv)
  | writable (fd : Nat) (result : WriteResult)
  | message (msg : ShmMsg) (addOk : Bool)
  | cron (now : Int)

/-- `malloc` returns an address that is not in use. -/
def ConnProc.FreshAddr (p : ConnProc) : Option Nat → Prop
  | none => True
  | some cli => cli ≠ 0 ∧ p.heap cli = none

instance (p : ConnProc) : (addr : Option Nat) → Decidable (p.FreshAddr addr)
  | none => inferInstanceAs (Decidable True)
  | some _ => inferInstanceAs (Decidable (_ ∧ _))

/-- A step. The kernel gives a new connection an fd that is not open, and file
events fire for registered masks only. -/
def ConnProc.step (p : ConnProc) : ConnAct → ConnResult
  | .accept fd ip port env =>
      if p.fdOpen fd = false ∧ p.FreshAddr env.addr then
        acceptCommonHandler { p with fdOpen := Function.update p.fdOpen fd true } fd ip port env
      else
        none
  | .readable fd env =>
      let fe := p.ael.events fd
      if fe.mask.readable ∧ fe.rFileProc = some .readFromClient then
        fe.clientData.bind fun cli => readFromClient p cli env
      else
        none
  | .writable fd result =>
      let fe := p.ael.events fd
      if fe.mask.writable ∧ fe.wFileProc = some .writeToClient then
        fe.clientData.bind fun cli => writeToClient p cli result
      else
        none
  | .message msg addOk => notifierMessage p msg addOk
  | .cron now => serverCron p now

end Verben
