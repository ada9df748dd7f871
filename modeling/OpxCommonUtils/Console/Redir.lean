import OpxCommonUtils.Bits.Array
import OpxCommonUtils.Io.Transfer

/-!
# The console proxy (`src/std_cmd_redir.c`)

A service whose standard input and output are a socket, the console, and the thread that relays
between the console and one client at a time. While no client is there the thread throws the output
of the service away. A `Proxy` is the thread's data with the kernel's end of its descriptors; the
thread works in rounds, each one round of the loop it is in, and the service, the clients and the
kernel change their ends between two rounds.
-/

namespace OpxCommonUtils.Console

open Io

/-- `DEF_BUF_LEN`. -/
def DEF_BUF_LEN : Nat := 128

/-- The kernel's end of a stream socket: what is still to be read and what was written. `sent` is
all that the other side has sent. -/
structure Sock where
  sent : List UInt8
  reader : Peer
  writer : Peer
  isOpen : Bool
  deriving DecidableEq

/-- A new socket. -/
def Sock.new : Sock := ⟨[], ⟨[], []⟩, ⟨[], []⟩, true⟩

/-- The descriptors that are read and written; the number of a client is the number of the
connections before its own. -/
inductive Fd where
  | console
  | client (c : Nat)
  deriving DecidableEq

/-- How the kernel answers `select` on two descriptors. -/
inductive SelectAnswer where
  | eintr
  | fail
  | ready (first second : Bool)
  deriving DecidableEq

/-- How the kernel answers `accept`; `again` stands for `EINTR`, `EWOULDBLOCK` and `EAGAIN`. -/
inductive AcceptAnswer where
  | again
  | fail
  | connection
  deriving DecidableEq

/-- `redir_data_t` with the kernel's end of the descriptors; `clientSocket` is `none` for `-1`.
`running` says that the thread has not returned, `srvOpen` that its server socket is open. -/
structure Proxy where
  clientSocket : Option Nat
  clientFlagForClose : Bool
  mBuff : List UInt8
  console : Sock
  clients : List Sock
  srvOpen : Bool
  running : Bool
  deriving DecidableEq

/-- The data after `std_cmd_redir_init`, whose `memset` clears the buffer, once the server socket is
there (`std_cmd_redir.c:268-274`). -/
def Proxy.init : Proxy :=
  { clientSocket := none, clientFlagForClose := false, mBuff := List.replicate DEF_BUF_LEN 0,
    console := .new, clients := [], srvOpen := true, running := true }

/-- The socket of a descriptor, which must be open. -/
def Proxy.sock (d : Proxy) : Fd → Exec Sock
  | .console => if d.console.isOpen then .ok d.console else .error (.badPointer 0)
  | .client c =>
    match d.clients[c]? with
    | some s => if s.isOpen then .ok s else .error (.badPointer c)
    | none => .error (.badPointer c)

/-- The socket of a descriptor changes. -/
def Proxy.setSock (d : Proxy) (s : Sock) : Fd → Proxy
  | .console => { d with console := s }
  | .client c => { d with clients := d.clients.set c s }

/-- `close`. -/
def Proxy.close (d : Proxy) (fd : Fd) : Exec Proxy := do
  let s ← d.sock fd
  pure (d.setSock { s with isOpen := false } fd)

/-! ## System calls that are repeated -/

/-- A `read` behind the bytes that are already in the buffer. -/
def readOper (_ count : Nat) (w : List UInt8 × Peer) : Rc × List UInt8 × Peer :=
  let r := w.2.read count
  (r.1, w.1 ++ r.2.1, r.2.2)

/-- `std_read` without `require_all` (`std_file_utils.c:79-81`). -/
def stdReadSome (p : Peer) (len : Int) : Exec (Int × List UInt8 × Peer) :=
  fileOp readOper len false (p.answers.length + p.bytes.length + 1) STD_MAX_EINTR 0 ([], p)

/-- `std_write` with `require_all`, of the first bytes of a buffer (`std_file_utils.c:84-86`). -/
def stdWrite (p : Peer) (b : List UInt8) (len : Nat) : Exec (Int × Peer) :=
  fileOp (fun total count (p : Peer) => p.sendmsg [(b.drop total).take count]) len true
    (p.answers.length + len + 1) STD_MAX_EINTR 0 p

/-- What `std_select_ignore_intr` returns: `-1` with `EINTR` or another error, or the descriptors
that are ready. -/
inductive Selected where
  | interrupted
  | failed
  | ready (first second : Bool)
  deriving DecidableEq

/-- `std_select_ignore_intr` (`std_select.c:28-47`). A `select` that is not answered runs into its
timeout. -/
def stdSelectIgnoreIntr : (retries : Nat) → List SelectAnswer → Selected
  | 0, _ => .interrupted
  | _ + 1, [] => .ready false false
  | retries + 1, .eintr :: answers => stdSelectIgnoreIntr retries answers
  | _ + 1, .fail :: _ => .failed
  | _ + 1, .ready first second :: _ => .ready first second

/-- The number of descriptors that are ready. -/
def Selected.rc : Selected → Int
  | interrupted => -1
  | failed => -1
  | ready first second => first.toNat + second.toNat

/-! ## The thread -/

/-- `strlen` of an array. -/
def strlen (b : List UInt8) : Exec Nat :=
  let n := (b.takeWhile (· ≠ 0)).length
  if n < b.length then .ok n else .error (.badPointer n)

/-- Bytes that are put at the start of an array. -/
def store (b bs : List UInt8) : Exec (List UInt8) :=
  if bs.length ≤ b.length then .ok (bs ++ b.drop bs.length) else .error (.badPointer b.length)

/-- The `write` of the first `rc` bytes of the buffer: whether all of them were written. -/
def writeBuff (w : Fd) (rc : Nat) (d : Proxy) : Exec (Bool × Proxy) := do
  let s ← d.sock w
  let (trc, writer) := s.writer.sendmsg [d.mBuff.take rc]
  pure (decide (trc = .done rc), d.setSock { s with writer } w)

/-- `copy_to_fd` (`std_cmd_redir.c:83-97`): what it returns and the data. Nothing is written without
a second descriptor. -/
def copyToFd (rsock : Fd) (wsock : Option Fd) (d : Proxy) : Exec (Bool × Proxy) := do
  let r ← d.sock rsock
  let (rc, bs, reader) ← stdReadSome r.reader (d.mBuff.length - 1)
  let b ← store d.mBuff bs
  let d := { d.setSock { r with reader } rsock with mBuff := b }
  if 0 < rc then do
    let b ← Bits.changeAt d.mBuff rc.toNat fun _ => 0
    let d := { d with mBuff := b }
    match wsock with
    | none => pure (true, d)
    | some w => writeBuff w rc.toNat d
  else pure (false, d)

/-- `flush_console_fd` (`std_cmd_redir.c:99-103`). -/
def flushConsoleFd (ready : Bool) (d : Proxy) : Exec Proxy :=
  if ready then do
    let (_, d) ← copyToFd .console none d
    pure d
  else pure d

/-- `handle_server_socket` (`std_cmd_redir.c:105-124`): the new client, whether an error is stored
and the data. -/
def handleServerSocket (ready : Bool) (answer : AcceptAnswer) (d : Proxy) :
    Option Nat × Bool × Proxy :=
  if ready then
    match answer with
    | .connection => (some d.clients.length, false, { d with clients := d.clients ++ [.new] })
    | .again => (none, false, d)
    | .fail => (none, true, d)
  else (none, false, d)

/-- What a round of `wait_for_connection` comes to: the loop goes on, or a descriptor or `-1` is
returned. -/
inductive Waited where
  | goesOn
  | client (c : Nat)
  | failed
  deriving DecidableEq

/-- A new client is sent the string in the buffer (`std_cmd_redir.c:145-150`). -/
def greetClient (c : Nat) (d : Proxy) : Exec (Waited × Proxy) := do
  let len ← strlen d.mBuff
  let s ← d.sock (.client c)
  let (rc, writer) ← stdWrite s.writer d.mBuff len
  let d := d.setSock { s with writer } (.client c)
  if rc = -1 then do
    let d ← d.close (.client c)
    pure (.goesOn, d)
  else pure (.client c, d)

/-- A round of the loop of `wait_for_connection` (`std_cmd_redir.c:130-169`): `-1` is never returned
without an error. -/
def waitForConnection (selects : List SelectAnswer) (accept : AcceptAnswer) (d : Proxy) :
    Exec (Waited × Proxy) := do
  match stdSelectIgnoreIntr 100 selects with
  | .interrupted => pure (.goesOn, d)
  | .failed => pure (.failed, d)
  | .ready false false => pure (.goesOn, d)
  | .ready server console => do
    let d ← flushConsoleFd console d
    match handleServerSocket server accept d with
    | (some c, _, d) => greetClient c d
    | (none, err, d) => pure (if err then .failed else .goesOn, d)

/-- `close_socket` of the client (`std_cmd_redir.c:172-175`). -/
def closeSocket (c : Nat) (d : Proxy) : Exec Proxy := do
  let d ← d.close (.client c)
  pure { d with clientSocket := none }

/-- One of the two copies of a round; a copy that fails closes the socket of the client and ends the
round. -/
def relay (ready : Bool) (rsock wsock : Fd) (c : Nat) (d : Proxy) : Exec Proxy :=
  if ready && d.clientSocket.isSome then do
    let (ok, d) ← copyToFd rsock (some wsock) d
    if ok then pure d else closeSocket c d
  else pure d

/-- A round of the inner loop of `console_reader` (`std_cmd_redir.c:217-247`). -/
def relayRound (selects : List SelectAnswer) (c : Nat) (d : Proxy) : Exec Proxy :=
  if d.clientFlagForClose then closeSocket c d
  else
    match stdSelectIgnoreIntr 100 selects with
    | .interrupted => closeSocket c d
    | .failed => closeSocket c d
    | .ready client console => do
      let d ← relay console .console (.client c) c d
      relay client (.client c) .console c d

/-- A round of `console_reader`, in the loop it is in (`std_cmd_redir.c:200-249`). -/
def consoleReader (selects : List SelectAnswer) (accept : AcceptAnswer) (d : Proxy) : Exec Proxy :=
  match d.clientSocket with
  | some c => relayRound selects c d
  | none => do
    let (waited, d) ← waitForConnection selects accept d
    match waited with
    | .goesOn => pure d
    | .client c => pure { d with clientSocket := some c, clientFlagForClose := false }
    | .failed => do
      let d ← d.close .console
      pure { d with srvOpen := false, running := false }

/-! ## The system -/

/-- What happens: a round of the thread, bytes that the service or a client sends, answers that the
kernel will give for a descriptor, or `std_cmd_redir_term_conn`. -/
inductive Label where
  | round (selects : List SelectAnswer) (accept : AcceptAnswer)
  | send (fd : Fd) (bs : List UInt8)
  | answerReads (fd : Fd) (answers : List Answer)
  | answerWrites (fd : Fd) (answers : List Answer)
  | termConn
  deriving DecidableEq

/-- Bytes arrive at a socket. -/
def Sock.receive (s : Sock) (bs : List UInt8) : Sock :=
  { s with sent := s.sent ++ bs, reader := { s.reader with bytes := s.reader.bytes ++ bs } }

/-- What the other side does at a socket that is open. -/
def Proxy.onSock (d : Proxy) (fd : Fd) (f : Sock → Sock) : Proxy :=
  match d.sock fd with
  | .ok s => d.setSock (f s) fd
  | .error _ => d

/-- A step of the system. The data are freed when the thread returns, after which
`std_cmd_redir_term_conn` would write to them (`std_cmd_redir.c:255-259`). -/
def Proxy.step (d : Proxy) : Label → Exec Proxy
  | .round selects accept => if d.running then consoleReader selects accept d else pure d
  | .send fd bs => pure (d.onSock fd fun s => s.receive bs)
  | .answerReads fd answers =>
    pure (d.onSock fd fun s => { s with reader := { s.reader with answers } })
  | .answerWrites fd answers =>
    pure (d.onSock fd fun s => { s with writer := { s.writer with answers } })
  | .termConn =>
    if d.running then pure { d with clientFlagForClose := true } else .error (.badPointer 0)

end OpxCommonUtils.Console
