import OpxCommonUtils.Misc.Order
import OpxCommonUtils.Misc.Steps

/-!
# The socket service (`src/std_socket_service.cpp`)

A server thread accepts connections and hands descriptors that have data to jobs; a job calls back
the user and returns the descriptor or has it closed. The sets of `std_socket_service_data_t` are
finite sets of descriptors; the listening socket and the pipe that wakes the server are left out of
them. The system is a step function over the service, the place in the server's loop, the jobs that
are queued or running, and the kernel's table of descriptors, which may give a number again once
it was closed.
-/

namespace OpxCommonUtils.Service

/-- `std_socket_service_data_t` (`std_socket_service.cpp:37-132`). -/
structure StdSocketService where
  mClients : Finset Int
  pending : Finset Int
  mPendingClose : Finset Int
  deriving DecidableEq

namespace StdSocketService

/-- `busy` (`std_socket_service.cpp:83-86`). -/
def busy (p : StdSocketService) (fd : Int) : StdSocketService :=
  { p with pending := p.pending.erase fd }

/-- `pend_close` (`std_socket_service.cpp:88-91`). -/
def pendClose (p : StdSocketService) (fd : Int) : StdSocketService :=
  { p with mPendingClose := insert fd p.mPendingClose }

/-- A round of the loop of `process_closed`, after `close(fd)`. -/
def dropClosed (p : StdSocketService) (fd : Int) : StdSocketService where
  mClients := if fd ∈ p.mClients then p.mClients.erase fd else p.mClients
  pending := p.pending.erase fd
  mPendingClose := p.mPendingClose.erase fd

/-- `process_closed` (`std_socket_service.cpp:93-106`). -/
def processClosed (p : StdSocketService) : StdSocketService :=
  (ascending p.mPendingClose).foldl dropClosed p

/-- `returned` (`std_socket_service.cpp:108-115`). -/
def returned (p : StdSocketService) (fd : Int) : StdSocketService :=
  if fd ∉ p.mClients then p else { p with pending := insert fd p.pending }

end StdSocketService

/-- The function of a job: `queue_and_add_socket` or `process_socket_data`. -/
inductive Kind where
  | newClient
  | data
  deriving DecidableEq, Repr

/-- A job that is queued or running. For the statements it also tells the connection that had the
descriptor when the job was queued, and whether the callback for new clients had returned true for
that connection by then. -/
structure Job where
  kind : Kind
  fd : Int
  conn : Option Nat
  admitted : Bool
  deriving DecidableEq, Repr

/-- Where the server is in its loop: before `process_closed`, before the call of select, before
`accept` with the descriptors select reported, or in the loop over the clients. -/
inductive Phase where
  | top
  | closed
  | sockets (rset : Finset Int)
  | serve (rset : Finset Int) (todo : List Int)

/-- The state of the system. `holder` is the kernel's table, with connections numbered in the order
they are accepted; `admitted` are those whose callback for new clients has returned true. -/
structure State where
  svc : StdSocketService
  phase : Phase
  jobs : List Job
  holder : Int → Option Nat
  conns : Nat
  admitted : Finset Nat

/-- A service that has just been started. -/
def State.init : State := ⟨⟨∅, ∅, ∅⟩, .top, [], fun _ => none, 0, ∅⟩

/-- The steps. `queued` tells whether `queue_job` succeeds. -/
inductive Label where
  /-- The server closes what was given to `pend_close`. -/
  | processClosed
  /-- Select reports descriptors. -/
  | select (rset : Finset Int)
  /-- Select times out, or it fails and the server gives up descriptors that are not open. -/
  | selectNone (bad : Finset Int)
  /-- The server looks for a connection and begins to serve the clients. -/
  | accept (sock : Option Int) (queued : Bool)
  /-- The server comes to the next client. -/
  | serve (queued : Bool)
  /-- The server has come to all clients. -/
  | served
  /-- A callback returns and its job ends. -/
  | finish (j : Job) (ok : Bool)
  /-- Another thread calls `std_socket_service_client_close`. -/
  | clientClose (fd : Int)
  deriving DecidableEq

namespace State

/-- The connection that has a descriptor was accepted by the callback for new clients. -/
def holderAdmitted (s : State) (fd : Int) : Bool :=
  match s.holder fd with
  | none => false
  | some c => c ∈ s.admitted

/-- `queue_job` (`std_socket_service.cpp:141-163`), where it fails with the `pend_close` that
follows. -/
def queueJob (s : State) (kind : Kind) (fd : Int) (queued : Bool) : State :=
  if queued then { s with jobs := s.jobs ++ [⟨kind, fd, s.holder fd, s.holderAdmitted fd⟩] }
  else { s with svc := s.svc.pendClose fd }

/-- `accept` returns `fd` for a new connection, which becomes a client
(`std_socket_service.cpp:194-199`). -/
def addClient (s : State) (fd : Int) : State :=
  { s with
    svc := { s.svc with mClients := insert fd s.svc.mClients }
    holder := fun fd' => if fd' = fd then some s.conns else s.holder fd'
    conns := s.conns + 1 }

/-- The server starts the loop over the clients. -/
def toServe (s : State) (rset : Finset Int) : State :=
  { s with phase := .serve rset (ascending s.svc.mClients) }

/-- The end of `process_socket_data` and `queue_and_add_socket` after the callback
(`std_socket_service.cpp:165-187`). -/
def finish (s : State) (j : Job) (ok : Bool) : State :=
  { s with
    svc := if ok then s.svc.returned j.fd else s.svc.pendClose j.fd
    jobs := s.jobs.erase j
    admitted :=
      match j.kind, ok, j.conn with
      | .newClient, true, some c => insert c s.admitted
      | _, _, _ => s.admitted }

end State

/-- A step of the server thread (`process_sockets` and `socket_service`,
`std_socket_service.cpp:189-273`). -/
def serverStep (l : Label) (s : State) : Option State :=
  match l, s.phase with
  | .processClosed, .top =>
    some { s with
      svc := s.svc.processClosed
      phase := .closed
      holder := fun fd => if fd ∈ s.svc.mPendingClose then none else s.holder fd }
  | .select rset, .closed =>
    if rset ⊆ s.svc.pending then some { s with phase := .sockets rset } else none
  | .selectNone bad, .closed =>
    if bad ⊆ s.svc.pending ∧ ∀ fd ∈ bad, s.holder fd = none then
      some { s with svc := (ascending bad).foldl StdSocketService.pendClose s.svc, phase := .top }
    else none
  | .accept none _, .sockets rset => some (s.toServe rset)
  | .accept (some fd) queued, .sockets rset =>
    if s.holder fd = none then
      some (((s.addClient fd).toServe rset).queueJob .newClient fd queued)
    else none
  | .serve queued, .serve rset (fd :: todo) =>
    let s := { s with phase := .serve rset todo }
    if fd ∈ rset then some ({ s with svc := s.svc.busy fd }.queueJob .data fd queued) else some s
  | .served, .serve _ [] => some { s with phase := .top }
  | _, _ => none

/-- A step of the system. With a pool of at most one thread (`inline`) the server itself runs the
jobs and goes on when they have ended, and `queue_job` succeeds. -/
def step (inline : Bool) (l : Label) (s : State) : Option State :=
  match l with
  | .finish j ok => if j ∈ s.jobs then some (s.finish j ok) else none
  | .clientClose fd => some { s with svc := s.svc.pendClose fd }
  | .accept _ queued | .serve queued =>
    if inline ∧ (s.jobs ≠ [] ∨ queued = false) then none else serverStep l s
  | _ => if inline ∧ s.jobs ≠ [] then none else serverStep l s

end OpxCommonUtils.Service
