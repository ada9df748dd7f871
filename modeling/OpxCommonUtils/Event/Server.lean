import OpxCommonUtils.Event.Handler
import OpxCommonUtils.Service.Sockets

/-!
# The event server (`src/std_event_service.cpp`)

The callbacks of the event service on the socket service. A failed send of `publish` gives the
descriptor to `std_socket_service_client_close`; a job for data that fails removes its client first.
Of the clients' table only the descriptors are kept, and a job for data is given the vector as it is
after the frame was received. A frame whose handling reads outside its memory has no step.
-/

namespace OpxCommonUtils.Event

open Service

/-- The event server with the socket service below. For the statements `handled` lists the vectors
that were handled, each with the connection it came from, and `orphans` are the descriptors that were
given to `pend_close` by something other than their own job. -/
structure Server where
  sys : State
  clients : Finset Int
  tree : StdClientTree
  handled : List (Option Nat × Mem)
  orphans : Finset Int

/-- A server that has just been started. -/
def Server.init : Server := ⟨State.init, ∅, ⟨StdNode.empty⟩, [], ∅⟩

/-- The sends of `std_node_t::publish` (`std_event_service.cpp:188-196`): those to `failing` fail. -/
def sendOrClose (failing : Finset Int) : Send StdSocketService := fun svc fd =>
  if fd ∈ failing then (false, svc.pendClose fd) else (true, svc)

namespace Server

/-- `close_client_connection` (`std_event_service.cpp:286-294`). -/
def closeClientConnection (s : Server) (fd : Int) : Server :=
  { s with clients := s.clients.erase fd, tree := s.tree.removeFromTree fd }

/-- `event_new_client` (`std_event_service.cpp:364-376`). -/
def eventNewClient (s : Server) (fd : Int) : Bool × Server :=
  if fd ∈ s.clients then (false, s.closeClientConnection fd)
  else (true, { s with clients := insert fd s.clients })

/-- The descriptors to which a send of a handled frame failed. -/
def failedSends {σ : Type} (eff : Effect σ) : Finset Int :=
  match eff.published with
  | none => ∅
  | some (_, log) => ((log.filter (fun a => !a.2)).map Prod.fst).toFinset

/-- `event_some_data` (`std_event_service.cpp:320-361`). `frame` is the vector after the frame was
received, nothing when it was not. -/
def eventSomeData (e : Endian) (s : Server) (fd : Int) (frame : Option Mem)
    (failing : Finset Int) : Option (Bool × Server) :=
  if fd ∉ s.clients then some (false, s)
  else
    match frame with
    | none => some (false, s)
    | some buff =>
      match handleFrame e fd (sendOrClose failing) buff.length buff s.tree s.sys.svc with
      | .error _ => none
      | .ok eff => some (eff.ret,
          { s with
            sys := { s.sys with svc := eff.world }
            tree := eff.tree
            handled := s.handled ++ [(s.sys.holder fd, buff)]
            orphans := s.orphans ∪ failedSends eff })

/-- The end of a job, after the callback (`std_socket_service.cpp:165-187`). -/
def finish (s : Server) (j : Job) (ok : Bool) : Server := { s with sys := s.sys.finish j ok }

end Server

/-- The steps: those of the server thread, and the two kinds of jobs. -/
inductive ServerLabel where
  | service (l : Label)
  | newClient (j : Job)
  | data (j : Job) (frame : Option Mem) (failing : Finset Int)
  deriving DecidableEq

namespace Server

/-- The orphans after a step of the server thread: a client is one when no job for its data can be
queued. -/
def orphansAfter (s : Server) (l : Label) : Finset Int :=
  match l, s.sys.phase with
  | .processClosed, _ => s.orphans \ s.sys.svc.mPendingClose
  | .serve false, .serve rset (fd :: _) => if fd ∈ rset then insert fd s.orphans else s.orphans
  | _, _ => s.orphans

/-- A step of the system. Descriptors are closed from outside by `publish` only. -/
def step (e : Endian) (inline : Bool) (l : ServerLabel) (s : Server) : Option Server :=
  match l with
  | .service (.finish _ _) => none
  | .service (.clientClose _) => none
  | .service l => (Service.step inline l s.sys).map fun sys =>
      { s with sys := sys, orphans := s.orphansAfter l }
  | .newClient j =>
    if j ∈ s.sys.jobs ∧ j.kind = .newClient then
      let (ret, s) := s.eventNewClient j.fd
      some (s.finish j ret)
    else none
  | .data j frame failing =>
    if j ∈ s.sys.jobs ∧ j.kind = .data then
      (s.eventSomeData e j.fd frame failing).map fun (ret, s) =>
        if ret then s.finish j true
        else { (s.closeClientConnection j.fd).finish j false with
          orphans := s.orphans.erase j.fd }
    else none

end Server

end OpxCommonUtils.Event
