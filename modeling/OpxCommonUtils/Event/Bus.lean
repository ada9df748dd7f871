import Mathlib.Data.List.AList
import OpxCommonUtils.Event.Client

/-!
# The event service and its clients (`src/std_event_service.cpp`)

The server with all its clients. Between the server and a client there are two streams of bytes; a
step is a call of a client or a part of a job of the server. Jobs for several clients run at once:
a publication holds the lock of the tree for reading and makes its sends one by one, each with as
many calls of the kernel as that needs, so that other jobs come in between (`send`, `write`); what
holds the lock for writing waits until no publication runs. A send that fails is left out, and so is
what comes of it: the server closes the descriptor and its registrations stay. The request to set
the size of a socket's buffer is left out too.
-/

namespace OpxCommonUtils.Event

open Io

/-- A connection: the bytes the client has sent and the server has not read, the vector of
`event_service_client_data_t`, the bytes the server has sent and the client has not read, the vector
of the client's `event_msg_buff_t`. `received` lists what the client's calls have delivered: the
code, the message structure and the data. -/
structure Link where
  up : List UInt8
  vector : Mem
  down : List UInt8
  msgBuff : Mem
  received : List (StdError × Mem × Mem)

/-- A connection as it is accepted. -/
def Link.new : Link := ⟨[], [], [], [], []⟩

/-- A publication that runs: the message and the descriptors that are yet to be sent to; of the send
to the first of them, once it has begun, what is on the stream and what is yet to be put there. -/
structure Publication where
  msg : Mem
  todo : List Int
  written : List UInt8
  rest : List UInt8

/-- The descriptor to which a send has begun. -/
def Publication.sendingTo (run : Publication) : Option Int :=
  if run.rest = [] then none else run.todo.head?

/-- The registrations, the connections, and the publications that run with the client whose job it
is. -/
structure Bus where
  tree : StdClientTree
  links : Int → Option Link
  running : AList fun _ : Int => Publication

/-- A call of a client, with the answers of the kernel, or a part of a job of the server. -/
inductive BusLabel where
  | connect (fd : Int)
  | close (fd : Int)
  | registerInterest (fd : Int) (keys : List StdEventKey) (as : List Answer)
  | removeInterest (fd : Int) (keys : List StdEventKey) (as : List Answer)
  | publish (fd : Int) (key : StdEventKey) (data : List UInt8) (as : List Answer)
  | handle (fd : Int) (as : List Answer)
  | send (fd c : Int) (as : List Answer)
  | write (fd c : Int) (n : Nat) (last : Bool)
  | done (fd : Int)
  | waitForEventData (fd : Int) (len : Nat) (as : List Answer)
  | waitForEvent (fd : Int) (as : List Answer)

/-- A whole frame is on a stream, as its header tells. -/
def frameReady (e : Endian) (bytes : List UInt8) : Bool :=
  sizeofIpcData ≤ bytes.length && sizeofIpcData + e.nat ((bytes.drop 12).take 4) ≤ bytes.length

/-- The message structure and the data that a client reads in its vector. -/
def readMsg (e : Endian) (buff : Mem) : Exec (Mem × Mem) := do
  match ← stdEventMsgFromBuff e buff with
  | none => return ([], [])
  | some mem =>
    let msg ← mem.load 0 sizeofEventMsg
    let data ← mem.load sizeofEventMsg (e.nat ((msg.drop sizeofEventKey).take 4))
    return (msg, data)

namespace Bus

/-- A server without clients. -/
def init : Bus := ⟨⟨StdNode.empty⟩, fun _ => none, ∅⟩

/-- The connection of `fd` changes. -/
def setLink (s : Bus) (fd : Int) (link : Option Link) : Bus :=
  { s with links := Function.update s.links fd link }

/-- What a client's call has put on the stream to the server. -/
def sent (s : Bus) (fd : Int) (link : Link) (r : Exec (StdError × Peer)) : Option Bus :=
  r.toOption.map fun (_, p) => s.setLink fd (some { link with up := p.bytes })

/-- `close_client_connection` (`std_event_service.cpp:286-294`), with the lock for writing. -/
def closeClientConnection (s : Bus) (fd : Int) : Option Bus :=
  if s.running.keys = [] then some { s.setLink fd none with tree := s.tree.removeFromTree fd }
  else none

/-- A job for the data of `fd`, up to the first send of a publication. -/
def handle (e : Endian) (junk : List UInt8) (s : Bus) (fd : Int) (link : Link)
    (as : List Answer) : Option Bus :=
  if link.up = [] ∨ fd ∈ s.running then none
  else
    match eventSomeData e junk fd (fun w _ => (true, w)) ⟨link.up, as⟩ (some link.vector) s.tree
        () with
    | .error _ => none
    | .ok (eff, vector, p) =>
      let s' := s.setLink fd (some { link with up := p.bytes, vector := vector.getD [] })
      if eff.ret = false then s'.closeClientConnection fd
      else
        match eff.published with
        | some (msg, log) =>
          some { s' with running := s.running.insert fd ⟨msg, log.map Prod.fst, [], []⟩ }
        | none => if s.running.keys = [] then some { s' with tree := eff.tree } else none

/-- A round of the loop of `std_node_t::publish` (`std_event_service.cpp:188-196`) begins. The send
succeeds with the answers of the kernel and what it sends is yet to be put on the stream. -/
def send (e : Endian) (s : Bus) (fd c : Int) (as : List Answer) : Option Bus :=
  match s.running.lookup fd with
  | some ⟨msg, c' :: todo, _, []⟩ =>
    if c' ≠ c ∨ (s.links c).isNone then none
    else
      match stdEventUtilEventSend e ⟨[], as⟩ event_serv_msg_t_PUBLISH [msg] with
      | .ok (.ok, p) => some { s with running := s.running.insert fd ⟨msg, c :: todo, [], p.bytes⟩ }
      | _ => none
  | _ => none

/-- A call of the kernel puts the next `n` bytes of the send on the stream, and the round ends with
the `last` of them. -/
def write (s : Bus) (fd c : Int) (n : Nat) (last : Bool) : Option Bus :=
  match s.running.lookup fd, s.links c with
  | some ⟨msg, c' :: todo, written, rest⟩, some link =>
    if c' ≠ c ∨ n = 0 ∨ rest.length < n ∨ last ≠ decide (n = rest.length) then none
    else
      let run : Publication := if last then ⟨msg, todo, [], []⟩
        else ⟨msg, c :: todo, written ++ rest.take n, rest.drop n⟩
      some { s.setLink c (some { link with down := link.down ++ rest.take n }) with
        running := s.running.insert fd run }
  | _, _ => none

/-- One step. A client that waits is blocked until a frame is there. -/
def step (e : Endian) (junk : List UInt8) (l : BusLabel) (s : Bus) : Option Bus :=
  match l with
  | .connect fd =>
    if (s.links fd).isNone ∧ s.running.keys = [] then some (s.setLink fd (some .new)) else none
  | .close fd => s.closeClientConnection fd
  | .registerInterest fd keys as => (s.links fd).bind fun link =>
      s.sent fd link (stdClientRegisterInterest e ⟨link.up, as⟩ keys)
  | .removeInterest fd keys as => (s.links fd).bind fun link =>
      s.sent fd link (stdClientRemoveInterest e ⟨link.up, as⟩ keys)
  | .publish fd key data as => (s.links fd).bind fun link =>
      s.sent fd link (stdClientPublishMsgData e ⟨link.up, as⟩ (key.bytes e) data)
  | .handle fd as => (s.links fd).bind fun link => s.handle e junk fd link as
  | .send fd c as => s.send e fd c as
  | .write fd c n last => s.write fd c n last
  | .done fd =>
    match s.running.lookup fd with
    | some ⟨_, [], _, _⟩ => some { s with running := s.running.erase fd }
    | _ => none
  | .waitForEventData fd len as => (s.links fd).bind fun link =>
      if ¬ frameReady e link.down then none
      else (stdClientWaitForEventData e junk ⟨link.down, as⟩ len).toOption.map
        fun (rc, msg, data, p) => s.setLink fd (some { link with
          down := p.bytes, received := link.received ++ [(rc, msg, data)] })
  | .waitForEvent fd as => (s.links fd).bind fun link =>
      if ¬ frameReady e link.down then none
      else (stdClientWaitForEvent e junk ⟨link.down, as⟩ link.msgBuff false).toOption.bind
        fun (rc, buff, p) => (readMsg e buff).toOption.map fun (msg, data) =>
          s.setLink fd (some { link with
            down := p.bytes, msgBuff := buff, received := link.received ++ [(rc, msg, data)] })

end Bus

end OpxCommonUtils.Event
