import OpxCommonUtils.Event.Handler

/-!
# The client's side of the event service (`src/std_event_service.cpp`)

What a client sends to register for keys, and how it finds the message in the vector it received a
frame into. Messages are published and received by the routines for frames.
-/

namespace OpxCommonUtils.Event

open Io

/-- `std_event_key_t` as it lies in memory. -/
def StdEventKey.bytes (e : Endian) (key : StdEventKey) : List UInt8 :=
  e.bytes 4 key.len ++ (List.ofFn key.eventKey).flatMap fun id => e.bytes 4 id.toNat

/-- `client_send_key_op` (`std_event_service.cpp:476-491`): a frame for each key, up to the first
that is not sent. -/
def clientSendKeyOp (e : Endian) (op : Nat) : Peer → List StdEventKey → Exec (StdError × Peer)
  | p, [] => .ok (.ok, p)
  | p, key :: keys => do
    let (rc, p) ← stdEventUtilEventSend e p op [key.bytes e]
    if rc ≠ .ok then return (.fail, p)
    clientSendKeyOp e op p keys

/-- `std_client_register_interest` (`std_event_service.cpp:493-495`). -/
def stdClientRegisterInterest (e : Endian) (p : Peer) (keys : List StdEventKey) :
    Exec (StdError × Peer) :=
  clientSendKeyOp e event_serv_msg_t_ADD_REG p keys

/-- `std_client_remove_interest` (`std_event_service.cpp:497-499`). -/
def stdClientRemoveInterest (e : Endian) (p : Peer) (keys : List StdEventKey) :
    Exec (StdError × Peer) :=
  clientSendKeyOp e event_serv_msg_t_DEL_REG p keys

/-- `std_event_msg_from_buff` (`std_event_service.cpp:531-537`): the memory from the message on. -/
def stdEventMsgFromBuff (e : Endian) (buff : Mem) : Exec (Option Mem) := do
  if buff.length < sizeofServMsg then return none
  let op ← load32 e buff 0
  if op ≠ event_serv_msg_t_PUBLISH then return none
  return some (buff.drop sizeofServMsg)

end OpxCommonUtils.Event
