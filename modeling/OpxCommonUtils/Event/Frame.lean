import OpxCommonUtils.Io.Transfer

/-!
# Event frames (`src/std_event_utils.cpp`)

A frame is a header of four words in host order (the length of the second half of the header, two
versions, the size of what follows) and then an operation word and data. `std_read` takes an
`int`, so a size from `2 ^ 31` on becomes a negative length. What a routine reads into a variable
on the stack stands in front of `junk`, the bytes the stack held before.
-/

namespace OpxCommonUtils.Event

open Io

/-- The values of `t_std_error` the routines return. -/
inductive StdError where
  | ok
  | fail
  | toobig
  | closed
  deriving DecidableEq, Repr

/-- `STD_CMN_IPC_VER`. -/
def STD_CMN_IPC_VER : Nat := 1

/-- `event_serv_msg_types_t`. -/
def event_serv_msg_t_ADD_REG : Nat := 0

/-- `event_serv_msg_types_t`. -/
def event_serv_msg_t_DEL_REG : Nat := 1

/-- `event_serv_msg_types_t`. -/
def event_serv_msg_t_PUBLISH : Nat := 2

/-- `event_serv_msg_types_t`. -/
def event_serv_msg_t_BUFFER : Nat := 3

/-- `sizeof(std_event_ipc_hdr_t)`. -/
def sizeofIpcHdr : Nat := 8

/-- `sizeof(std_event_ipc_data_t)`. -/
def sizeofIpcData : Nat := 16

/-- `sizeof(event_serv_msg_t)`. -/
def sizeofServMsg : Nat := 4

/-- `sizeof(std_event_key_t)`: the length and the array. -/
def sizeofEventKey : Nat := 68

/-- `sizeof(std_event_msg_t)`: the key and the length of the data. -/
def sizeofEventMsg : Nat := 72

/-- A `uint32_t` assigned to an `int`. -/
def toInt32 (n : Nat) : Int := if n < 2 ^ 31 then n else n - 2 ^ 32

/-- The header `std_event_util_event_send` makes. -/
def ipcHeader (e : Endian) (size : Nat) : List UInt8 :=
  e.bytes 4 (sizeofIpcData - sizeofIpcHdr) ++ e.bytes 4 STD_CMN_IPC_VER ++ e.bytes 4 0 ++
    e.bytes 4 size

/-- `std_event_util_event_send` (`std_event_utils.cpp:51-91`); the sum of the sizes is a
`uint32_t`. -/
def stdEventUtilEventSend (e : Endian) (p : Peer) (op : Nat) (data : List (List UInt8)) :
    Exec (StdError × Peer) := do
  let size := ((data.map List.length).sum + sizeofServMsg) % 2 ^ 32
  let (err, p) ← stdSocketWrite p (ipcHeader e size :: e.bytes sizeofServMsg op :: data)
  return (if err then .fail else .ok, p)

/-- `read_header` (`std_event_utils.cpp:93-106`): the size of the frame, `none` where the routine
returns false. -/
def readHeader (e : Endian) (junk : List UInt8) (p : Peer) : Exec (Option Nat × Peer) := do
  let (len, bs, p) ← stdRead p sizeofIpcHdr
  if len ≠ sizeofIpcHdr then return (none, p)
  let size := e.nat (bs.take 4)
  if sizeofIpcData - sizeofIpcHdr < size then return (none, p)
  let (len, bs, p) ← stdRead p (toInt32 size)
  if len ≠ toInt32 size then return (none, p)
  return (some (e.nat (((bs ++ junk.drop bs.length).drop 4).take 4)), p)

/-- `std_event_util_event_recv` (`std_event_utils.cpp:108-124`): the code returned, the buffer and
the peer. The vector can be resized. -/
def stdEventUtilEventRecv (e : Endian) (junk : List UInt8) (p : Peer) (buff : Mem)
    (allowResize : Bool) : Exec (StdError × Mem × Peer) := do
  let (hdr, p) ← readHeader e junk p
  match hdr with
  | none => return (.fail, buff, p)
  | some size =>
    if buff.length < size && !allowResize then return (.toobig, buff, p)
    let buff := buff ++ List.replicate (size - buff.length) 0
    let (len, bs, p) ← stdRead p (toInt32 size)
    return (if len = toInt32 size then .ok else .fail, bs ++ buff.drop bs.length, p)

/-- `std_event_util_event_recv_msg` (`std_event_utils.cpp:126-153`): the code returned, the bytes
put in `*msg` and in `data`, and the peer. -/
def stdEventUtilEventRecvMsg (e : Endian) (junk : List UInt8) (p : Peer) (len : Nat) :
    Exec (StdError × List UInt8 × List UInt8 × Peer) := do
  let (hdr, p) ← readHeader e junk p
  match hdr with
  | none => return (.fail, [], [], p)
  | some size =>
    if size < sizeofServMsg + sizeofEventMsg then return (.fail, [], [], p)
    let (rc, mtype, p) ← stdRead p sizeofServMsg
    if rc ≠ sizeofServMsg then return (.closed, [], [], p)
    if e.nat mtype ≠ event_serv_msg_t_PUBLISH then return (.fail, [], [], p)
    let size := size - sizeofServMsg
    if len < size then return (.toobig, [], [], p)
    let (rc, msg, p) ← stdRead p sizeofEventMsg
    if rc ≠ sizeofEventMsg then return (.fail, msg, [], p)
    let size := size - sizeofEventMsg
    if size ≠ e.nat ((msg.drop sizeofEventKey).take 4) then return (.fail, msg, [], p)
    let (rc, data, p) ← stdRead p (toInt32 size)
    return (if rc = toInt32 size then .ok else .fail, msg, data, p)

/-- `std_client_wait_for_event` (`std_event_service.cpp:545-549`) with a buffer that may be limited
to the size it has. -/
def stdClientWaitForEvent (e : Endian) (junk : List UInt8) (p : Peer) (buff : Mem)
    (limitMax : Bool) : Exec (StdError × Mem × Peer) :=
  stdEventUtilEventRecv e junk p buff !limitMax

/-- `std_client_wait_for_event_data` (`std_event_service.cpp:539-542`). -/
def stdClientWaitForEventData (e : Endian) (junk : List UInt8) (p : Peer) (len : Nat) :
    Exec (StdError × List UInt8 × List UInt8 × Peer) :=
  stdEventUtilEventRecvMsg e junk p len

/-- `std_client_publish_msg` (`std_event_service.cpp:449-457`); `msg` is the memory from the message
on, with the data behind it. -/
def stdClientPublishMsg (e : Endian) (p : Peer) (msg : Mem) : Exec (StdError × Peer) := do
  let dataLen ← msg.load sizeofEventKey 4
  let d ← msg.load 0 (sizeofEventMsg + e.nat dataLen)
  stdEventUtilEventSend e p event_serv_msg_t_PUBLISH [d]

/-- `std_client_publish_msg_data` (`std_event_service.cpp:459-474`); the length of the data in the
message is a `uint32_t`. -/
def stdClientPublishMsgData (e : Endian) (p : Peer) (key data : List UInt8) :
    Exec (StdError × Peer) :=
  let msg := key ++ e.bytes 4 data.length
  stdEventUtilEventSend e p event_serv_msg_t_PUBLISH [msg, data]

end OpxCommonUtils.Event
