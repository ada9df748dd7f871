import OpxCommonUtils.Event.Frame
import OpxCommonUtils.Event.Registry

/-!
# The handler of client data (`src/std_event_service.cpp`)

A frame is received into the vector of the client, which only grows, and is then handled where it
lies. The handler is told the size of the vector and reads structures from a memory; each of its
reads is checked against the memory, and an index of a key against the array.
-/

namespace OpxCommonUtils.Event

open Io

/-- `SOCKET_BUFFER_MIN_SIZE`. -/
def SOCKET_BUFFER_MIN_SIZE : Nat := 300000

/-- What a call of the handler comes to: the value returned, the registrations, the message that was
republished with the attempts to send it, the size the socket's buffer was set to, and the world. -/
structure Effect (σ : Type) where
  ret : Bool
  tree : StdClientTree
  published : Option (List UInt8 × List (Int × Bool))
  sndbuf : Option Nat
  world : σ

/-- A `uint32_t`. -/
def load32 (e : Endian) (mem : Mem) (p : Nat) : Exec Nat := do
  let bs ← mem.load p 4
  return e.nat bs

/-- An element of `event_key` of the key at `p`. -/
def keyList (e : Endian) (mem : Mem) (p ix : Nat) : Exec UInt32 :=
  if ix < STD_EVENT_KEY_MAX then do
    let id ← load32 e mem (p + 4 + 4 * ix)
    return UInt32.ofNat id
  else .error (.badPointer ix)

variable {σ : Type}

/-- `event_some_data` after the frame was received (`std_event_service.cpp:331-361`). The operations
exclude one another. The bytes of a message are what its sends read. -/
def handleFrame (e : Endian) (fd : Int) (send : Send σ) (size : Nat) (mem : Mem)
    (tree : StdClientTree) (world : σ) : Exec (Effect σ) := do
  if size < sizeofServMsg then return ⟨false, tree, none, none, world⟩
  let op ← load32 e mem 0
  if op = event_serv_msg_t_ADD_REG then
    let len ← load32 e mem 4
    let (ret, tree) ← tree.regClient fd (keyList e mem 4) len
    return ⟨ret, tree, none, none, world⟩
  if op = event_serv_msg_t_DEL_REG then
    let len ← load32 e mem 4
    let (_, tree) ← tree.deregClient fd (keyList e mem 4) len
    return ⟨true, tree, none, none, world⟩
  if op = event_serv_msg_t_PUBLISH then
    let dataLen ← load32 e mem (4 + sizeofEventKey)
    if size < sizeofServMsg + sizeofEventMsg + dataLen then
      return ⟨false, tree, none, none, world⟩
    let msg ← mem.load 4 (sizeofEventMsg + dataLen)
    let len ← load32 e mem 4
    let (log, world) ← tree.publish send world (keyList e mem 4) len
    return ⟨true, tree, some (msg, log), none, world⟩
  if op = event_serv_msg_t_BUFFER then
    let bs ← mem.load 4 8
    return ⟨true, tree, none, some (max (e.nat bs) SOCKET_BUFFER_MIN_SIZE), world⟩
  return ⟨true, tree, none, none, world⟩

/-- `event_some_data` (`std_event_service.cpp:320-361`) with the vector the table of clients holds for
the descriptor: the effect, the vector and the peer. -/
def eventSomeData (e : Endian) (junk : List UInt8) (fd : Int) (send : Send σ) (p : Peer)
    (client : Option Mem) (tree : StdClientTree) (world : σ) :
    Exec (Effect σ × Option Mem × Peer) :=
  match client with
  | none => return (⟨false, tree, none, none, world⟩, none, p)
  | some buff => do
    let (rc, buff, p) ← stdEventUtilEventRecv e junk p buff true
    if rc ≠ .ok then return (⟨false, tree, none, none, world⟩, some buff, p)
    let eff ← handleFrame e fd send buff.length buff tree world
    return (eff, some buff, p)

end OpxCommonUtils.Event
