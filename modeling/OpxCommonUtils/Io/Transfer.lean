import OpxCommonUtils.Misc.Bytes

/-!
# Transfers (`src/std_file_utils.c`, `src/std_socket_tools.cpp`)

The loops that repeat a system call until all bytes are transferred. The kernel is a function
that answers each call (`Rc`) and changes a world of its own; the loops are given the number of
rounds they may go. `Peer` is the kernel's end of a stream socket: the bytes that are still to
be read or have been written, and a script of how it answers the calls to come. A script that is
used up goes on with transfers that are as long as possible. A buffer is the list of its bytes, or
of its places when it is read into.
-/

namespace OpxCommonUtils.Io

/-- What a system call returns: `-1` with `EINTR`, `-1` with `EWOULDBLOCK` and whether the wait
for the descriptor succeeds, `-1` with another error, or the number of bytes transferred. -/
inductive Rc where
  | eintr
  | again (ready : Bool)
  | fail
  | done (n : Nat)
  deriving DecidableEq, Repr

/-- `STD_MAX_EINTR`. -/
def STD_MAX_EINTR : Nat := 10

variable {α σ : Type}

/-- `file_op` (`std_file_utils.c:47-76`): the value returned and the world. `oper` is told how many
bytes were transferred and how many it is asked for; `len` is an `int`, so that the count of a
negative length is a `size_t` close to `2 ^ 64`. `retry` is the number of interrupted calls that
are still taken. -/
def fileOp (oper : (total count : Nat) → σ → Rc × σ) (len : Int) (requireAll : Bool) :
    (fuel retry total : Nat) → σ → Exec (Int × σ)
  | 0, _, _, _ => .error .diverges
  | fuel + 1, retry, total, w =>
    if (total : Int) = len then .ok (total, w)
    else
      match oper total (((len - total) % 2 ^ 64).toNat) w with
      | (.eintr, w) =>
        if retry = 0 then .ok (-1, w) else fileOp oper len requireAll fuel (retry - 1) total w
      | (.again _, w) => .ok (-1, w)
      | (.fail, w) => .ok (-1, w)
      | (.done n, w) =>
        if n = 0 then .ok (total, w)
        else if requireAll then fileOp oper len requireAll fuel STD_MAX_EINTR (total + n) w
        else .ok (total + n, w)

/-- `fix_offset` (`std_socket_tools.cpp:324-340`): the buffers that remain after `offset` bytes. -/
def fixOffset : Nat → List (List α) → List (List α)
  | _, [] => []
  | offset, iov :: rest =>
    if offset = 0 then iov :: rest
    else if offset < iov.length then iov.drop offset :: rest
    else fixOffset (offset - iov.length) rest

/-- `total_len` (`std_socket_tools.cpp:316-322`). -/
def totalLen (iov : List (List α)) : Nat := (iov.map List.length).sum % 2 ^ 64

/-- `_process_op` (`std_socket_tools.cpp:342-418`): the value returned, whether an error is stored
and the world. The counter of interrupted calls is unsigned and never gets below 0. -/
def processOp (handler : List (List α) → σ → Rc × σ) (sendAll : Bool)
    (iov : List (List α)) : (fuel total : Nat) → σ → Exec (Int × Bool × σ)
  | 0, _, _ => .error .diverges
  | fuel + 1, total, w =>
    if total = totalLen iov then .ok (total, false, w)
    else
      match handler (fixOffset total iov) w with
      | (.eintr, w) => processOp handler sendAll iov fuel total w
      | (.again ready, w) =>
        if ready then processOp handler sendAll iov fuel total w else .ok (-1, true, w)
      | (.fail, w) => .ok (-1, true, w)
      | (.done n, w) =>
        if n = 0 then
          if sendAll then .ok (0, true, w) else .ok (total, false, w)
        else if sendAll then processOp handler sendAll iov fuel (total + n) w
        else .ok (total + n, false, w)

/-- What is done with the buffers after a transfer of `rc` bytes by `_std_op_set`
(`std_file_utils.c:206-216`). A buffer that was transferred to its end stays, without bytes. -/
def stepSet : Nat → List (List α) → List (List α)
  | _, [] => []
  | rc, iov :: rest =>
    if rc = 0 then iov :: rest
    else if iov.length < rc then stepSet (rc - iov.length) rest
    else iov.drop rc :: rest

/-- The loop of `_std_op_set` (`std_file_utils.c:180-222`): the value returned, whether an error is
stored and the world. `total` is an `int`, which holds the lengths of the buffers together. -/
def stdOpSetLoop (op : List (List α) → σ → Rc × σ) (requireAll : Bool) (totalLen : Nat) :
    (fuel retry total : Nat) → List (List α) → σ → Exec (Int × Bool × σ)
  | 0, _, _, _, _ => .error .diverges
  | fuel + 1, retry, total, piov, w =>
    if piov = [] then .ok (total, false, w)
    else
      match op piov w with
      | (.eintr, w) =>
        if retry = 0 then .ok (-1, true, w)
        else stdOpSetLoop op requireAll totalLen fuel (retry - 1) total piov w
      | (.again _, w) => .ok (-1, true, w)
      | (.fail, w) => .ok (-1, true, w)
      | (.done rc, w) =>
        if rc = 0 then .ok (total, false, w)
        else if totalLen = total + rc then .ok (total + rc, false, w)
        else if requireAll then
          stdOpSetLoop op requireAll totalLen fuel 10 (total + rc) (stepSet rc piov) w
        else .ok (total + rc, false, w)

/-- `_std_op_set` (`std_file_utils.c:150-222`), which leaves out empty buffers. -/
def stdOpSet (op : List (List α) → σ → Rc × σ) (requireAll : Bool) (data : List (List α))
    (fuel : Nat) (w : σ) : Exec (Int × Bool × σ) :=
  let iovs := data.filter fun b => b.length ≠ 0
  stdOpSetLoop op requireAll (totalLen iovs) fuel 10 0 iovs w

/-! ## Stream sockets -/

/-- How the kernel answers a call: a transfer moves at most `n + 1` bytes. -/
inductive Answer where
  | eintr
  | again (ready : Bool)
  | fail
  | part (n : Nat)
  deriving DecidableEq, Repr

/-- The kernel's end of a stream. For a reader, `bytes` is what arrives before the other side
closes; for a writer, what it has written. -/
structure Peer where
  bytes : List UInt8
  answers : List Answer
  deriving DecidableEq, Repr

/-- `SSIZE_MAX`. -/
def SSIZE_MAX : Nat := 2 ^ 63 - 1

/-- The most one system call transfers (`0x7ffff000` on the platform). -/
def MAX_RW_COUNT : Nat := 0x7ffff000

/-- `read`: the answer, the bytes delivered and the peer. A count of more than `SSIZE_MAX` is
refused. -/
def Peer.read (p : Peer) (count : Nat) : Rc × List UInt8 × Peer :=
  if SSIZE_MAX < count then (.fail, [], p)
  else
    let deliver (n : Nat) (as : List Answer) : Rc × List UInt8 × Peer :=
      let bs := p.bytes.take (min n (min count MAX_RW_COUNT))
      (.done bs.length, bs, ⟨p.bytes.drop (min n (min count MAX_RW_COUNT)), as⟩)
    match p.answers with
    | [] => deliver count []
    | .eintr :: as => (.eintr, [], ⟨p.bytes, as⟩)
    | .again ready :: as => (.again ready, [], ⟨p.bytes, as⟩)
    | .fail :: as => (.fail, [], ⟨p.bytes, as⟩)
    | .part n :: as => deliver (n + 1) as

/-- `sendmsg`. -/
def Peer.sendmsg (iov : List (List UInt8)) (p : Peer) : Rc × Peer :=
  let accept (n : Nat) (as : List Answer) : Rc × Peer :=
    let bs := iov.flatten.take (min n MAX_RW_COUNT)
    (.done bs.length, ⟨p.bytes ++ bs, as⟩)
  match p.answers with
  | [] => accept iov.flatten.length []
  | .eintr :: as => (.eintr, ⟨p.bytes, as⟩)
  | .again ready :: as => (.again ready, ⟨p.bytes, as⟩)
  | .fail :: as => (.fail, ⟨p.bytes, as⟩)
  | .part n :: as => accept (n + 1) as

/-- `std_read` on a stream socket with `require_all`: the value returned, the bytes that were put
in the buffer and the peer (`std_file_utils.c:79-81`). -/
def stdRead (p : Peer) (len : Int) : Exec (Int × List UInt8 × Peer) :=
  fileOp (fun _ count (w : List UInt8 × Peer) =>
      let (rc, bs, p) := w.2.read count
      (rc, w.1 ++ bs, p))
    len true (p.answers.length + p.bytes.length + 1) STD_MAX_EINTR 0 ([], p)

/-- `std_socket_op` with `std_socket_transit_o_WRITE` and `std_socket_transit_f_ALL` on a stream
socket: whether an error is stored and the peer (`std_socket_tools.cpp:420-426`). -/
def stdSocketWrite (p : Peer) (iov : List (List UInt8)) : Exec (Bool × Peer) := do
  let (_, err, p) ← processOp Peer.sendmsg true iov
    (p.answers.length + iov.flatten.length + 1) 0 p
  return (err, p)

end OpxCommonUtils.Io
