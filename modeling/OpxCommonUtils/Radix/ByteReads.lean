import OpxCommonUtils.Misc.Traced
import OpxCommonUtils.Radix.PowerWalk
import OpxCommonUtils.Radix.Update

/-!
# The bytes of keys that the routines read

The routines of `Radix.Lookup`, `Radix.PowerWalk` and `Radix.Update` once more, with a trace of the
byte indices they read from the address of the query, from its converted copy in `rtt->temp` and
from the address of a stored head. Each one delivers what the routine delivers
(`result_stdRadixGetexact` and the theorems after it).
-/

namespace OpxCommonUtils.Radix

open RtTable

/-- A program with the byte indices it reads. -/
abbrev Reads := Traced Nat

namespace Reads

/-- `ap[i]`. -/
def byteAt (ap : Addr) (i : Nat) : Reads UInt8 := ⟨[i], .ok (ap i)⟩

/-- `memcmp(ap1, ap2, n)`, which may read all of the bytes. -/
def memDiffer (ap1 ap2 : Addr) (n : Nat) : Reads Bool :=
  ⟨List.range n, .ok (Radix.memDiffer ap1 ap2 n)⟩

/-- `BIT_TEST(ap[RNBYTE(bit)], tbit)`. -/
def bitTestAt (ap : Addr) (bit : Nat) (tbit : UInt8) : Reads Bool := do
  let b ← byteAt ap (rnbyte bit)
  return bitTest b tbit

/-- `rdx_compare_address` (`std_radix.c:154-166`). -/
def rdxCompareAddress (ap1 ap2 : Addr) (tbyte : Nat) (tbit : UInt8) : Reads Bool := do
  let mask := ~~~(tbit ||| (tbit - 1))
  let x ← byteAt ap1 tbyte
  let y ← byteAt ap2 tbyte
  if (x ^^^ y) &&& mask != 0 then return true
  if tbyte != 0 then memDiffer ap1 ap2 tbyte else return false

/-- The loop that looks for the first different bit (`std_radix.c:695-701` and `925-931`). -/
def dbitLoop (addr hisAddr : Addr) (bits2chk : Nat) : Nat → Nat → Reads Nat
  | 0, _ => liftM (Except.error .diverges : Exec Nat)
  | fuel + 1, dbit =>
    if dbit < bits2chk then do
      let i := dbit >>> 3
      let x ← byteAt addr i
      let y ← byteAt hisAddr i
      if x != y then return (dbit + firstBitSet (x ^^^ y)) % 2 ^ 16
      else dbitLoop addr hisAddr bits2chk fuel ((dbit + 8) % 2 ^ 16)
    else return dbit

/-- The descent shared by the routines. -/
def descend (nodes : Heap RtNode) (go : RtNode → Bool) (addr : Addr) : Nat → Ptr → Reads Ptr
  | 0, _ => liftM (Except.error .diverges : Exec Ptr)
  | fuel + 1, rtn => do
    let n ← nodes.deref rtn
    if go n then do
      let right ← bitTestAt addr n.rtnBit n.rtnTbit
      if right then
        if n.rtnRight = NULL then return rtn else descend nodes go addr fuel n.rtnRight
      else
        if n.rtnLeft = NULL then return rtn else descend nodes go addr fuel n.rtnLeft
    else return rtn

/-- The walk back to the root for a match (`std_radix.c:282-292`). -/
def backtrack (rtt : RtTable) (addr : Addr) (bitlen : Nat) : Nat → Ptr → Reads Ptr
  | 0, _ => liftM (Except.error .diverges : Exec Ptr)
  | fuel + 1, rtn =>
    if rtn = NULL then return NULL
    else do
      let n ← rtt.nodes.deref rtn
      if bitlen < n.rtnBit then backtrack rtt addr bitlen fuel n.rtnParent
      else if n.rtnRth = NULL then backtrack rtt addr bitlen fuel n.rtnParent
      else do
        let his ← rtt.rdxAddr n.rtnRth
        let differ ← rdxCompareAddress addr his (rnbyte n.rtnBit) n.rtnTbit
        if differ then backtrack rtt addr bitlen fuel n.rtnParent else return rtn

/-- `std_radix_getexact` (`std_radix.c:565-636`). -/
def stdRadixGetexact (rtt : RtTable) (addr : Option Addr) (bitlen : Nat) : Reads Ptr :=
  match addr with
  | none => liftM (rtt.stdRadixGetexact none bitlen)
  | some addr =>
    if rtt.rttDebug && rtt.rttMaxaddrlen < bitlen then return NULL
    else if rtt.rttRoot = NULL then return NULL
    else do
      let ap := if rtt.rttDebug then rtt.queryAddr addr else addr
      let rtn ← descend rtt.nodes (shorter bitlen) ap (rtt.nodes.bound + 1) rtt.rttRoot
      let n ← rtt.nodes.deref rtn
      if n.rtnBit != bitlen || n.rtnRth = NULL then return NULL
      let his ← rtt.rdxAddr n.rtnRth
      let differ ← rdxCompareAddress ap his (rnbyte n.rtnBit) n.rtnTbit
      if differ then return NULL
      if n.marked then return NULL
      return n.rtnRth

/-- The best match as a node (`std_radix.c:259-292`). -/
def bestNode (rtt : RtTable) (addr : Addr) (bitlen : Nat) : Reads Ptr := do
  let rtn ← descend rtt.nodes (shorter bitlen) addr (rtt.nodes.bound + 1) rtt.rttRoot
  backtrack rtt addr bitlen (rtt.nodes.bound + 1) rtn

/-- `std_radix_getbest` (`std_radix.c:228-299`). -/
def stdRadixGetbest (rtt : RtTable) (addr : Option Addr) (bitlen : Nat) : Reads Ptr :=
  match addr with
  | none => return NULL
  | some addr =>
    if rtt.rttDebug && rtt.rttMaxaddrlen < bitlen then return NULL
    else if rtt.rttRoot = NULL then return NULL
    else do
      let rtn ← bestNode rtt (rtt.queryAddr addr) bitlen
      liftM (liveHead rtt rtn)

/-- `std_radix_getbestandprev` (`std_radix.c:301-404`). -/
def stdRadixGetbestandprev (rtt : RtTable) (addr : Option Addr) (bitlen : Nat) (lessbest : Ptr) :
    Reads (Ptr × Ptr) :=
  match addr with
  | none => return (NULL, lessbest)
  | some addr =>
    if rtt.rttDebug && rtt.rttMaxaddrlen < bitlen then return (NULL, lessbest)
    else if rtt.rttRoot = NULL then return (NULL, lessbest)
    else do
      let rtn ← bestNode rtt (rtt.queryAddr addr) bitlen
      if rtn = NULL then return (NULL, NULL)
      let n ← rtt.nodes.deref rtn
      if n.marked then return (NULL, NULL)
      let prev ← backtrack rtt (rtt.queryAddr addr) bitlen (rtt.nodes.bound + 1) n.rtnParent
      let less ← liveHead rtt prev
      return (n.rtnRth, less)

/-- `std_radix_getnextbest` (`std_radix.c:406-491`). -/
def stdRadixGetnextbest (rtt : RtTable) (addr : Option Addr) (bitlen : Nat) : Reads Ptr :=
  match addr with
  | none => return NULL
  | some addr =>
    if rtt.rttDebug && rtt.rttMaxaddrlen < bitlen then return NULL
    else if rtt.rttRoot = NULL then return NULL
    else do
      let rtn ← bestNode rtt (rtt.queryAddr addr) bitlen
      if rtn = NULL then return NULL
      let n ← rtt.nodes.deref rtn
      if n.marked then return NULL
      let prev ← backtrack rtt (rtt.queryAddr addr) bitlen (rtt.nodes.bound + 1) n.rtnParent
      liftM (liveHead rtt prev)

/-- Where `std_radix_getnext` starts to look for a head (`std_radix.c:674-763`). -/
def nextStart (rtt : RtTable) (ap : Addr) (bitlen : Nat) : Reads Ptr := do
  let fuel := rtt.nodes.bound + 1
  let rtn ← descend rtt.nodes (shorterOrGlue bitlen) ap fuel rtt.rttRoot
  let n ← rtt.nodes.deref rtn
  let bits2chk := min n.rtnBit bitlen
  let ap2 ← rtt.rdxAddr n.rtnRth
  let dbit ← dbitLoop ap ap2 bits2chk 8193 0
  if bits2chk ≤ dbit then
    if n.rtnBit ≤ bitlen then liftM (preorderNext rtt.nodes rtn) else return rtn
  else do
    let right ← bitTestAt ap dbit (rnbit dbit)
    if right then liftM (climbSmaller rtt.nodes dbit fuel rtn)
    else liftM (climbGreater rtt.nodes dbit fuel rtn)

/-- `std_radix_getnext` (`std_radix.c:638-801`). -/
def stdRadixGetnext (rtt : RtTable) (dest : Option Addr) (bitlen : Nat) : Reads Ptr :=
  if rtt.rttDebug && rtt.rttMaxaddrlen < bitlen then return NULL
  else if rtt.rttRoot = NULL then return NULL
  else do
    let rtn ← match dest with
      | some dest => nextStart rtt (rtt.queryAddr dest) bitlen
      | none => pure rtt.rttRoot
    liftM (firstHead rtt.nodes (rtt.nodes.bound + 1) rtn)

/-- `_std_radix_getsubtree` (`std_radix.c:497-563`). -/
def stdRadixGetsubtree (rtt : RtTable) (addr : Option Addr) (bitlen : Nat) : Reads Ptr :=
  if rtt.rttDebug && (rtt.rttMaxaddrlen < bitlen || addr.isNone) then return NULL
  else if rtt.rttRoot = NULL then return NULL
  else do
    let rth ← stdRadixGetexact rtt addr bitlen
    if rth ≠ NULL then do
      let hd ← rtt.readHead rth
      return hd.rthRtn
    else do
      let rth ← stdRadixGetnext rtt addr bitlen
      if rth = NULL then return NULL
      else do
        let his ← rtt.rdxAddr rth
        match addr with
        | none => liftM (Except.error (.badPointer NULL) : Exec Ptr)
        | some addr => do
          let differ ← rdxCompareAddress (rtt.queryAddr addr) his (rnbyte bitlen) (rnbit bitlen)
          if differ then return NULL
          else do
            let hd ← rtt.readHead rth
            liftM (climbTop rtt.nodes bitlen (rtt.nodes.bound + 1) hd.rthRtn)

/-! ## `std_radix_insert` -/

/-- The stored key of the head is prepared (`std_radix.c:810-869`): a copy is compared with
`rtt->temp`, or made from it. -/
def prepareKey (rtt : RtTable) (copyOk : Bool) (rth : Ptr) : Reads (Bool × RtTable) := do
  let hd ← rtt.readHead rth
  match rtt.rttConvert, hd.rthAddr with
  | some convert, some addr =>
    let temp := convert addr rtt.rttMaxaddrlen
    match hd.rdxRthAddr with
    | none =>
      if copyOk then do
        Traced.emit (List.range rtt.keyBytes)
        return (true,
          rtt.setHead rth { hd with rdxRthAddr := some temp, magic := RT_RTH_ADDR_MAGIC })
      else return (false, rtt)
    | some a => do
      let differ ← if hd.magic = RT_RTH_ADDR_MAGIC then memDiffer a temp rtt.keyBytes else pure true
      let _ ← assertThat (!differ)
      return (true, rtt)
  | _, none => liftM (Except.error .assertion : Exec (Bool × RtTable))
  | none, some addr => return (true, rtt.setHead rth { hd with rdxRthAddr := some addr })

/-- The new node `rtnAdd` goes below `rtn` (`std_radix.c:1015-1026`). -/
def attachBelow (rtt : RtTable) (addr : Addr) (rth rtn rtnAdd : Ptr) (bitlen dbit : Nat) :
    Reads (Ptr × RtTable) := do
  let _ ← assertThat (dbit < bitlen)
  let nodes ← rtt.nodes.update rtnAdd fun n => { n with rtnParent := rtn }
  let n ← nodes.deref rtn
  let right ← bitTestAt addr n.rtnBit n.rtnTbit
  let nodes ←
    if right then do
      let _ ← assertThat (n.rtnRight = NULL)
      nodes.update rtn fun n => { n with rtnRight := rtnAdd }
    else do
      let _ ← assertThat (n.rtnLeft = NULL)
      nodes.update rtn fun n => { n with rtnLeft := rtnAdd }
  return (rth, { rtt with nodes := nodes, rttRoutes := rtt.rttRoutes + 1 })

/-- The new node `rtnAdd` and `rtn` part at bit `dbit` (`std_radix.c:1041-1081`); the bit of the key
is tested once the glue node is there. -/
def insertGlue (rtt : RtTable) (A : Malloc RtNode) (addr : Addr) (rth rtn rtnPrev rtnAdd : Ptr)
    (dbit : Nat) : Reads (Ptr × RtTable) :=
  match A.next rtt.nodes with
  | none => liftM (rtt.insertGlue A addr rth rtn rtnPrev rtnAdd dbit)
  | some _ => do
    let _ ← bitTestAt addr dbit (rnbit dbit)
    liftM (rtt.insertGlue A addr rth rtn rtnPrev rtnAdd dbit)

/-- The new node `rtnAdd` goes below `rtn`, above `rtn`, or beside it (`std_radix.c:1010-1081`). -/
def linkNode (rtt : RtTable) (A : Malloc RtNode) (addr hisAddr : Addr)
    (rth rtn rtnPrev rtnAdd : Ptr) (bitlen dbit : Nat) : Reads (Ptr × RtTable) := do
  let n ← rtt.nodes.deref rtn
  if n.rtnBit = dbit then attachBelow rtt addr rth rtn rtnAdd bitlen dbit
  else if dbit = bitlen then do
    let right ← bitTestAt hisAddr bitlen (rnbit bitlen)
    let nodes ← rtt.nodes.update rtnAdd fun m =>
      if right then { m with rtnRight := rtn } else { m with rtnLeft := rtn }
    liftM (linkAbove { rtt with nodes := nodes } rth rtn rtnPrev rtnAdd)
  else insertGlue rtt A addr rth rtn rtnPrev rtnAdd dbit

/-- A new node is needed (`std_radix.c:999-1082`). -/
def insertNode (rtt : RtTable) (A : Malloc RtNode) (addr hisAddr : Addr) (rth rtn rtnPrev : Ptr)
    (bitlen dbit : Nat) : Reads (Ptr × RtTable) :=
  match rtt.newNode A { RtNode.new bitlen with rtnRth := rth } with
  | (rtnAdd, rtt) =>
    if rtnAdd = NULL then return (NULL, rtt)
    else linkNode (rtt.setRtn rth rtnAdd) A addr hisAddr rth rtn rtnPrev rtnAdd bitlen dbit

/-- Insertion into a table with a root (`std_radix.c:914-1082`). -/
def insertBelowRoot (rtt : RtTable) (A : Malloc RtNode) (rth : Ptr) (bitlen : Nat) :
    Reads (Ptr × RtTable) := do
  let fuel := rtt.nodes.bound + 1
  let addr ← rtt.rdxAddr rth
  let rtn ← descend rtt.nodes (shorterOrGlue bitlen) addr fuel rtt.rttRoot
  let n ← rtt.nodes.deref rtn
  let bits2chk := min n.rtnBit bitlen
  let hisAddr ← rtt.rdxAddr n.rtnRth
  let dbit ← dbitLoop addr hisAddr bits2chk 8193 0
  let dbit := if bits2chk < dbit then bits2chk else dbit
  let place ← insertClimb rtt.nodes dbit fuel rtn
  let n ← rtt.nodes.deref place.1
  if dbit = bitlen && n.rtnBit = bitlen then liftM (fillNode rtt rth place.1)
  else insertNode rtt A addr hisAddr rth place.1 place.2 bitlen dbit

/-- `std_radix_insert` (`std_radix.c:803-1083`). -/
def stdRadixInsert (rtt : RtTable) (A : Malloc RtNode) (copyOk : Bool) (rth : Ptr)
    (bitlen : Nat) : Reads (Ptr × RtTable) := do
  let key ← prepareKey rtt copyOk rth
  if !key.1 then return (NULL, key.2)
  else
    let rtt ← liftM (key.2.debugStart rth)
    if rtt.rttDebug && rtt.rttMaxaddrlen < bitlen then return (NULL, rtt)
    else
      let rtt := { rtt with rttNinserts := rtt.rttNinserts + 1 }
      if rtt.rttRoot = NULL then return insertRoot rtt A rth bitlen
      else insertBelowRoot rtt A rth bitlen

end Reads

/-- A call of a routine that reads keys. The user of `std_radix_insert` writes the address into the
head. -/
inductive ByteCall where
  | getexact (addr : Option Addr) (bitlen : Nat)
  | getbest (addr : Option Addr) (bitlen : Nat)
  | getbestandprev (addr : Option Addr) (bitlen : Nat) (lessbest : Ptr)
  | getnextbest (addr : Option Addr) (bitlen : Nat)
  | getnext (dest : Option Addr) (bitlen : Nat)
  | getsubtree (addr : Option Addr) (bitlen : Nat)
  | insert (A : Malloc RtNode) (copyOk : Bool) (rth : Ptr) (addr : Addr) (bitlen : Nat)

namespace ByteCall

/-- The length of the key. -/
def bitlen : ByteCall → Nat
  | .getexact _ bitlen | .getbest _ bitlen | .getbestandprev _ bitlen _ | .getnextbest _ bitlen
  | .getnext _ bitlen | .getsubtree _ bitlen | .insert _ _ _ _ bitlen => bitlen

/-- The byte indices that the call reads. -/
def reads (rtt : RtTable) : ByteCall → List Nat
  | .getexact addr bitlen => (Reads.stdRadixGetexact rtt addr bitlen).events
  | .getbest addr bitlen => (Reads.stdRadixGetbest rtt addr bitlen).events
  | .getbestandprev addr bitlen lessbest =>
    (Reads.stdRadixGetbestandprev rtt addr bitlen lessbest).events
  | .getnextbest addr bitlen => (Reads.stdRadixGetnextbest rtt addr bitlen).events
  | .getnext dest bitlen => (Reads.stdRadixGetnext rtt dest bitlen).events
  | .getsubtree addr bitlen => (Reads.stdRadixGetsubtree rtt addr bitlen).events
  | .insert A copyOk rth addr bitlen =>
    (Reads.stdRadixInsert (rtt.setHead rth { rtt.heads rth with rthAddr := some addr }) A copyOk rth
      bitlen).events

end ByteCall

namespace Reads

/-! ## The routines deliver the same -/

@[simp] theorem result_byteAt (ap : Addr) (i : Nat) : (byteAt ap i).result = .ok (ap i) := rfl

@[simp] theorem result_memDiffer (ap1 ap2 : Addr) (n : Nat) :
    (memDiffer ap1 ap2 n).result = .ok (Radix.memDiffer ap1 ap2 n) := rfl

@[simp] theorem result_bitTestAt (ap : Addr) (bit : Nat) (tbit : UInt8) :
    (bitTestAt ap bit tbit).result = .ok (bitTest (ap (rnbyte bit)) tbit) := rfl

@[simp] theorem result_rdxCompareAddress (ap1 ap2 : Addr) (tbyte : Nat) (tbit : UInt8) :
    (rdxCompareAddress ap1 ap2 tbyte tbit).result =
      .ok (Radix.rdxCompareAddress ap1 ap2 tbyte tbit) := by
  unfold rdxCompareAddress Radix.rdxCompareAddress
  dsimp only
  simp only [Traced.result_bind, result_byteAt, exec_bind_ok]
  split
  · rfl
  · split
    · next h => rw [h, Bool.true_and, result_memDiffer]
    · next h =>
      rw [Bool.eq_false_of_not_eq_true h]
      rfl

@[simp] theorem result_dbitLoop (addr hisAddr : Addr) (m : Nat) : ∀ (fuel dbit : Nat),
    (dbitLoop addr hisAddr m fuel dbit).result = Radix.dbitLoop addr hisAddr m fuel dbit := by
  intro fuel
  induction fuel with
  | zero => exact fun _ => rfl
  | succ fuel ih =>
    intro dbit
    rw [dbitLoop, Radix.dbitLoop]
    split
    · simp only [Traced.result_bind, result_byteAt, exec_bind_ok, Traced.result_ite, ih]
      rfl
    · rfl

@[simp] theorem result_descend (nodes : Heap RtNode) (go : RtNode → Bool) (addr : Addr) :
    ∀ (fuel : Nat) (rtn : Ptr),
      (descend nodes go addr fuel rtn).result = RtTable.descend nodes go addr fuel rtn := by
  intro fuel
  induction fuel with
  | zero => exact fun _ => rfl
  | succ fuel ih =>
    intro rtn
    rw [descend, RtTable.descend, Traced.result_bind]
    refine congrArg _ (funext fun n => ?_)
    simp only [Traced.result_ite, Traced.result_bind, result_bitTestAt, exec_bind_ok, ih]
    rfl

@[simp] theorem result_backtrack (rtt : RtTable) (addr : Addr) (bitlen : Nat) :
    ∀ (fuel : Nat) (rtn : Ptr),
      (backtrack rtt addr bitlen fuel rtn).result = RtTable.backtrack rtt addr bitlen fuel rtn := by
  intro fuel
  induction fuel with
  | zero => exact fun _ => rfl
  | succ fuel ih =>
    intro rtn
    rw [backtrack, RtTable.backtrack]
    simp only [Traced.result_ite, Traced.result_bind, result_rdxCompareAddress, exec_bind_ok, ih]
    rfl

@[simp] theorem result_bestNode (rtt : RtTable) (addr : Addr) (bitlen : Nat) :
    (bestNode rtt addr bitlen).result = RtTable.bestNode rtt addr bitlen := by
  simp only [bestNode, RtTable.bestNode, Traced.result_bind, result_descend, result_backtrack]

@[simp] theorem result_stdRadixGetexact (rtt : RtTable) (addr : Option Addr) (bitlen : Nat) :
    (stdRadixGetexact rtt addr bitlen).result = rtt.stdRadixGetexact addr bitlen := by
  cases addr with
  | none => rfl
  | some addr =>
    unfold stdRadixGetexact RtTable.stdRadixGetexact
    simp only [Traced.result_ite, Traced.result_bind, result_descend, result_rdxCompareAddress,
      exec_bind_ok, Option.isNone_some, Bool.and_false, Bool.false_eq_true, if_false]
    rfl

@[simp] theorem result_stdRadixGetbest (rtt : RtTable) (addr : Option Addr) (bitlen : Nat) :
    (stdRadixGetbest rtt addr bitlen).result = rtt.stdRadixGetbest addr bitlen := by
  cases addr with
  | none => rfl
  | some addr =>
    unfold stdRadixGetbest RtTable.stdRadixGetbest
    simp only [Traced.result_ite, Traced.result_bind, result_bestNode]
    rfl

@[simp] theorem result_stdRadixGetbestandprev (rtt : RtTable) (addr : Option Addr) (bitlen : Nat)
    (lessbest : Ptr) : (stdRadixGetbestandprev rtt addr bitlen lessbest).result =
      rtt.stdRadixGetbestandprev addr bitlen lessbest := by
  cases addr with
  | none => rfl
  | some addr =>
    unfold stdRadixGetbestandprev RtTable.stdRadixGetbestandprev
    simp only [Traced.result_ite, Traced.result_bind, result_bestNode, result_backtrack]
    rfl

@[simp] theorem result_stdRadixGetnextbest (rtt : RtTable) (addr : Option Addr) (bitlen : Nat) :
    (stdRadixGetnextbest rtt addr bitlen).result = rtt.stdRadixGetnextbest addr bitlen := by
  cases addr with
  | none => rfl
  | some addr =>
    unfold stdRadixGetnextbest RtTable.stdRadixGetnextbest
    simp only [Traced.result_ite, Traced.result_bind, result_bestNode, result_backtrack]
    rfl

@[simp] theorem result_nextStart (rtt : RtTable) (ap : Addr) (bitlen : Nat) :
    (nextStart rtt ap bitlen).result = rtt.nextStart ap bitlen := by
  unfold nextStart RtTable.nextStart dbitOf
  simp only [Traced.result_ite, Traced.result_bind, result_descend, result_dbitLoop,
    result_bitTestAt, exec_bind_ok]
  rfl

@[simp] theorem result_stdRadixGetnext (rtt : RtTable) (dest : Option Addr) (bitlen : Nat) :
    (stdRadixGetnext rtt dest bitlen).result = rtt.stdRadixGetnext dest bitlen := by
  unfold stdRadixGetnext RtTable.stdRadixGetnext
  cases dest with
  | none =>
    simp only [Traced.result_ite, Traced.result_bind]
    rfl
  | some dest =>
    simp only [Traced.result_ite, Traced.result_bind, result_nextStart]
    rfl

@[simp] theorem result_stdRadixGetsubtree (rtt : RtTable) (addr : Option Addr) (bitlen : Nat) :
    (stdRadixGetsubtree rtt addr bitlen).result = rtt.stdRadixGetsubtree addr bitlen := by
  unfold stdRadixGetsubtree RtTable.stdRadixGetsubtree
  cases addr with
  | none =>
    simp only [Traced.result_ite, Traced.result_bind, result_stdRadixGetexact,
      result_stdRadixGetnext]
    rfl
  | some addr =>
    simp only [Traced.result_ite, Traced.result_bind, result_stdRadixGetexact,
      result_stdRadixGetnext, result_rdxCompareAddress, exec_bind_ok]
    rfl

@[simp] theorem result_prepareKey (rtt : RtTable) (copyOk : Bool) (rth : Ptr) :
    (prepareKey rtt copyOk rth).result = rtt.prepareKey copyOk rth := by
  unfold prepareKey RtTable.prepareKey
  rw [Traced.result_bind]
  refine congrArg _ (funext fun hd => ?_)
  cases rtt.rttConvert with
  | none => cases hd.rthAddr <;> rfl
  | some convert =>
    cases hd.rthAddr with
    | none => rfl
    | some addr =>
      dsimp only
      cases hd.rdxRthAddr with
      | none => cases copyOk <;> rfl
      | some a =>
        simp only [Traced.result_bind, Traced.result_ite]
        by_cases hmagic : hd.magic = RT_RTH_ADDR_MAGIC
        · simp [hmagic]
        · simp [hmagic]

@[simp] theorem result_attachBelow (rtt : RtTable) (addr : Addr) (rth rtn rtnAdd : Ptr)
    (bitlen dbit : Nat) : (attachBelow rtt addr rth rtn rtnAdd bitlen dbit).result =
      rtt.attachBelow addr rth rtn rtnAdd bitlen dbit := by
  unfold attachBelow RtTable.attachBelow
  simp only [Traced.result_ite, Traced.result_bind, result_bitTestAt, exec_bind_ok]
  rfl

@[simp] theorem result_insertGlue (rtt : RtTable) (A : Malloc RtNode) (addr : Addr)
    (rth rtn rtnPrev rtnAdd : Ptr) (dbit : Nat) :
    (insertGlue rtt A addr rth rtn rtnPrev rtnAdd dbit).result =
      rtt.insertGlue A addr rth rtn rtnPrev rtnAdd dbit := by
  unfold insertGlue
  split <;> rfl

@[simp] theorem result_linkNode (rtt : RtTable) (A : Malloc RtNode) (addr hisAddr : Addr)
    (rth rtn rtnPrev rtnAdd : Ptr) (bitlen dbit : Nat) :
    (linkNode rtt A addr hisAddr rth rtn rtnPrev rtnAdd bitlen dbit).result =
      rtt.linkNode A addr hisAddr rth rtn rtnPrev rtnAdd bitlen dbit := by
  unfold linkNode RtTable.linkNode
  simp only [Traced.result_ite, Traced.result_bind, result_bitTestAt, result_attachBelow,
    result_insertGlue, exec_bind_ok]
  rfl

@[simp] theorem result_insertNode (rtt : RtTable) (A : Malloc RtNode) (addr hisAddr : Addr)
    (rth rtn rtnPrev : Ptr) (bitlen dbit : Nat) :
    (insertNode rtt A addr hisAddr rth rtn rtnPrev bitlen dbit).result =
      rtt.insertNode A addr hisAddr rth rtn rtnPrev bitlen dbit := by
  unfold insertNode RtTable.insertNode
  simp only [Traced.result_ite, result_linkNode]
  rfl

@[simp] theorem result_insertBelowRoot (rtt : RtTable) (A : Malloc RtNode) (rth : Ptr)
    (bitlen : Nat) : (insertBelowRoot rtt A rth bitlen).result =
      rtt.insertBelowRoot A rth bitlen := by
  unfold insertBelowRoot RtTable.insertBelowRoot dbitOf
  simp only [Traced.result_ite, Traced.result_bind, result_descend, result_dbitLoop,
    result_insertNode]
  rfl

@[simp] theorem result_stdRadixInsert (rtt : RtTable) (A : Malloc RtNode) (copyOk : Bool)
    (rth : Ptr) (bitlen : Nat) : (stdRadixInsert rtt A copyOk rth bitlen).result =
      rtt.stdRadixInsert A copyOk rth bitlen := by
  unfold stdRadixInsert RtTable.stdRadixInsert RtTable.insertKey
  simp only [Traced.result_ite, Traced.result_bind, result_prepareKey, result_insertBelowRoot]
  rfl

end Reads

end OpxCommonUtils.Radix
