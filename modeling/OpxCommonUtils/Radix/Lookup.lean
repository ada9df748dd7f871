import OpxCommonUtils.Radix.Compare

/-!
# The lookup routines (`src/std_radix.c`)

Every routine follows the bits of the address down the tree and then looks back towards the
root. A loop that follows pointers has as many rounds to go as the heap has addresses: a longer
one has met a node twice and never ends. Results are heads, `NULL` when there is none.
-/

namespace OpxCommonUtils.Radix

namespace RtTable

/-- The descent shared by the routines: follow the address bits while `go` holds of the node, and
stop where the child is missing. -/
def descend (nodes : Heap RtNode) (go : RtNode → Bool) (addr : Addr) : Nat → Ptr → Exec Ptr
  | 0, _ => .error .diverges
  | fuel + 1, rtn => do
    let n ← nodes.deref rtn
    if go n then
      if bitTest (addr (rnbyte n.rtnBit)) n.rtnTbit then
        if n.rtnRight = NULL then .ok rtn else descend nodes go addr fuel n.rtnRight
      else
        if n.rtnLeft = NULL then .ok rtn else descend nodes go addr fuel n.rtnLeft
    else .ok rtn

/-- The loop condition of `std_radix_getbest` and `std_radix_getexact`. -/
def shorter (bitlen : Nat) (n : RtNode) : Bool := n.rtnBit < bitlen

/-- The loop condition of `std_radix_insert` and `std_radix_getnext`. -/
def shorterOrGlue (bitlen : Nat) (n : RtNode) : Bool := n.rtnBit < bitlen || n.rtnRth = NULL

/-- `std_radix_getexact` (`std_radix.c:565-636`). The check for a missing address and the
conversion stand inside the debug block, so without `rtt_debug` a missing address is read. -/
def stdRadixGetexact (rtt : RtTable) (addr : Option Addr) (bitlen : Nat) : Exec Ptr := do
  if rtt.rttDebug && addr.isNone then return NULL
  if rtt.rttDebug && rtt.rttMaxaddrlen < bitlen then return NULL
  if rtt.rttRoot = NULL then return NULL
  match addr with
  | none =>
    let n ← rtt.nodes.deref rtt.rttRoot
    if bitlen < n.rtnBit || (n.rtnBit = bitlen && n.rtnRth = NULL) then return NULL
    Except.error (.badPointer NULL)
  | some addr =>
    let ap := if rtt.rttDebug then rtt.queryAddr addr else addr
    let rtn ← descend rtt.nodes (shorter bitlen) ap (rtt.nodes.bound + 1) rtt.rttRoot
    let n ← rtt.nodes.deref rtn
    if n.rtnBit != bitlen || n.rtnRth = NULL then return NULL
    let his ← rtt.rdxAddr n.rtnRth
    if rdxCompareAddress ap his (rnbyte n.rtnBit) n.rtnTbit then return NULL
    if n.marked then return NULL
    return n.rtnRth

/-- The walk back to the root for a match (`std_radix.c:282-292`): the node found, or `NULL`. -/
def backtrack (rtt : RtTable) (addr : Addr) (bitlen : Nat) : Nat → Ptr → Exec Ptr
  | 0, _ => .error .diverges
  | fuel + 1, rtn =>
    if rtn = NULL then .ok NULL
    else do
      let n ← rtt.nodes.deref rtn
      if bitlen < n.rtnBit then backtrack rtt addr bitlen fuel n.rtnParent
      else if n.rtnRth = NULL then backtrack rtt addr bitlen fuel n.rtnParent
      else
        let his ← rtt.rdxAddr n.rtnRth
        if rdxCompareAddress addr his (rnbyte n.rtnBit) n.rtnTbit then
          backtrack rtt addr bitlen fuel n.rtnParent
        else .ok rtn

/-- The head of a node unless the node is `NULL` or marked (`std_radix.c:294-297`). -/
def liveHead (rtt : RtTable) (rtn : Ptr) : Exec Ptr :=
  if rtn = NULL then .ok NULL
  else do
    let n ← rtt.nodes.deref rtn
    return if n.marked then NULL else n.rtnRth

/-- The best match as a node: the part `std_radix_getbest`, `std_radix_getbestandprev` and
`std_radix_getnextbest` have in common (`std_radix.c:259-292`). -/
def bestNode (rtt : RtTable) (addr : Addr) (bitlen : Nat) : Exec Ptr := do
  let rtn ← descend rtt.nodes (shorter bitlen) addr (rtt.nodes.bound + 1) rtt.rttRoot
  backtrack rtt addr bitlen (rtt.nodes.bound + 1) rtn

/-- `std_radix_getbest` (`std_radix.c:228-299`). -/
def stdRadixGetbest (rtt : RtTable) (addr : Option Addr) (bitlen : Nat) : Exec Ptr := do
  match addr with
  | none => return NULL
  | some addr =>
    let addr := rtt.queryAddr addr
    if rtt.rttDebug && rtt.rttMaxaddrlen < bitlen then return NULL
    if rtt.rttRoot = NULL then return NULL
    let rtn ← bestNode rtt addr bitlen
    liveHead rtt rtn

/-- `std_radix_getbestandprev` (`std_radix.c:301-404`): the best match and `*lessbest`, whose
content before the call is `lessbest`. -/
def stdRadixGetbestandprev (rtt : RtTable) (addr : Option Addr) (bitlen : Nat) (lessbest : Ptr) :
    Exec (Ptr × Ptr) := do
  match addr with
  | none => return (NULL, lessbest)
  | some addr =>
    let addr := rtt.queryAddr addr
    if rtt.rttDebug && rtt.rttMaxaddrlen < bitlen then return (NULL, lessbest)
    if rtt.rttRoot = NULL then return (NULL, lessbest)
    let rtn ← bestNode rtt addr bitlen
    if rtn = NULL then return (NULL, NULL)
    let n ← rtt.nodes.deref rtn
    if n.marked then return (NULL, NULL)
    let prev ← backtrack rtt addr bitlen (rtt.nodes.bound + 1) n.rtnParent
    let less ← liveHead rtt prev
    return (n.rtnRth, less)

/-- `std_radix_getnextbest` (`std_radix.c:406-491`). -/
def stdRadixGetnextbest (rtt : RtTable) (addr : Option Addr) (bitlen : Nat) : Exec Ptr := do
  match addr with
  | none => return NULL
  | some addr =>
    let addr := rtt.queryAddr addr
    if rtt.rttDebug && rtt.rttMaxaddrlen < bitlen then return NULL
    if rtt.rttRoot = NULL then return NULL
    let rtn ← bestNode rtt addr bitlen
    if rtn = NULL then return NULL
    let n ← rtt.nodes.deref rtn
    if n.marked then return NULL
    let prev ← backtrack rtt addr bitlen (rtt.nodes.bound + 1) n.rtnParent
    liveHead rtt prev

/-- The loop of `std_radix_getparent` and `std_radix_getlessspecific`: the first node with a head
from `rtn` upwards, as a head. -/
def headAbove (rtt : RtTable) : Nat → Ptr → Exec Ptr
  | 0, _ => .error .diverges
  | fuel + 1, rtn =>
    if rtn = NULL then .ok NULL
    else do
      let n ← rtt.nodes.deref rtn
      if n.rtnRth = NULL then headAbove rtt fuel n.rtnParent else .ok n.rtnRth

/-- `std_radix_getparent` (`std_radix.c:206-226`). -/
def stdRadixGetparent (rtt : RtTable) (rth : Ptr) : Exec Ptr := do
  let hd ← rtt.readHead rth
  let n ← rtt.nodes.deref hd.rthRtn
  headAbove rtt (rtt.nodes.bound + 1) n.rtnParent

/-- `std_radix_getlessspecific` (`std_radix.c:1710-1733`). -/
def stdRadixGetlessspecific (rtt : RtTable) (rth : Ptr) : Exec Ptr := do
  let hd ← rtt.readHead rth
  assertThat (hd.rthRtn != NULL)
  let n ← rtt.nodes.deref hd.rthRtn
  headAbove rtt (rtt.nodes.bound + 1) n.rtnParent

/-! ## The next entry -/

/-- The climb to the nearest right child not yet passed, or to `NULL` above the root, over the
nodes that `skip` says to pass by; `ok` is asserted of every node. -/
def climbBranch (nodes : Heap RtNode) (ok skip : RtNode → Bool) : Nat → Ptr → Exec Ptr
  | 0, _ => .error .diverges
  | fuel + 1, rnNext => do
    let x ← nodes.deref rnNext
    let rtn := x.rtnParent
    if rtn = NULL then return NULL
    let n ← nodes.deref rtn
    assertThat (ok n)
    if skip n || n.rtnRight = NULL || n.rtnRight = rnNext then climbBranch nodes ok skip fuel rtn
    else return n.rtnRight

/-- The climb to the next branch in preorder, from a node whose subtree is done
(`std_radix.c:720-729`). -/
def climbRight (nodes : Heap RtNode) : Nat → Ptr → Exec Ptr :=
  climbBranch nodes (fun _ => true) (fun _ => false)

/-- The node after `rtn` in preorder, `NULL` after the last. -/
def preorderNext (nodes : Heap RtNode) (rtn : Ptr) : Exec Ptr := do
  let n ← nodes.deref rtn
  if n.rtnLeft != NULL then return n.rtnLeft
  if n.rtnRight != NULL then return n.rtnRight
  climbRight nodes (nodes.bound + 1) rtn

/-- The climb past a branch that is smaller than the query (`std_radix.c:745-753`). -/
def climbSmaller (nodes : Heap RtNode) (dbit : Nat) : Nat → Ptr → Exec Ptr :=
  climbBranch nodes (fun n => n.rtnBit != dbit) (fun n => dbit < n.rtnBit)

/-- The climb to the top of a branch that is greater than the query (`std_radix.c:754-760`). -/
def climbGreater (nodes : Heap RtNode) (dbit : Nat) : Nat → Ptr → Exec Ptr
  | 0, _ => .error .diverges
  | fuel + 1, rtn => do
    let x ← nodes.deref rtn
    let rnNext := x.rtnParent
    if rnNext = NULL then return rtn
    let n ← nodes.deref rnNext
    if dbit < n.rtnBit then climbGreater nodes dbit fuel rnNext else return rtn

/-- The first head from a node on in preorder (`std_radix.c:772-797`). -/
def firstHead (nodes : Heap RtNode) : Nat → Ptr → Exec Ptr
  | 0, _ => .error .diverges
  | fuel + 1, rtn =>
    if rtn = NULL then .ok NULL
    else do
      let n ← nodes.deref rtn
      if n.rtnRth != NULL then return n.rtnRth
      let rtn ← preorderNext nodes rtn
      firstHead nodes fuel rtn

/-- Where `std_radix_getnext` starts to look for a head (`std_radix.c:674-763`): the landing node
of the query is compared with it and left for the node after, the branch after, or the top of
its own branch. -/
def nextStart (rtt : RtTable) (ap : Addr) (bitlen : Nat) : Exec Ptr := do
  let fuel := rtt.nodes.bound + 1
  let rtn ← descend rtt.nodes (shorterOrGlue bitlen) ap fuel rtt.rttRoot
  let n ← rtt.nodes.deref rtn
  let bits2chk := min n.rtnBit bitlen
  let ap2 ← rtt.rdxAddr n.rtnRth
  let dbit ← dbitOf ap ap2 bits2chk
  if bits2chk ≤ dbit then
    if n.rtnBit ≤ bitlen then preorderNext rtt.nodes rtn else return rtn
  else if bitTest (ap (rnbyte dbit)) (rnbit dbit) then climbSmaller rtt.nodes dbit fuel rtn
  else climbGreater rtt.nodes dbit fuel rtn

/-- `std_radix_getnext` (`std_radix.c:638-801`); without an address the search starts at the
root. -/
def stdRadixGetnext (rtt : RtTable) (dest : Option Addr) (bitlen : Nat) : Exec Ptr := do
  if rtt.rttDebug && rtt.rttMaxaddrlen < bitlen then return NULL
  if rtt.rttRoot = NULL then return NULL
  let rtn ← match dest with
    | some dest => nextStart rtt (rtt.queryAddr dest) bitlen
    | none => pure rtt.rttRoot
  firstHead rtt.nodes (rtt.nodes.bound + 1) rtn

end RtTable

end OpxCommonUtils.Radix
