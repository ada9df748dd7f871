import OpxCommonUtils.Radix.Lookup

/-!
# Subtree walks (`std_radix_powerwalkstart`, `inc/opx/std_radix.h`)

The two macros of a subtree walk put a loop around the code of the user, who gets one head a round
and leaves the table alone. The walk is a function here: it returns the heads the user gets. The
root of the subtree comes from `_std_radix_getsubtree`, or is that of the table when there is no
`rootaddr`.
-/

namespace OpxCommonUtils.Radix

namespace RtTable

/-- The climb to the topmost node of at least `bitlen` bits (`std_radix.c:557-558`). -/
def climbTop (nodes : Heap RtNode) (bitlen : Nat) : Nat → Ptr → Exec Ptr
  | 0, _ => .error .diverges
  | fuel + 1, rtn => do
    let n ← nodes.deref rtn
    if n.rtnParent = NULL then return rtn
    let parent ← nodes.deref n.rtnParent
    if bitlen ≤ parent.rtnBit then climbTop nodes bitlen fuel n.rtnParent else return rtn

/-- `_std_radix_getsubtree` (`std_radix.c:497-563`): a node. -/
def stdRadixGetsubtree (rtt : RtTable) (addr : Option Addr) (bitlen : Nat) : Exec Ptr := do
  if rtt.rttDebug && (rtt.rttMaxaddrlen < bitlen || addr.isNone) then return NULL
  if rtt.rttRoot = NULL then return NULL
  let rth ← rtt.stdRadixGetexact addr bitlen
  if rth ≠ NULL then
    let hd ← rtt.readHead rth
    return hd.rthRtn
  let rth ← rtt.stdRadixGetnext addr bitlen
  if rth = NULL then return NULL
  let his ← rtt.rdxAddr rth
  match addr with
  | none => Except.error (.badPointer NULL)
  | some addr =>
    if rdxCompareAddress (rtt.queryAddr addr) his (rnbyte bitlen) (rnbit bitlen) then return NULL
    let hd ← rtt.readHead rth
    climbTop rtt.nodes bitlen (rtt.nodes.bound + 1) hd.rthRtn

/-- The loop that sets `insubtree` (`std_radix.h:574-581`). -/
def insubtree (nodes : Heap RtNode) (root : Ptr) : Nat → Ptr → Exec Bool
  | 0, _ => .error .diverges
  | fuel + 1, rtn =>
    if rtn = NULL then .ok false
    else if rtn = root then .ok true
    else do
      let n ← nodes.deref rtn
      insubtree nodes root fuel n.rtnParent

/-- The climb from a leaf to the next branch of the subtree, or to its root
(`std_radix.h:604-614`). -/
def powerwalkUp (nodes : Heap RtNode) (root : Ptr) : Nat → Ptr → Exec Ptr
  | 0, _ => .error .diverges
  | fuel + 1, rtn =>
    if rtn = root then .ok rtn
    else do
      let n ← nodes.deref rtn
      if n.rtnParent = NULL then return rtn
      let parent ← nodes.deref n.rtnParent
      if parent.rtnRight = rtn ∨ parent.rtnRight = NULL then
        powerwalkUp nodes root fuel n.rtnParent
      else return parent.rtnRight

/-- The node after `rtn` (`std_radix.h:598-616`), the root of the subtree after the last. -/
def powerwalkNext (nodes : Heap RtNode) (root rtn : Ptr) : Exec Ptr := do
  let n ← nodes.deref rtn
  if n.rtnLeft ≠ NULL then return n.rtnLeft
  if n.rtnRight ≠ NULL then return n.rtnRight
  powerwalkUp nodes root (nodes.bound + 1) rtn

/-- The loop between the macros (`std_radix.h:584-617`): the heads of the rounds. -/
def powerwalkLoop (nodes : Heap RtNode) (root : Ptr) : Nat → Ptr → Exec (List Ptr)
  | 0, _ => .error .diverges
  | fuel + 1, rtn => do
    let n ← nodes.deref rtn
    let rths := if n.rtnRth ≠ NULL ∧ n.marked = false then [n.rtnRth] else []
    let next ← powerwalkNext nodes root rtn
    if next = root then return rths
    let rest ← powerwalkLoop nodes root fuel next
    return rths ++ rest

/-- Where the walk starts (`std_radix.h:566-573`). -/
def powerwalkFirst (rtt : RtTable) (root : Ptr) (nextaddr : Option Addr) (nextlen : Nat) :
    Exec Ptr := do
  if nextaddr.isNone then return root
  let rth ← rtt.stdRadixGetexact nextaddr nextlen
  if rth ≠ NULL then
    let hd ← rtt.readHead rth
    return hd.rthRtn
  let rth ← rtt.stdRadixGetnext nextaddr nextlen
  if rth = NULL then return NULL
  let hd ← rtt.readHead rth
  return hd.rthRtn

/-- `std_radix_powerwalkstart` and `std_radix_powerwalkend` (`std_radix.h:554-619`). -/
def stdRadixPowerwalk (rtt : RtTable) (rootaddr : Option Addr) (rootlen : Nat)
    (nextaddr : Option Addr) (nextlen : Nat) : Exec (List Ptr) := do
  let root ← if rootaddr.isSome then rtt.stdRadixGetsubtree rootaddr rootlen else pure rtt.rttRoot
  let first ← rtt.powerwalkFirst root nextaddr nextlen
  let inside ← insubtree rtt.nodes root (rtt.nodes.bound + 1) first
  if root ≠ NULL ∧ first ≠ NULL ∧ inside then
    powerwalkLoop rtt.nodes root (rtt.nodes.bound + 1) first
  else return []

end RtTable

end OpxCommonUtils.Radix
