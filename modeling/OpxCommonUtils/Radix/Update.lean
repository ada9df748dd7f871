import OpxCommonUtils.Radix.Lookup

/-!
# Insertion and removal (`src/std_radix.c`)

`std_radix_insert` and `std_radix_remove` with the private `_std_radix_remove`, cut at the
comments of the source into the steps that later proofs speak about. A routine that runs into a
failed assertion or a dangling pointer delivers a `Fault`.
-/

namespace OpxCommonUtils.Radix

namespace RtTable

/-! ## `std_radix_insert` -/

/-- The number of key bytes the table copies. -/
def keyBytes (rtt : RtTable) : Nat := (rtt.rttMaxaddrlen + 7) / 8

/-- The stored key of the head is prepared (`std_radix.c:810-869`): converted and copied when the
table converts, else aliased to `rth_addr`. The copy's allocation succeeds when `copyOk`;
`false` is returned where the source returns a null head. -/
def prepareKey (rtt : RtTable) (copyOk : Bool) (rth : Ptr) : Exec (Bool × RtTable) := do
  let hd ← rtt.readHead rth
  match rtt.rttConvert, hd.rthAddr with
  | some convert, some addr =>
    let temp := convert addr rtt.rttMaxaddrlen
    match hd.rdxRthAddr with
    | none =>
      if copyOk then
        return (true,
          rtt.setHead rth { hd with rdxRthAddr := some temp, magic := RT_RTH_ADDR_MAGIC })
      else return (false, rtt)
    | some a =>
      assertThat (hd.magic = RT_RTH_ADDR_MAGIC && !memDiffer a temp rtt.keyBytes)
      return (true, rtt)
  | _, none => Except.error .assertion
  | none, some addr => return (true, rtt.setHead rth { hd with rdxRthAddr := some addr })

/-- The debug block clears the head (`std_radix.c:871-891`). With it go the links of a head that is on
the change list, to which its neighbours still point: a fault. -/
def debugClear (rtt : RtTable) (rth : Ptr) : Exec RtTable :=
  let hd := { rtt.heads rth with rthRtn := NULL, rthVersion := 0 }
  if rtt.rttRadicalused || rtt.rttCarused then
    if rth ∈ rtt.rttClhead then .error (.badPointer rth)
    else .ok (rtt.setHead rth { hd with rdclFlags := 0 })
  else .ok (rtt.setHead rth hd)

/-- The debug block, where the table checks. -/
def debugStart (rtt : RtTable) (rth : Ptr) : Exec RtTable :=
  if rtt.rttDebug then rtt.debugClear rth else .ok rtt

/-- A fresh node for `rth` (`std_radix.c:1002-1008`): `NULL` when the allocation failed. -/
def newNode (rtt : RtTable) (A : Malloc RtNode) (n : RtNode) : Ptr × RtTable :=
  match A.next rtt.nodes with
  | none => (NULL, rtt)
  | some p =>
    (p, { rtt with
      nodes := rtt.nodes.set p n
      rttInodes := rtt.rttInodes + 1
      rttNmalloc := rtt.rttNmalloc + 1 })

/-- `free` of a node, with its counters. -/
def freeNode (rtt : RtTable) (p : Ptr) : RtTable :=
  { rtt with
    nodes := rtt.nodes.erase p
    rttNfree := rtt.rttNfree + 1
    rttInodes := ulongPred rtt.rttInodes }

/-- Point the head back at its node. -/
def setRtn (rtt : RtTable) (rth rtn : Ptr) : RtTable :=
  rtt.setHead rth { rtt.heads rth with rthRtn := rtn }

/-- A head that left the table is forgotten and handed to `rtt_rmfree` (`std_radix.c:976-990`,
`1100-1114`). -/
def releaseHead (rtt : RtTable) (rth : Ptr) : RtTable :=
  if rth = NULL then rtt
  else
    let rtt := rtt.setHead rth { rtt.heads rth with rdxRthAddr := none }
    if rtt.rttRmfree then
      { rtt with rmfreed := rtt.rmfreed ++ [rth], rttNusrfrees := rtt.rttNusrfrees + 1 }
    else rtt

/-- The first node of the table (`std_radix.c:900-912`). -/
def insertRoot (rtt : RtTable) (A : Malloc RtNode) (rth : Ptr) (bitlen : Nat) : Ptr × RtTable :=
  match A.next rtt.nodes with
  | none => (NULL, rtt)
  | some rtn =>
    (rth, { rtt.setRtn rth rtn with
      nodes := rtt.nodes.set rtn { RtNode.new bitlen with rtnRth := rth }
      rttRoot := rtn
      rttInodes := rtt.rttInodes + 1
      rttRoutes := rtt.rttRoutes + 1
      rttNmalloc := rtt.rttNmalloc + 1 })

/-- The climb to the place of the new key (`std_radix.c:940-944`): `rtn` and `rtn_prev`. -/
def insertClimb (nodes : Heap RtNode) (dbit : Nat) : Nat → Ptr → Exec (Ptr × Ptr)
  | 0, _ => .error .diverges
  | fuel + 1, rtn => do
    let x ← nodes.deref rtn
    let rtnPrev := x.rtnParent
    if rtnPrev = NULL then return (rtn, NULL)
    let n ← nodes.deref rtnPrev
    if dbit ≤ n.rtnBit then insertClimb nodes dbit fuel rtnPrev else return (rtn, rtnPrev)

/-- The node for the key is there (`std_radix.c:952-974`): its head is returned, or the new head
takes the place of a missing or a marked one. -/
def fillNode (rtt : RtTable) (rth rtn : Ptr) : Exec (Ptr × RtTable) := do
  let n ← rtt.nodes.deref rtn
  if !n.marked && n.rtnRth != NULL then return (n.rtnRth, rtt)
  let rtt := rtt.releaseHead n.rtnRth
  let nodes ← rtt.nodes.update rtn fun n =>
    { n with rtnRth := rth, rtnFlags := rdxClearBit n.rtnFlags RDX_RN_DELE_BIT }
  return (rth, { rtt.setRtn rth rtn with nodes := nodes, rttRoutes := rtt.rttRoutes + 1 })

/-- The new node `rtnAdd` goes below `rtn` (`std_radix.c:1015-1026`). -/
def attachBelow (rtt : RtTable) (addr : Addr) (rth rtn rtnAdd : Ptr) (bitlen dbit : Nat) :
    Exec (Ptr × RtTable) := do
  assertThat (dbit < bitlen)
  let nodes ← rtt.nodes.update rtnAdd fun n => { n with rtnParent := rtn }
  let n ← nodes.deref rtn
  let nodes ←
    if bitTest (addr (rnbyte n.rtnBit)) n.rtnTbit then do
      assertThat (n.rtnRight = NULL)
      nodes.update rtn fun n => { n with rtnRight := rtnAdd }
    else do
      assertThat (n.rtnLeft = NULL)
      nodes.update rtn fun n => { n with rtnLeft := rtnAdd }
  return (rth, { rtt with nodes := nodes, rttRoutes := rtt.rttRoutes + 1 })

/-- The pointer to `rn` in its parent is exchanged for `rnNext`; the child on side `first` is
compared first, and if it is not `rn` the other one has to be (`std_radix.c:1073-1079`,
`1203-1208`). -/
def replaceChild (nodes : Heap RtNode) (first : Side) (rnPrev rn rnNext : Ptr) :
    Exec (Heap RtNode) := do
  let n ← nodes.deref rnPrev
  match first with
  | .left =>
    if n.rtnLeft = rn then nodes.update rnPrev fun m => { m with rtnLeft := rnNext }
    else do
      assertThat (n.rtnRight = rn)
      nodes.update rnPrev fun m => { m with rtnRight := rnNext }
  | .right =>
    if n.rtnRight = rn then nodes.update rnPrev fun m => { m with rtnRight := rnNext }
    else do
      assertThat (n.rtnLeft = rn)
      nodes.update rnPrev fun m => { m with rtnLeft := rnNext }

/-- The last steps: `rtnNew` takes the place of `rtn` below `rtnPrev` (`std_radix.c:1061-1081`). -/
def linkAbove (rtt : RtTable) (rth rtn rtnPrev rtnNew : Ptr) : Exec (Ptr × RtTable) := do
  let n ← rtt.nodes.deref rtn
  let nodes ← rtt.nodes.update rtn fun n => { n with rtnParent := rtnNew }
  let nodes ← nodes.update rtnNew fun m =>
    { m with rtnVersion := n.rtnVersion, rtnParent := rtnPrev }
  if rtnPrev = NULL then
    return (rth, { rtt with
      nodes := nodes, rttRoot := rtnNew, rttRoutes := rtt.rttRoutes + 1 })
  let nodes ← replaceChild nodes .right rtnPrev rtn rtnNew
  return (rth, { rtt with nodes := nodes, rttRoutes := rtt.rttRoutes + 1 })

/-- The new node `rtnAdd` and `rtn` part at bit `dbit`: both go under a new glue node
(`std_radix.c:1041-1081`). -/
def insertGlue (rtt : RtTable) (A : Malloc RtNode) (addr : Addr) (rth rtn rtnPrev rtnAdd : Ptr)
    (dbit : Nat) : Exec (Ptr × RtTable) :=
  let glue :=
    if bitTest (addr (rnbyte dbit)) (rnbit dbit) then
      { RtNode.new dbit with rtnRight := rtnAdd, rtnLeft := rtn }
    else { RtNode.new dbit with rtnLeft := rtnAdd, rtnRight := rtn }
  match rtt.newNode A glue with
  | (rtnNew, rtt) =>
    if rtnNew = NULL then .ok (NULL, rtt.freeNode rtnAdd)
    else do
      let nodes ← rtt.nodes.update rtnAdd fun m => { m with rtnParent := rtnNew }
      linkAbove { rtt with nodes := nodes } rth rtn rtnPrev rtnNew

/-- The new node `rtnAdd` goes below `rtn`, above `rtn`, or beside it under a new glue node
(`std_radix.c:1010-1081`). -/
def linkNode (rtt : RtTable) (A : Malloc RtNode) (addr hisAddr : Addr)
    (rth rtn rtnPrev rtnAdd : Ptr) (bitlen dbit : Nat) : Exec (Ptr × RtTable) := do
  let n ← rtt.nodes.deref rtn
  if n.rtnBit = dbit then attachBelow rtt addr rth rtn rtnAdd bitlen dbit
  else if dbit = bitlen then do
    let nodes ← rtt.nodes.update rtnAdd fun m =>
      if bitTest (hisAddr (rnbyte bitlen)) (rnbit bitlen) then { m with rtnRight := rtn }
      else { m with rtnLeft := rtn }
    linkAbove { rtt with nodes := nodes } rth rtn rtnPrev rtnAdd
  else insertGlue rtt A addr rth rtn rtnPrev rtnAdd dbit

/-- A new node is needed (`std_radix.c:999-1082`). -/
def insertNode (rtt : RtTable) (A : Malloc RtNode) (addr hisAddr : Addr) (rth rtn rtnPrev : Ptr)
    (bitlen dbit : Nat) : Exec (Ptr × RtTable) :=
  match rtt.newNode A { RtNode.new bitlen with rtnRth := rth } with
  | (rtnAdd, rtt) =>
    if rtnAdd = NULL then .ok (NULL, rtt)
    else linkNode (rtt.setRtn rth rtnAdd) A addr hisAddr rth rtn rtnPrev rtnAdd bitlen dbit

/-- Insertion into a table with a root (`std_radix.c:914-1082`). -/
def insertBelowRoot (rtt : RtTable) (A : Malloc RtNode) (rth : Ptr) (bitlen : Nat) :
    Exec (Ptr × RtTable) := do
  let fuel := rtt.nodes.bound + 1
  let addr ← rtt.rdxAddr rth
  let rtn ← descend rtt.nodes (shorterOrGlue bitlen) addr fuel rtt.rttRoot
  let n ← rtt.nodes.deref rtn
  let bits2chk := min n.rtnBit bitlen
  let hisAddr ← rtt.rdxAddr n.rtnRth
  let dbit ← dbitOf addr hisAddr bits2chk
  let dbit := if bits2chk < dbit then bits2chk else dbit
  let (rtn, rtnPrev) ← insertClimb rtt.nodes dbit fuel rtn
  let n ← rtt.nodes.deref rtn
  if dbit = bitlen && n.rtnBit = bitlen then fillNode rtt rth rtn
  else insertNode rtt A addr hisAddr rth rtn rtnPrev bitlen dbit

/-- Insertion of a prepared head (`std_radix.c:893-1082`). -/
def insertKey (rtt : RtTable) (A : Malloc RtNode) (rth : Ptr) (bitlen : Nat) :
    Exec (Ptr × RtTable) :=
  let rtt := { rtt with rttNinserts := rtt.rttNinserts + 1 }
  if rtt.rttRoot = NULL then .ok (insertRoot rtt A rth bitlen)
  else insertBelowRoot rtt A rth bitlen

/-- `std_radix_insert` (`std_radix.c:803-1083`): the head now stored for the key, or `NULL`. -/
def stdRadixInsert (rtt : RtTable) (A : Malloc RtNode) (copyOk : Bool) (rth : Ptr)
    (bitlen : Nat) : Exec (Ptr × RtTable) := do
  let (ok, rtt) ← rtt.prepareKey copyOk rth
  if !ok then return (NULL, rtt)
  let rtt ← rtt.debugStart rth
  if rtt.rttDebug && rtt.rttMaxaddrlen < bitlen then return (NULL, rtt)
  insertKey rtt A rth bitlen

/-! ## `std_radix_remove` -/

/-- `RDX_WALKDOWN`, `RDX_WALKUP` and `RDX_WALKRIGHT`. -/
inductive Dir where
  | walkdown
  | walkup
  | walkright
  deriving DecidableEq, Repr

/-- A one-way brancher goes, its only child is promoted (`std_radix.c:1167-1239`). -/
def promoteChild (rtt : RtTable) (rn : Ptr) : Exec (Ptr × Dir × RtTable) := do
  let n ← rtt.nodes.deref rn
  assertThat (n.rtnLock == 0)
  assertThat (n.rtnLeft = NULL || n.rtnRight = NULL)
  let rnPrev := n.rtnParent
  let (rnNext, rnRet, dir) :=
    if n.rtnLeft != NULL then (n.rtnLeft, rnPrev, Dir.walkright)
    else (n.rtnRight, n.rtnRight, Dir.walkdown)
  let nodes ← rtt.nodes.update rnNext fun m => { m with rtnParent := rnPrev }
  let rtt ←
    if rnPrev = NULL then pure { rtt with nodes := nodes, rttRoot := rnNext }
    else do
      let nodes ← replaceChild nodes .left rnPrev rn rnNext
      pure { rtt with nodes := nodes }
  return (rnRet, dir, (rtt.releaseHead n.rtnRth).freeNode rn)

/-- A leaf goes, and its parent too when that is left without a head (`std_radix.c:1127-1165`). -/
def removeLeaf (rtt : RtTable) (rn : Ptr) (dir : Dir) : Exec (Ptr × Dir × RtTable) := do
  let n ← rtt.nodes.deref rn
  let rnPrev := n.rtnParent
  let rtt := (rtt.releaseHead n.rtnRth).freeNode rn
  if rnPrev = NULL then return (NULL, dir, { rtt with rttRoot := NULL })
  let prev ← rtt.nodes.deref rnPrev
  let dir := if prev.rtnLeft = rn then Dir.walkright else Dir.walkup
  let nodes ← replaceChild rtt.nodes .left rnPrev rn NULL
  let rtt := { rtt with nodes := nodes }
  if prev.rtnRth != NULL then return (rnPrev, dir, rtt)
  promoteChild rtt rnPrev

/-- `_std_radix_remove` (`std_radix.c:1085-1240`): the node from which a walker goes on, and
`*dir`, which is `dir` before the call. -/
def removeNode (rtt : RtTable) (rn : Ptr) (dir : Dir) : Exec (Ptr × Dir × RtTable) := do
  assertThat (rn != NULL)
  let n ← rtt.nodes.deref rn
  assertThat (n.rtnLock == 0)
  let rtt := { rtt with rttRoutes := ulongPred rtt.rttRoutes }
  if n.rtnLeft != NULL && n.rtnRight != NULL then
    let rtt := rtt.releaseHead n.rtnRth
    let nodes ← rtt.nodes.update rn fun m => { m with rtnRth := NULL }
    return (n.rtnParent, .walkup, { rtt with nodes := nodes })
  else if n.rtnLeft = NULL && n.rtnRight = NULL then removeLeaf rtt rn dir
  else promoteChild rtt rn

/-- A head taken off the table leaves the change list (`std_radix.c:1277-1284`). -/
def unlinkChange (rtt : RtTable) (rth : Ptr) : RtTable :=
  if rtt.rttRadicalused && rtt.rttClhead.contains rth then
    let hd := rtt.heads rth
    { rtt.setHead rth { hd with rdclFlags := hd.rdclFlags &&& ~~~RDCL_INCL } with
      rttClhead := rtt.rttClhead.erase rth }
  else rtt

/-- `std_radix_remove` (`std_radix.c:1243-1286`): a locked node is only marked. -/
def stdRadixRemove (rtt : RtTable) (rth : Ptr) : Exec RtTable := do
  let rtt := { rtt with rttNremoves := rtt.rttNremoves + 1 }
  let hd ← rtt.readHead rth
  let rn := hd.rthRtn
  let n ← rtt.nodes.deref rn
  if n.rtnLock != 0 then
    let nodes ← rtt.nodes.update rn fun m =>
      { m with rtnFlags := rdxSetBit m.rtnFlags RDX_RN_DELE_BIT }
    assertThat rtt.rttRmfree
    return { rtt with nodes := nodes }
  let (_, _, rtt) ← rtt.removeNode rn .walkup
  return rtt.unlinkChange rth

end RtTable

end OpxCommonUtils.Radix
