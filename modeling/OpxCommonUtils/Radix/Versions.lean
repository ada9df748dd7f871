import OpxCommonUtils.Radix.Walk

/-!
# Versions of heads (`std_radix_setversion`, `src/std_radix.c`)

`std_radix_setversion` gives a head the next version of the table, and every node above it too, so
that a version walk can leave out a subtree without recent heads. `TableState.runOn` is a version
walk whose callback leaves the table alone and returns 0.
-/

namespace OpxCommonUtils.Radix

namespace RtTable

/-- The node and all above it get the version (`std_radix.c:1698-1702`). -/
def setversionLoop (ver : Nat) : Nat → Heap RtNode → Ptr → Exec (Heap RtNode)
  | 0, _, _ => .error .diverges
  | fuel + 1, nodes, rtn =>
    if rtn = NULL then .ok nodes
    else do
      let n ← nodes.deref rtn
      let nodes ← nodes.update rtn fun n => { n with rtnVersion := ver }
      setversionLoop ver fuel nodes n.rtnParent

/-- `std_radix_setversion` (`std_radix.c:1682-1708`): the version the head gets. -/
def stdRadixSetversion (rtt : RtTable) (rth : Ptr) : Exec (Nat × RtTable) := do
  let hd ← rtt.readHead rth
  let rtn := hd.rthRtn
  assertThat (rtn != NULL)
  let ver := (rtt.rttVersion + 1) % 2 ^ 64
  let rtt := { rtt.setHead rth { hd with rthVersion := ver } with rttVersion := ver }
  let nodes ← setversionLoop ver (rtt.nodes.bound + 1) rtt.nodes rtn
  let rtt := { rtt with nodes := nodes }
  return (ver, if ver = 0 then { rtt with rttNwraps := rtt.rttNwraps + 1 } else rtt)

end RtTable

/-! ## Walks that change nothing -/

/-- A version walk goes on to its end while its callback only returns 0: the heads the callback gets,
and the table that is left. -/
def TableState.runOn : Nat → TableState → Exec (List Ptr × RtTable)
  | 0, _ => .error .diverges
  | fuel + 1, s =>
    match s.control with
    | .outside => .ok ([], s.rtt)
    | .callback w => do
      let n ← s.rtt.nodes.deref w.rtn
      let s' ← s.exec (.callbackReturn 0)
      let (calls, rtt) ← s'.runOn fuel
      return (n.rtnRth :: calls, rtt)
    | .loop _ | .climb .. => do
      let s' ← s.exec .round
      s'.runOn fuel

/-- `std_radix_versionwalk` from `rth` on with such a callback. A tour comes to a node three times
at most, its head gets one call at most, and a climb comes to each node above once. -/
def RtTable.quietVersionwalk (rtt : RtTable) (rth : Ptr) (cnt : Int) (minVer maxVer : Nat) :
    Exec (List Ptr × RtTable) := do
  let s ← VersionWalk.start rtt rth true cnt minVer maxVer
  s.runOn (5 * rtt.nodes.bound + 5)

/-! ## The user's side -/

/-- A call of the user. -/
inductive VersionOp where
  | insert (A : Malloc RtNode) (copyOk : Bool) (rth : Ptr) (addr : Addr) (bitlen : Nat)
  | remove (rth : Ptr)
  | setversion (rth : Ptr)

namespace VersionOp

/-- The table after the call. -/
def step (op : VersionOp) (rtt : RtTable) : Option RtTable :=
  match op with
  | .insert A copyOk rth addr bitlen =>
    (TableState.step (.insert A copyOk rth addr bitlen) ⟨rtt, .outside⟩).map TableState.rtt
  | .remove rth => (TableState.step (.remove rth) ⟨rtt, .outside⟩).map TableState.rtt
  | .setversion rth => (rtt.stdRadixSetversion rth).toOption.map Prod.snd

/-- The user keeps to the interface, inserts heads of version 0, and gives versions to heads in the
table as long as the versions do not wrap. -/
def Allowed (rtt : RtTable) : VersionOp → Prop
  | .insert A copyOk rth addr bitlen =>
    TableLabel.Allowed (fun _ => false) ⟨rtt, .outside⟩ (.insert A copyOk rth addr bitlen) ∧
      (rtt.heads rth).rthVersion = 0
  | .remove rth => TableLabel.Allowed (fun _ => false) ⟨rtt, .outside⟩ (.remove rth)
  | .setversion rth => (∃ rn, HeadOf rtt rn rth) ∧ rtt.rttVersion + 1 < 2 ^ 64

instance (rtt : RtTable) : (op : VersionOp) → Decidable (op.Allowed rtt)
  | .insert A copyOk rth addr bitlen => inferInstanceAs (Decidable
    (TableLabel.Allowed (fun _ => false) ⟨rtt, .outside⟩ (.insert A copyOk rth addr bitlen) ∧
      (rtt.heads rth).rthVersion = 0))
  | .remove rth => inferInstanceAs (Decidable
    (TableLabel.Allowed (fun _ => false) ⟨rtt, .outside⟩ (.remove rth)))
  | .setversion rth => inferInstanceAs (Decidable
    ((∃ rn, HeadOf rtt rn rth) ∧ rtt.rttVersion + 1 < 2 ^ 64))

end VersionOp

end OpxCommonUtils.Radix
