import OpxCommonUtils.Misc.TreePrint
import OpxCommonUtils.Radix.Table

/-!
# Printing (`std_radix_print`, `src/std_radix.c`)

Of a line only the indent and the node are kept: what follows is read from the node and its head,
and is the same to the arrays whatever it is.
-/

namespace OpxCommonUtils.Radix

open TreePrint Traced

/-- `MAXDEPTH` (`std_radix.c:97`), the length of `stack` and of `prefix`. -/
def MAXDEPTH : Nat := 255

/-- `std_radix_maxprint` (`std_radix.c:1477`). -/
def stdRadixMaxprint : Nat := 500

/-- `rn->rtn_left` and `rn->rtn_right`. -/
def RtNode.child (n : RtNode) : Side → Ptr
  | .left => n.rtnLeft
  | .right => n.rtnRight

namespace RtTable

/-- The child of the node at `rn`. -/
def child (rtt : RtTable) (s : Side) (rn : Ptr) : Exec Ptr :=
  return (← rtt.nodes.deref rn).child s

/-- `std_radix_print` (`std_radix.c:1484-1585`). -/
def stdRadixPrint (rtt : RtTable) : Traced Access Printout :=
  print NULL rtt.child MAXDEPTH stdRadixMaxprint rtt.rttInodes rtt.rttRoot
    (2 * rtt.nodes.bound + 1)

end RtTable

end OpxCommonUtils.Radix
