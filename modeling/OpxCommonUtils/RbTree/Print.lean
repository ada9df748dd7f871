import OpxCommonUtils.Misc.TreePrint
import OpxCommonUtils.RbTree.Table

/-!
# Printing (`std_rbtree_print`, `src/std_rbtree.c`)

The height that a pass over the nodes writes into them is printed and not otherwise used, and a
line is the same to the arrays whatever follows its indent, so that of a line only the indent and
the node are kept, and the pass, `number` and `print_fn` are left out.
-/

namespace OpxCommonUtils.RbTree

open TreePrint Traced

/-- `MAXDEPTH` (`std_rbtree.c:987`), the length of `stack` and of `prefix`. -/
def MAXDEPTH : Nat := 32

/-- `std_rbtree_print` (`std_rbtree.c:989-1135`). -/
def RbtreeTable.stdRbtreePrint (rbtt : RbtreeTable) : Traced Access Printout := do
  rbtt.validateHandle
  print NIL rbtt.child MAXDEPTH 200 rbtt.rbttNuminodes rbtt.rbttRoot (2 * rbtt.nodes.bound + 1)

end OpxCommonUtils.RbTree
