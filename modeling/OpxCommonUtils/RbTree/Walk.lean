import OpxCommonUtils.RbTree.Lookup

/-!
# Walking (`src/std_rbtree.c`)

`std_rbtree_walk`, for a callback that leaves the tree alone: `walkFn` gives what the callback
returns for a user node after the calls made so far.
-/

namespace OpxCommonUtils.RbTree

/-- The directions of a walk. -/
inductive Dir where
  | walkdown
  | walkup
  | walkright
  deriving DecidableEq, Repr

/-- `flag & 0x1`: `RBT_INORDERWALK` or `RBT_PREORDERWALK`. -/
inductive WalkFlag where
  | inorderwalk
  | preorderwalk
  deriving DecidableEq, Repr

/-- The local variables of `_std_rbtree_walk`, and the user nodes the callback got. -/
structure RbtreeWalk where
  x : Ptr
  dir : Dir
  lcnt : Nat
  calls : List Ptr
  deriving DecidableEq, Repr

namespace RbtreeTable

/-- `RBTUSERCALLBACK(x->rbt_data)` (`std_rbtree.c:636-647`). -/
def userCallback (rbtt : RbtreeTable) (walkFn : Option (List Ptr → Ptr → Int)) (w : RbtreeWalk)
    (x : Ptr) : Exec RbtreeWalk :=
  match walkFn with
  | none => .ok { w with lcnt := ulongPred w.lcnt }
  | some fn => do
    let d ← rbtt.data x
    return { w with
      lcnt := if fn w.calls d ≠ 0 then 0 else ulongPred w.lcnt
      calls := w.calls ++ [d] }

/-- The step to the parent (`std_rbtree.c:715-728` and `:738-746`), `none` where the walk returns
from the root. -/
def walkUp (rbtt : RbtreeTable) (walk : WalkFlag) (walkFn : Option (List Ptr → Ptr → Int))
    (w : RbtreeWalk) : Exec (Option RbtreeWalk) := do
  let x ← rbtt.parent w.x
  if x = NIL then return none
  let l ← rbtt.child .left x
  if w.x = l then
    let w := { w with x := x, dir := .walkright }
    if walk = .inorderwalk then return some (← rbtt.userCallback walkFn w x) else return some w
  else return some { w with x := x, dir := .walkup }

/-- A round of the loop (`std_rbtree.c:696-751`). -/
def walkRound (rbtt : RbtreeTable) (walk : WalkFlag) (walkFn : Option (List Ptr → Ptr → Int))
    (w : RbtreeWalk) : Exec (Option RbtreeWalk) :=
  match w.dir with
  | .walkdown => do
    let l ← rbtt.child .left w.x
    if l ≠ NIL then
      if walk = .preorderwalk then
        return some { ← rbtt.userCallback walkFn w w.x with x := l }
      else return some { w with x := l }
    else return some { ← rbtt.userCallback walkFn w w.x with dir := .walkright }
  | .walkright => do
    let r ← rbtt.child .right w.x
    if r = NIL then rbtt.walkUp walk walkFn w
    else return some { w with dir := .walkdown, x := r }
  | .walkup => rbtt.walkUp walk walkFn w

/-- The loop with the end of the routine (`std_rbtree.c:694-757`): the node handed back and the
calls. -/
def walkLoop (rbtt : RbtreeTable) (walk : WalkFlag) (walkFn : Option (List Ptr → Ptr → Int)) :
    Nat → RbtreeWalk → Exec (Ptr × List Ptr)
  | 0, _ => .error .diverges
  | fuel + 1, w =>
    if w.lcnt = 0 ∨ w.x = NIL then .ok (w.x, w.calls)
    else do
      match ← rbtt.walkRound walk walkFn w with
      | none => return (NULL, w.calls)
      | some w => rbtt.walkLoop walk walkFn fuel w

/-- `_std_rbtree_walk` (`std_rbtree.c:672-757`). A walk comes to a node three times at most. -/
def walkNode (rbtt : RbtreeTable) (x : Ptr) (walkFn : Option (List Ptr → Ptr → Int)) (cnt : Int)
    (flag : WalkFlag) : Exec (Ptr × List Ptr) := do
  rbtt.validateHandle
  let lcnt := if cnt = 0 then 0xffffffff else (cnt % 2 ^ 64).toNat
  let fuel := 3 * rbtt.nodes.bound + 2
  if x = NULL then rbtt.walkLoop flag walkFn fuel ⟨rbtt.rbttRoot, .walkdown, lcnt, []⟩
  else rbtt.walkLoop flag walkFn fuel ⟨x, .walkright, lcnt, []⟩

/-- Where a walk from `data` starts (`std_rbtree.c:770-773`). -/
def walkStart (rbtt : RbtreeTable) (data : Ptr) : Exec Ptr :=
  if data ≠ NULL then rbtt.getexactornextNode data else .ok NULL

/-- `std_rbtree_walk` (`std_rbtree.c:760-784`): the user node handed back and the calls. -/
def stdRbtreeWalk (rbtt : RbtreeTable) (data : Ptr) (walkFn : Option (List Ptr → Ptr → Int))
    (cnt : Int) (flag : WalkFlag) : Exec (Ptr × List Ptr) := do
  rbtt.validateHandle
  let x ← rbtt.walkStart data
  let (y, calls) ← rbtt.walkNode x walkFn cnt flag
  if y = NULL ∨ y = NIL then return (NULL, calls)
  else return (← rbtt.data y, calls)

/-- The nodes below `x` with their user nodes, a node before its subtrees. -/
def rpreorder (nodes : Heap RbtreeNode) : Nat → Ptr → Exec (List (Ptr × Ptr))
  | 0, _ => .error .diverges
  | fuel + 1, x => do
    if x = NIL then return []
    let n ← nodes.deref x
    let left ← rpreorder nodes fuel n.rbtLeft
    let right ← rpreorder nodes fuel n.rbtRight
    return (x, n.rbtData) :: (left ++ right)

/-- The preorder sequence of the table. -/
def preorder (rbtt : RbtreeTable) : Exec (List (Ptr × Ptr)) :=
  rpreorder rbtt.nodes rbtt.fuel rbtt.rbttRoot

/-- The recursive traversal in the order of a walk. -/
def traversal (rbtt : RbtreeTable) : WalkFlag → Exec (List (Ptr × Ptr))
  | .inorderwalk => rbtt.inorder
  | .preorderwalk => rbtt.preorder

end RbtreeTable

end OpxCommonUtils.RbTree
