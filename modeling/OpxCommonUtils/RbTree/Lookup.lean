import OpxCommonUtils.RbTree.Table

/-!
# Searching (`src/std_rbtree.c`)

`std_rbtree_getfirst`, `std_rbtree_getexact`, `std_rbtree_getexactornext`,
`std_rbtree_getexactorprev`, `std_rbtree_getnext` and the private routines they use. A loop runs for
at most one step more than the heap has addresses; one that would go on delivers `Fault.diverges`.
-/

namespace OpxCommonUtils.RbTree

namespace RbtreeTable

/-- The steps that suffice for a loop that meets no node twice. -/
def fuel (rbtt : RbtreeTable) : Nat := rbtt.nodes.bound + 1

/-- `NIL` is answered as a null pointer. -/
def orNull (x : Ptr) : Ptr := if x = NIL then NULL else x

/-- `while (x->rbt_left != NIL(rbtt)) x = x->rbt_left`. -/
def leftmost (rbtt : RbtreeTable) : Nat → Ptr → Exec Ptr
  | 0, _ => .error .diverges
  | fuel + 1, x => do
    let l ← rbtt.child .left x
    if l = NIL then return x else rbtt.leftmost fuel l

/-- `_std_rbtree_getfirst` (`std_rbtree.c:331-350`). -/
def getfirstNode (rbtt : RbtreeTable) : Exec Ptr := do
  rbtt.validateHandle
  if rbtt.rbttRoot = NIL then return NULL else rbtt.leftmost rbtt.fuel rbtt.rbttRoot

/-- `std_rbtree_getfirst` (`std_rbtree.c:353-366`). -/
def stdRbtreeGetfirst (rbtt : RbtreeTable) : Exec Ptr := do
  rbtt.validateHandle
  let x ← rbtt.getfirstNode
  if x = NULL then return NULL else rbtt.data x

/-- The loop of `_std_rbtree_getexact` (`std_rbtree.c:378-388`). -/
def getexactLoop (rbtt : RbtreeTable) (data : Ptr) : Nat → Ptr → Exec Ptr
  | 0, _ => .error .diverges
  | fuel + 1, x => do
    if x = NIL then return NIL
    let d ← rbtt.data x
    if rbtt.rbttCompare data d = 0 then return x
    else if rbtt.rbttCompare data d < 0 then rbtt.getexactLoop data fuel (← rbtt.child .left x)
    else rbtt.getexactLoop data fuel (← rbtt.child .right x)

/-- `_std_rbtree_getexact` (`std_rbtree.c:369-395`). -/
def getexactNode (rbtt : RbtreeTable) (data : Ptr) : Exec Ptr := do
  rbtt.debugBlock data
  return orNull (← rbtt.getexactLoop data rbtt.fuel rbtt.rbttRoot)

/-- `std_rbtree_getexact` (`std_rbtree.c:398-412`). -/
def stdRbtreeGetexact (rbtt : RbtreeTable) (data : Ptr) : Exec Ptr := do
  rbtt.debugBlock data
  let x ← rbtt.getexactNode data
  if x = NULL then return NULL else rbtt.data x

/-- `while (y != NIL(rbtt) && x == y->rbt_right) { x = y; y = x->rbt_parent; }`. -/
def climbRight (rbtt : RbtreeTable) : Nat → Ptr → Ptr → Exec Ptr
  | 0, _, _ => .error .diverges
  | fuel + 1, x, y => do
    if y = NIL then return NIL
    if x = (← rbtt.child .right y) then rbtt.climbRight fuel y (← rbtt.parent y) else return y

/-- `_std_rbtree_getnext` (`std_rbtree.c:478-508`). -/
def getnextNode (rbtt : RbtreeTable) (x : Ptr) : Exec Ptr := do
  rbtt.validateHandle
  if x = NULL then return NULL
  let r ← rbtt.child .right x
  let y ← (do
    if r ≠ NIL then rbtt.leftmost rbtt.fuel r
    else rbtt.climbRight rbtt.fuel x (← rbtt.parent x))
  return orNull y

/-- The loop of `_std_rbtree_getexactornext` (`std_rbtree.c:796-828`). -/
def getexactornextLoop (rbtt : RbtreeTable) (data : Ptr) : Nat → Ptr → Exec Ptr
  | 0, _ => .error .diverges
  | fuel + 1, x => do
    if x = NIL then return NIL
    let d ← rbtt.data x
    if rbtt.rbttCompare data d = 0 then return x
    if rbtt.rbttCompare data d < 0 then
      let l ← rbtt.child .left x
      if l = NIL then return x else rbtt.getexactornextLoop data fuel l
    else
      let r ← rbtt.child .right x
      if r = NIL then rbtt.climbRight rbtt.fuel x (← rbtt.parent x)
      else rbtt.getexactornextLoop data fuel r

/-- `_std_rbtree_getexactornext` (`std_rbtree.c:787-834`). -/
def getexactornextNode (rbtt : RbtreeTable) (data : Ptr) : Exec Ptr := do
  rbtt.debugBlock data
  return orNull (← rbtt.getexactornextLoop data rbtt.fuel rbtt.rbttRoot)

/-- `std_rbtree_getexactornext` (`std_rbtree.c:837-849`). -/
def stdRbtreeGetexactornext (rbtt : RbtreeTable) (data : Ptr) : Exec Ptr := do
  rbtt.debugBlock data
  let x ← rbtt.getexactornextNode data
  if x = NULL then return NULL else rbtt.data x

/-- `while (y != NIL(rbtt) && x == y->rbt_left) { x = y; y = x->rbt_parent; }`. -/
def climbLeft (rbtt : RbtreeTable) : Nat → Ptr → Ptr → Exec Ptr
  | 0, _, _ => .error .diverges
  | fuel + 1, x, y => do
    if y = NIL then return NIL
    if x = (← rbtt.child .left y) then rbtt.climbLeft fuel y (← rbtt.parent y) else return y

/-- The loop of `_std_rbtree_getexactorprev` (`std_rbtree.c:861-890`). -/
def getexactorprevLoop (rbtt : RbtreeTable) (data : Ptr) : Nat → Ptr → Exec Ptr
  | 0, _ => .error .diverges
  | fuel + 1, x => do
    if x = NIL then return NIL
    let d ← rbtt.data x
    if rbtt.rbttCompare data d = 0 then return x
    if rbtt.rbttCompare data d < 0 then
      let l ← rbtt.child .left x
      if l = NIL then rbtt.climbLeft rbtt.fuel x (← rbtt.parent x)
      else rbtt.getexactorprevLoop data fuel l
    else
      let r ← rbtt.child .right x
      if r = NIL then return x else rbtt.getexactorprevLoop data fuel r

/-- `_std_rbtree_getexactorprev` (`std_rbtree.c:852-896`). -/
def getexactorprevNode (rbtt : RbtreeTable) (data : Ptr) : Exec Ptr := do
  rbtt.debugBlock data
  return orNull (← rbtt.getexactorprevLoop data rbtt.fuel rbtt.rbttRoot)

/-- `std_rbtree_getexactorprev` (`std_rbtree.c:899-911`). -/
def stdRbtreeGetexactorprev (rbtt : RbtreeTable) (data : Ptr) : Exec Ptr := do
  rbtt.debugBlock data
  let x ← rbtt.getexactorprevNode data
  if x = NULL then return NULL else rbtt.data x

/-- `std_rbtree_getnext` (`std_rbtree.c:511-530`). -/
def stdRbtreeGetnext (rbtt : RbtreeTable) (data : Ptr) : Exec Ptr := do
  rbtt.validateHandle
  if data = NULL then return NULL
  let x ← rbtt.getexactNode data
  let y ← (if x ≠ NULL then rbtt.getnextNode x else rbtt.getexactornextNode data)
  if y = NULL then return NULL else rbtt.data y

end RbtreeTable

end OpxCommonUtils.RbTree
