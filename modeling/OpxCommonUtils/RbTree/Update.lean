import OpxCommonUtils.RbTree.Lookup

/-!
# Insertion and removal (`src/std_rbtree.c`)

The two rotations, the two rebalancing loops and the routines above them. Of a routine and its
mirror image one is written down, with the side as a parameter; `stdRbtreeRotateleft` and
`stdRbtreeRotateright` are the instances.
-/

namespace OpxCommonUtils.RbTree

namespace RbtreeTable

/-- `y` takes the place of the child `x` of `par`; the child on side `s` is the one that the
source compares first. -/
def relinkParent (rbtt : RbtreeTable) (s : Side) (par x y : Ptr) : Exec RbtreeTable := do
  if x = (← rbtt.child s par) then rbtt.setChild s par y else rbtt.setChild s.flip par y

/-- `y` takes the place of `x` below `par` or as the root (`std_rbtree.c:99-110`, `559-570`). -/
def replaceChild (rbtt : RbtreeTable) (s : Side) (par x y : Ptr) : Exec RbtreeTable :=
  if par ≠ NIL then rbtt.relinkParent s par x y else return { rbtt with rbttRoot := y }

/-- The links of a node without children below `par` (`std_rbtree.c:435-436`, `599`). -/
def setLeaf (rbtt : RbtreeTable) (z par : Ptr) : Exec RbtreeTable := do
  let rbtt ← rbtt.setParent z par
  let rbtt ← rbtt.setChild .right z NIL
  rbtt.setChild .left z NIL

/-- The rotation of `x` to side `s`: its child on the other side comes up. -/
def rotate (rbtt : RbtreeTable) (s : Side) (x : Ptr) : Exec RbtreeTable := do
  let y ← rbtt.child s.flip x
  let rbtt ← rbtt.setChild s.flip x (← rbtt.child s y)
  let b ← rbtt.child s y
  let rbtt ← (if b ≠ NIL then rbtt.setParent b x else pure rbtt)
  let rbtt ← rbtt.setParent y (← rbtt.parent x)
  let rbtt ← rbtt.replaceChild s (← rbtt.parent x) x y
  let rbtt ← rbtt.setChild s y x
  rbtt.setParent x y

/-- `std_rbtree_rotateleft` (`std_rbtree.c:90-115`). -/
def stdRbtreeRotateleft (rbtt : RbtreeTable) (x : Ptr) : Exec RbtreeTable := rbtt.rotate .left x

/-- `std_rbtree_rotateright` (`std_rbtree.c:118-143`). -/
def stdRbtreeRotateright (rbtt : RbtreeTable) (x : Ptr) : Exec RbtreeTable := rbtt.rotate .right x

/-! ## Rebalancing after an insertion -/

/-- The parent and the grandparent of `x` change colours and the grandparent is rotated
(`std_rbtree.c:176-178`). -/
def recolorRotate (rbtt : RbtreeTable) (s : Side) (x : Ptr) : Exec RbtreeTable := do
  let p ← rbtt.parent x
  let rbtt ← rbtt.setColor p .black
  let g ← rbtt.parent p
  let rbtt ← rbtt.setColor g .red
  rbtt.rotate s.flip g

/-- The uncle is black: an inner grandchild `x` is first made an outer one
(`std_rbtree.c:166-180`). -/
def blackUncle (rbtt : RbtreeTable) (s : Side) (x : Ptr) : Exec (Ptr × RbtreeTable) := do
  let p ← rbtt.parent x
  if x = (← rbtt.child s.flip p) then
    let rbtt ← rbtt.rotate s p
    return (p, ← rbtt.recolorRotate s p)
  else return (x, ← rbtt.recolorRotate s x)

/-- The body of the loop of `std_rbtree_balanceoninsert` when the parent of `x` is on side `s`
of the grandparent (`std_rbtree.c:155-203`). -/
def balanceoninsertStep (rbtt : RbtreeTable) (s : Side) (x : Ptr) : Exec (Ptr × RbtreeTable) := do
  let p ← rbtt.parent x
  let g ← rbtt.parent p
  let y ← rbtt.child s.flip g
  if y ≠ NIL ∧ (← rbtt.color y) = .red then
    let rbtt ← rbtt.setColor p .black
    let rbtt ← rbtt.setColor y .black
    let rbtt ← rbtt.setColor g .red
    return (g, rbtt)
  else rbtt.blackUncle s x

/-- The loop of `std_rbtree_balanceoninsert` (`std_rbtree.c:151-205`). -/
def balanceoninsertLoop : Nat → RbtreeTable → Ptr → Exec RbtreeTable
  | 0, _, _ => .error .diverges
  | fuel + 1, rbtt, x => do
    if x = rbtt.rbttRoot then return rbtt
    let p ← rbtt.parent x
    if (← rbtt.color p) ≠ .red then return rbtt
    let left ← rbtt.child .left (← rbtt.parent p)
    let (x, rbtt) ← rbtt.balanceoninsertStep (if p = left then .left else .right) x
    balanceoninsertLoop fuel rbtt x

/-- `std_rbtree_balanceoninsert` (`std_rbtree.c:146-209`). -/
def stdRbtreeBalanceoninsert (rbtt : RbtreeTable) (x : Ptr) : Exec RbtreeTable := do
  let rbtt ← rbtt.setColor x .red
  let rbtt ← balanceoninsertLoop rbtt.fuel rbtt x
  rbtt.setColor rbtt.rbttRoot .black

/-! ## Rebalancing after a removal -/

/-- A red sibling is rotated up: the sibling to go on with (`std_rbtree.c:222-228`). -/
def redSibling (rbtt : RbtreeTable) (s : Side) (x w : Ptr) : Exec (Ptr × RbtreeTable) := do
  if (← rbtt.color w) = .red then
    let rbtt ← rbtt.setColor w .black
    let rbtt ← rbtt.setColor (← rbtt.parent x) .red
    let rbtt ← rbtt.rotate s (← rbtt.parent x)
    return (← rbtt.child s.flip (← rbtt.parent x), rbtt)
  else return (w, rbtt)

/-- The outer nephew is made red, for which the inner one may be rotated up
(`std_rbtree.c:240-246`). -/
def innerNephew (rbtt : RbtreeTable) (s : Side) (x w : Ptr) : Exec (Ptr × RbtreeTable) := do
  if (← rbtt.color (← rbtt.child s.flip w)) = .black then
    let rbtt ← rbtt.setColor (← rbtt.child s w) .black
    let rbtt ← rbtt.setColor w .red
    let rbtt ← rbtt.rotate s.flip w
    return (← rbtt.child s.flip (← rbtt.parent x), rbtt)
  else return (w, rbtt)

/-- The sibling `w` is black (`std_rbtree.c:233-254`). -/
def blackSibling (rbtt : RbtreeTable) (s : Side) (x w : Ptr) : Exec (Ptr × RbtreeTable) := do
  if (← rbtt.color (← rbtt.child s w)) = .black ∧
      (← rbtt.color (← rbtt.child s.flip w)) = .black then
    let rbtt ← rbtt.setColor w .red
    return (← rbtt.parent x, rbtt)
  else
    let (w, rbtt) ← rbtt.innerNephew s x w
    let rbtt ← rbtt.setColor w (← rbtt.color (← rbtt.parent x))
    let rbtt ← rbtt.setColor (← rbtt.parent x) .black
    let rbtt ← rbtt.setColor (← rbtt.child s.flip w) .black
    let rbtt ← rbtt.rotate s (← rbtt.parent x)
    return (rbtt.rbttRoot, rbtt)

/-- The body of the loop of `std_rbtree_balanceonremove` when `x` is on side `s` of its parent
(`std_rbtree.c:218-288`): whether the loop is left because there is no sibling. -/
def balanceonremoveStep (rbtt : RbtreeTable) (s : Side) (x : Ptr) :
    Exec (Bool × Ptr × RbtreeTable) := do
  let w ← rbtt.child s.flip (← rbtt.parent x)
  let (w, rbtt) ← rbtt.redSibling s x w
  if w = NIL then return (true, x, rbtt)
  let (x, rbtt) ← rbtt.blackSibling s x w
  return (false, x, rbtt)

/-- The loop of `std_rbtree_balanceonremove` (`std_rbtree.c:216-289`). -/
def balanceonremoveLoop : Nat → RbtreeTable → Ptr → Exec (Ptr × RbtreeTable)
  | 0, _, _ => .error .diverges
  | fuel + 1, rbtt, x => do
    if x = rbtt.rbttRoot then return (x, rbtt)
    if (← rbtt.color x) ≠ .black then return (x, rbtt)
    let left ← rbtt.child .left (← rbtt.parent x)
    let (brk, x, rbtt) ← rbtt.balanceonremoveStep (if x = left then .left else .right) x
    if brk then return (x, rbtt) else balanceonremoveLoop fuel rbtt x

/-- `std_rbtree_balanceonremove` (`std_rbtree.c:212-293`). -/
def stdRbtreeBalanceonremove (rbtt : RbtreeTable) (x : Ptr) : Exec RbtreeTable := do
  let (x, rbtt) ← balanceonremoveLoop rbtt.fuel rbtt x
  rbtt.setColor x .black

/-! ## `std_rbtree_insert` -/

/-- The descent to the place of a new user node (`std_rbtree.c:423-433`): the node above it. -/
def insertDescend (rbtt : RbtreeTable) (data : Ptr) : Nat → Ptr → Ptr → Exec Ptr
  | 0, _, _ => .error .diverges
  | fuel + 1, y, x => do
    if x = NIL then return y
    if rbtt.rbttCompare data (← rbtt.data x) < 0 then
      rbtt.insertDescend data fuel x (← rbtt.child .left x)
    else rbtt.insertDescend data fuel x (← rbtt.child .right x)

/-- The new node is linked below `y` (`std_rbtree.c:435-443`). -/
def linkLeaf (rbtt : RbtreeTable) (z y : Ptr) : Exec RbtreeTable := do
  let rbtt ← rbtt.setLeaf z y
  if y = NIL then return { rbtt with rbttRoot := z }
  if rbtt.rbttCompare (← rbtt.data z) (← rbtt.data y) < 0 then rbtt.setChild .left y z
  else rbtt.setChild .right y z

/-- `_std_rbtree_insert` (`std_rbtree.c:415-450`). -/
def insertNode (rbtt : RbtreeTable) (z : Ptr) : Exec RbtreeTable := do
  rbtt.debugBlock z
  let y ← rbtt.insertDescend (← rbtt.data z) rbtt.fuel NIL rbtt.rbttRoot
  let rbtt ← rbtt.linkLeaf z y
  let rbtt ← rbtt.stdRbtreeBalanceoninsert z
  return { rbtt with
    rbttNuminserts := rbtt.rbttNuminserts + 1
    rbttNuminodes := rbtt.rbttNuminodes + 1 }

/-- `std_rbtree_insert` (`std_rbtree.c:453-475`): whether it answers `STD_ERR_OK`. What the
allocator leaves in the other fields of the node is overwritten before it is read. -/
def stdRbtreeInsert (rbtt : RbtreeTable) (A : Malloc RbtreeNode) (data : Ptr) :
    Exec (Bool × RbtreeTable) := do
  rbtt.debugBlock data
  match A.next rbtt.nodes with
  | none => return (false, rbtt)
  | some z =>
    let rbtt := { rbtt with
      nodes := rbtt.nodes.set z ⟨NULL, NULL, NULL, .black, data⟩
      rbttNummallocs := rbtt.rbttNummallocs + 1 }
    return (true, ← rbtt.insertNode z)

/-! ## `std_rbtree_remove` -/

/-- The only child of `y` (`std_rbtree.c:552-556`), `NIL` when there is none. -/
def onlyChild (rbtt : RbtreeTable) (y : Ptr) : Exec Ptr := do
  let l ← rbtt.child .left y
  if l ≠ NIL then return l else rbtt.child .right y

/-- `y`, which has one child at most, is taken out of its parent's chain
(`std_rbtree.c:552-570`): the child. -/
def unchain (rbtt : RbtreeTable) (y : Ptr) : Exec (Ptr × RbtreeTable) := do
  let x ← rbtt.onlyChild y
  let rbtt ← rbtt.setParent x (← rbtt.parent y)
  let rbtt ← rbtt.replaceChild .left (← rbtt.parent y) y x
  return (x, rbtt)

/-- `y` is taken out of the tree, which is balanced again without it
(`std_rbtree.c:552-573`). -/
def cutNode (rbtt : RbtreeTable) (y : Ptr) : Exec RbtreeTable := do
  let (x, rbtt) ← rbtt.unchain y
  if (← rbtt.color y) = .black then rbtt.stdRbtreeBalanceonremove x else return rbtt

/-- `y` becomes the root when `z` is (`std_rbtree.c:577-578`). -/
def redirectRoot (rbtt : RbtreeTable) (y z : Ptr) : RbtreeTable :=
  if rbtt.rbttRoot = z then { rbtt with rbttRoot := y } else rbtt

/-- `y` gets the links and the colour of `z` (`std_rbtree.c:580-583`). -/
def copyNode (rbtt : RbtreeTable) (y z : Ptr) : Exec RbtreeTable := do
  let rbtt ← rbtt.setParent y (← rbtt.parent z)
  let rbtt ← rbtt.setChild .left y (← rbtt.child .left z)
  let rbtt ← rbtt.setChild .right y (← rbtt.child .right z)
  rbtt.setColor y (← rbtt.color z)

/-- `y`, which is no longer in the tree, takes the place of `z` (`std_rbtree.c:575-597`). -/
def takePlace (rbtt : RbtreeTable) (y z : Ptr) : Exec RbtreeTable := do
  let rbtt ← (rbtt.redirectRoot y z).copyNode y z
  let p ← rbtt.parent y
  let rbtt ← (if p ≠ NIL then rbtt.relinkParent .left p z y else pure rbtt)
  let l ← rbtt.child .left y
  let rbtt ← (if l ≠ NIL then rbtt.setParent l y else pure rbtt)
  let r ← rbtt.child .right y
  if r ≠ NIL then rbtt.setParent r y else return rbtt

/-- The node that is taken out of its chain for `z`: `z` itself, or its successor
(`std_rbtree.c:541-550`). -/
def nodeToCut (rbtt : RbtreeTable) (z : Ptr) : Exec Ptr := do
  if (← rbtt.child .left z) = NIL ∨ (← rbtt.child .right z) = NIL then return z
  else rbtt.getnextNode z

/-- `z` is taken out of the tree (`std_rbtree.c:541-597`). -/
def unlinkNode (rbtt : RbtreeTable) (z : Ptr) : Exec RbtreeTable := do
  let y ← rbtt.nodeToCut z
  let rbtt ← rbtt.cutNode y
  if y ≠ z then rbtt.takePlace y z else return rbtt

/-- `_std_rbtree_remove` (`std_rbtree.c:533-604`). -/
def removeNode (rbtt : RbtreeTable) (z : Ptr) : Exec RbtreeTable := do
  rbtt.debugBlock z
  let rbtt ← rbtt.unlinkNode z
  let rbtt ← rbtt.setLeaf z NIL
  return { rbtt with
    rbttNumremoved := rbtt.rbttNumremoved + 1
    rbttNuminodes := ulongPred rbtt.rbttNuminodes }

/-- `std_rbtree_remove` (`std_rbtree.c:607-625`). -/
def stdRbtreeRemove (rbtt : RbtreeTable) (data : Ptr) : Exec (Ptr × RbtreeTable) := do
  rbtt.debugBlock data
  let x ← rbtt.getexactNode data
  if x = NULL then return (NULL, rbtt)
  let rbtt ← rbtt.removeNode x
  let rbtData ← rbtt.data x
  return (rbtData, { rbtt with
    nodes := rbtt.nodes.erase x
    rbttNumfrees := rbtt.rbttNumfrees + 1 })

end RbtreeTable

end OpxCommonUtils.RbTree
