import OpxCommonUtils.Misc.RedBlack

/-!
# The red-black table (`inc/opx/std_rbtree.h`)

The nodes of a table live in a heap. The sentinel `rbtt->nil` is one of its cells, at the
address `NIL`; its `rbt_data`, which nothing reads, is shown as `NULL`. User nodes are opaque
pointers, which only `rbtt_compare` looks into.
-/

namespace OpxCommonUtils.RbTree

/-- `struct _std_rbtree_node` (`std_rbtree.h:71-90`). -/
structure RbtreeNode where
  rbtLeft : Ptr
  rbtRight : Ptr
  rbtParent : Ptr
  rbtColor : Color
  rbtData : Ptr
  deriving DecidableEq, Repr

/-- `struct _std_rbtree_table` (`std_rbtree.h:103-152`) with the memory it refers to. -/
structure RbtreeTable where
  rbttMagic : Nat
  rbttRoot : Ptr
  rbttDebug : Bool
  rbttCompare : Ptr → Ptr → Int
  rbttNuminodes : Nat
  rbttNuminserts : Nat
  rbttNumremoved : Nat
  rbttNummallocs : Nat
  rbttNumfrees : Nat
  nodes : Heap RbtreeNode

/-- `RBT_MAGIC`. -/
def RBT_MAGIC : Nat := 0xdeadbeef

/-- `NIL(rbtt)`: the address of the sentinel. -/
def NIL : Ptr := 1

/-- The child of a node on side `s`. -/
def RbtreeNode.child (n : RbtreeNode) : Side → Ptr
  | .left => n.rbtLeft
  | .right => n.rbtRight

/-- The node with its child on side `s` replaced. -/
def RbtreeNode.setChild (n : RbtreeNode) (p : Ptr) : Side → RbtreeNode
  | .left => { n with rbtLeft := p }
  | .right => { n with rbtRight := p }

/-- The node with its parent replaced. -/
def RbtreeNode.setParent (n : RbtreeNode) (p : Ptr) : RbtreeNode := { n with rbtParent := p }

/-- The node with its colour replaced. -/
def RbtreeNode.setColor (n : RbtreeNode) (k : Color) : RbtreeNode := { n with rbtColor := k }

/-- What a node holds besides its links. -/
structure RbVal where
  color : Color
  data : Ptr
  deriving DecidableEq, Repr

instance : Colored RbVal where
  color v := v.color

instance : NodeLayout RbtreeNode RbVal where
  nul := NIL
  cell l r p v := ⟨l, r, p, v.color, v.data⟩

@[simp] theorem nul_rbtreeNode : LinkTree.nul RbtreeNode = NIL := rfl

@[simp] theorem color_rbVal (v : RbVal) : Colored.color v = v.color := rfl

namespace RbtreeTable

/-- `std_rbtree_create` (`std_rbtree.c:923-973`), once its allocation succeeded. -/
def stdRbtreeCreate (compare : Ptr → Ptr → Int) : RbtreeTable where
  rbttMagic := RBT_MAGIC
  rbttRoot := NIL
  rbttDebug := true
  rbttCompare := compare
  rbttNuminodes := 0
  rbttNuminserts := 0
  rbttNumremoved := 0
  rbttNummallocs := 0
  rbttNumfrees := 0
  nodes := Heap.empty.set NIL ⟨NIL, NIL, NIL, .black, NULL⟩

/-- `RBT_DEBUG_START` and `RBT_DEBUG_END` around `RBT_ASSERT(data)`. -/
def debugBlock (rbtt : RbtreeTable) (data : Ptr) : Exec Unit := do
  assertThat (rbtt.rbttMagic == RBT_MAGIC)
  if rbtt.rbttDebug then assertThat (data != NULL)

/-- `RBT_DEBUG_START` and `RBT_DEBUG_END` with nothing between them. -/
def validateHandle (rbtt : RbtreeTable) : Exec Unit := assertThat (rbtt.rbttMagic == RBT_MAGIC)

/-- `x->rbt_parent`. -/
def parent (rbtt : RbtreeTable) (x : Ptr) : Exec Ptr := return (← rbtt.nodes.deref x).rbtParent

/-- `x->rbt_left` and `x->rbt_right`. -/
def child (rbtt : RbtreeTable) (s : Side) (x : Ptr) : Exec Ptr :=
  return (← rbtt.nodes.deref x).child s

/-- `x->rbt_color`. -/
def color (rbtt : RbtreeTable) (x : Ptr) : Exec Color := return (← rbtt.nodes.deref x).rbtColor

/-- `x->rbt_data`. -/
def data (rbtt : RbtreeTable) (x : Ptr) : Exec Ptr := return (← rbtt.nodes.deref x).rbtData

/-- Assignment to a field of the node at `x`. -/
def assign (rbtt : RbtreeTable) (x : Ptr) (f : RbtreeNode → RbtreeNode) : Exec RbtreeTable :=
  return { rbtt with nodes := ← rbtt.nodes.update x f }

/-- `x->rbt_parent = p`. -/
def setParent (rbtt : RbtreeTable) (x p : Ptr) : Exec RbtreeTable :=
  rbtt.assign x fun n => n.setParent p

/-- `x->rbt_left = p` and `x->rbt_right = p`. -/
def setChild (rbtt : RbtreeTable) (s : Side) (x p : Ptr) : Exec RbtreeTable :=
  rbtt.assign x fun n => n.setChild p s

/-- `x->rbt_color = k`. -/
def setColor (rbtt : RbtreeTable) (x : Ptr) (k : Color) : Exec RbtreeTable :=
  rbtt.assign x fun n => n.setColor k

/-- The nodes below `x` with their user nodes, in the order in which `_std_rbtree_rwalk`
(`std_rbtree.c:296-309`) calls back. -/
def rwalk (nodes : Heap RbtreeNode) : Nat → Ptr → Exec (List (Ptr × Ptr))
  | 0, _ => .error .diverges
  | fuel + 1, x => do
    if x = NIL then return []
    let n ← nodes.deref x
    let before ← rwalk nodes fuel n.rbtLeft
    let after ← rwalk nodes fuel n.rbtRight
    return before ++ (x, n.rbtData) :: after

/-- The in-order sequence of the table. -/
def inorder (rbtt : RbtreeTable) : Exec (List (Ptr × Ptr)) :=
  rwalk rbtt.nodes (rbtt.nodes.bound + 1) rbtt.rbttRoot

end RbtreeTable

end OpxCommonUtils.RbTree
