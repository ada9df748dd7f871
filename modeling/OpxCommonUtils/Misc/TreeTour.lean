import OpxCommonUtils.Misc.LinkTree

/-!
# Tours of a tree

A tour comes to every node of a binary tree without a stack: at a node it goes down to the left
child, to the right child or up to the parent, whichever is next. A `Place` is a node with what the
tour does there next. `rest` are the cells the tour has yet to come to, in preorder, `restIno` those
it has yet to come to from the left, in inorder, and `rounds` is the number of steps it has to go, so
that both the order and the end of a tour follow from what one step does to them.
-/

namespace OpxCommonUtils.Tree

/-- What a tour does next at a node. -/
inductive Heading where
  | down
  | right
  | up
  deriving DecidableEq, Repr

/-- A node of a tree on a tour. -/
structure Place (β : Type) where
  ctx : List (Frame β)
  ptr : Ptr
  val : β
  left : Tree β
  right : Tree β
  heading : Heading
  deriving DecidableEq, Repr

namespace Place

variable {β : Type}

/-- The subtree at the node. -/
def here (x : Place β) : Tree β := .node x.ptr x.val x.left x.right

/-- The tree the tour is in. -/
def whole (x : Place β) : Tree β := plug x.ctx x.here

/-- The cells the tour has yet to come to. -/
def rest (x : Place β) : List (Ptr × β) :=
  match x.heading with
  | .down => x.here.pre ++ Ctx.preAfter x.ctx
  | .right => x.right.pre ++ Ctx.preAfter x.ctx
  | .up => Ctx.preAfter x.ctx

/-- The cells whose left side the tour has yet to leave behind. -/
def restIno (x : Place β) : List (Ptr × β) :=
  match x.heading with
  | .down => x.here.ino ++ Ctx.inoAfter x.ctx
  | .right => x.right.ino ++ Ctx.inoAfter x.ctx
  | .up => Ctx.inoAfter x.ctx

/-- The steps from the hole of a context to the end of the tour. -/
def roundsOut : List (Frame β) → Nat
  | [] => 0
  | f :: c => (match f.side with | .left => 3 * f.sib.size + 2 | .right => 1) + roundsOut c

/-- The steps to the end of the tour. -/
def rounds (x : Place β) : Nat :=
  (match x.heading with
    | .down => 3 * x.here.size
    | .right => 3 * x.right.size + 2
    | .up => 1) + roundsOut x.ctx

/-- To the left child, or to the right when there is none. -/
def goLeft (x : Place β) : Place β :=
  match x.left with
  | .nil => { x with heading := .right }
  | .node p v l r => ⟨⟨.left, x.ptr, x.val, x.right⟩ :: x.ctx, p, v, l, r, .down⟩

/-- To the right child, or up when there is none. -/
def goRight (x : Place β) : Place β :=
  match x.right with
  | .nil => { x with heading := .up }
  | .node p v l r => ⟨⟨.right, x.ptr, x.val, x.left⟩ :: x.ctx, p, v, l, r, .down⟩

/-- To the parent of a node that is a child on the given side. -/
def goUp (x : Place β) (f : Frame β) (c : List (Frame β)) : Place β :=
  match f.side with
  | .left => ⟨c, f.ptr, f.val, x.here, f.sib, .right⟩
  | .right => ⟨c, f.ptr, f.val, f.sib, x.here, .up⟩

theorem goLeft_nil {x : Place β} (hleft : x.left = .nil) :
    x.goLeft = { x with heading := .right } := by
  unfold goLeft
  rw [hleft]

theorem goLeft_of_ne {x : Place β} (hleft : x.left ≠ .nil) (nul : Ptr) :
    x.goLeft.ptr = x.left.root nul ∧ x.goLeft.heading = .down := by
  unfold goLeft
  split
  · rename_i hnil
    exact absurd hnil hleft
  · rename_i p v l r hnode
    rw [hnode]
    exact ⟨rfl, rfl⟩

theorem goRight_nil {x : Place β} (hright : x.right = .nil) :
    x.goRight = { x with heading := .up } := by
  unfold goRight
  rw [hright]

theorem goRight_of_ne {x : Place β} (hright : x.right ≠ .nil) (nul : Ptr) :
    x.goRight.ptr = x.right.root nul ∧ x.goRight.heading = .down := by
  unfold goRight
  split
  · rename_i hnil
    exact absurd hnil hright
  · rename_i p v l r hnode
    rw [hnode]
    exact ⟨rfl, rfl⟩

theorem goUp_ptr (x : Place β) (f : Frame β) (c : List (Frame β)) :
    (x.goUp f c).ptr = f.ptr := by
  unfold goUp
  split <;> rfl

@[simp] theorem whole_goLeft (x : Place β) : x.goLeft.whole = x.whole := by
  unfold goLeft
  split
  · rfl
  · rename_i p v l r hleft
    simp [whole, here, join, hleft]

@[simp] theorem whole_goRight (x : Place β) : x.goRight.whole = x.whole := by
  unfold goRight
  split
  · rfl
  · rename_i p v l r hright
    simp [whole, here, join, hright]

theorem whole_goUp {x : Place β} {f : Frame β} {c : List (Frame β)} (hctx : x.ctx = f :: c) :
    (x.goUp f c).whole = x.whole := by
  unfold goUp
  split <;> rename_i hside <;> simp [whole, here, join, hctx, hside]

/-- Going down comes to the node. -/
theorem rest_down {x : Place β} (hdown : x.heading = .down) :
    x.rest = (x.ptr, x.val) :: x.goLeft.rest := by
  unfold goLeft
  split
  · rename_i hleft
    simp [rest, hdown, here, pre, hleft]
  · rename_i p v l r hleft
    simp [rest, hdown, here, pre, hleft, Ctx.preAfter]

theorem rest_right {x : Place β} (hright : x.heading = .right) : x.goRight.rest = x.rest := by
  unfold goRight
  split
  · rename_i hnil
    simp [rest, hright, pre, hnil]
  · rename_i p v l r hnode
    simp [rest, hright, here, pre, hnode, Ctx.preAfter]

theorem rest_up {x : Place β} (hup : x.heading = .up) {f : Frame β} {c : List (Frame β)}
    (hctx : x.ctx = f :: c) : (x.goUp f c).rest = x.rest := by
  unfold goUp
  split <;> rename_i hside <;> simp [rest, hup, hctx, hside, Ctx.preAfter]

theorem rest_end {x : Place β} (hup : x.heading = .up) (hctx : x.ctx = []) : x.rest = [] := by
  simp [rest, hup, hctx, Ctx.preAfter]

/-- A node without a left child has nothing on its left. -/
theorem restIno_down_nil {x : Place β} (hdown : x.heading = .down) (hleft : x.left = .nil) :
    x.restIno = (x.ptr, x.val) :: x.goLeft.restIno := by
  rw [goLeft_nil hleft]
  simp [restIno, hdown, here, ino, hleft]

theorem restIno_down_of_ne {x : Place β} (hdown : x.heading = .down) (hleft : x.left ≠ .nil) :
    x.goLeft.restIno = x.restIno := by
  unfold goLeft
  split
  · rename_i hnil
    exact absurd hnil hleft
  · rename_i p v l r hnode
    simp [restIno, hdown, here, ino, hnode, Ctx.inoAfter]

theorem restIno_right {x : Place β} (hright : x.heading = .right) :
    x.goRight.restIno = x.restIno := by
  unfold goRight
  split
  · rename_i hnil
    simp [restIno, hright, ino, hnil]
  · rename_i p v l r hnode
    simp [restIno, hright, here, ino, hnode, Ctx.inoAfter]

/-- Going up from a left child leaves the left side of the parent. -/
theorem restIno_up_left {x : Place β} (hup : x.heading = .up) {f : Frame β} {c : List (Frame β)}
    (hctx : x.ctx = f :: c) (hside : f.side = .left) :
    x.restIno = (f.ptr, f.val) :: (x.goUp f c).restIno := by
  simp [restIno, hup, hctx, goUp, hside, Ctx.inoAfter]

theorem restIno_up_right {x : Place β} (hup : x.heading = .up) {f : Frame β} {c : List (Frame β)}
    (hctx : x.ctx = f :: c) (hside : f.side = .right) : (x.goUp f c).restIno = x.restIno := by
  simp [restIno, hup, hctx, goUp, hside, Ctx.inoAfter]

theorem restIno_end {x : Place β} (hup : x.heading = .up) (hctx : x.ctx = []) : x.restIno = [] := by
  simp [restIno, hup, hctx, Ctx.inoAfter]

theorem rounds_down {x : Place β} (hdown : x.heading = .down) : x.goLeft.rounds < x.rounds := by
  unfold goLeft
  split
  · rename_i hleft
    simp only [rounds, hdown, here, size, hleft]
    omega
  · rename_i p v l r hleft
    simp only [rounds, hdown, here, size, hleft, roundsOut]
    omega

theorem rounds_right {x : Place β} (hright : x.heading = .right) :
    x.goRight.rounds < x.rounds := by
  unfold goRight
  split
  · rename_i hnil
    simp only [rounds, hright, size, hnil]
    omega
  · rename_i p v l r hnode
    simp only [rounds, hright, here, size, hnode, roundsOut]
    omega

theorem rounds_up {x : Place β} (hup : x.heading = .up) {f : Frame β} {c : List (Frame β)}
    (hctx : x.ctx = f :: c) : (x.goUp f c).rounds < x.rounds := by
  unfold goUp
  split <;> rename_i hside <;> simp only [rounds, hup, hctx, roundsOut, hside] <;> omega

theorem roundsOut_le (c : List (Frame β)) : roundsOut c ≤ 3 * (Ctx.ptrs c).length := by
  induction c with
  | nil => simp [roundsOut]
  | cons f c ih =>
    rw [Ctx.ptrs_cons]
    simp only [roundsOut, List.length_cons, List.length_append, length_ptrs]
    split <;> omega

/-- What follows at a place from what follows at the next holds at all places. -/
theorem tour_induction {P : Place β → Prop}
    (hdown : ∀ x, x.heading = .down → P x.goLeft → P x)
    (hright : ∀ x, x.heading = .right → P x.goRight → P x)
    (hup : ∀ x f c, x.heading = .up → x.ctx = f :: c → P (x.goUp f c) → P x)
    (hend : ∀ x, x.heading = .up → x.ctx = [] → P x) (x : Place β) : P x := by
  induction hrounds : x.rounds using Nat.strongRecOn generalizing x with
  | _ n ih =>
    subst hrounds
    cases hheading : x.heading with
    | down => exact hdown x hheading (ih _ (rounds_down hheading) _ rfl)
    | right => exact hright x hheading (ih _ (rounds_right hheading) _ rfl)
    | up =>
      cases hctx : x.ctx with
      | nil => exact hend x hheading hctx
      | cons f c => exact hup x f c hheading hctx (ih _ (rounds_up hheading hctx) _ rfl)

/-- A tour takes three steps for each node at most. -/
theorem rounds_le (x : Place β) : x.rounds ≤ 3 * x.whole.size := by
  have hout := roundsOut_le x.ctx
  rw [whole, size_plug]
  unfold rounds
  split <;> simp only [here, size] <;> omega

/-- Going right at once leaves out what is to the left. -/
theorem rest_right_suffix (x : Place β) : { x with heading := .right }.rest <:+ x.goLeft.rest := by
  unfold goLeft
  split
  · exact List.suffix_refl _
  · rename_i p v l r hleft
    exact List.suffix_append ..

end Place

end OpxCommonUtils.Tree
