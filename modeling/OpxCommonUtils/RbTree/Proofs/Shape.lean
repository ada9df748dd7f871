import OpxCommonUtils.Misc.LinkEdit
import OpxCommonUtils.RbTree.Update

/-!
# The tree behind a red-black table

`Shape rbtt t` says that the nodes of the table are linked as the tree `t` and that the sentinel
is as `std_rbtree_create` made it, up to its parent, which a removal overwrites. `Rewired` is
what the rotations and rebalancing loops keep: the in-order sequence of nodes with their user
nodes, and everything outside the tree.
-/

namespace OpxCommonUtils.RbTree

open Tree LinkTree RedBlack RbtreeTable

/-- The nodes of a tree in order, each with its user node. -/
def seq (t : Tree RbVal) : List (Ptr × Ptr) := t.ino.map fun x => (x.1, x.2.data)

@[simp] theorem seq_nil : seq .nil = [] := rfl

@[simp] theorem seq_node (p : Ptr) (v : RbVal) (l r : Tree RbVal) :
    seq (.node p v l r) = seq l ++ (p, v.data) :: seq r := by
  simp [seq, ino]

/-- The part of the sequence before a hole. -/
def seqBefore (c : List (Frame RbVal)) : List (Ptr × Ptr) :=
  (Ctx.inoBefore c).map fun x => (x.1, x.2.data)

/-- The part of the sequence after a hole. -/
def seqAfter (c : List (Frame RbVal)) : List (Ptr × Ptr) :=
  (Ctx.inoAfter c).map fun x => (x.1, x.2.data)

theorem seqBefore_append (c d : List (Frame RbVal)) :
    seqBefore (c ++ d) = seqBefore d ++ seqBefore c := by
  simp [seqBefore, Ctx.inoBefore_append]

theorem seqAfter_append (c d : List (Frame RbVal)) :
    seqAfter (c ++ d) = seqAfter c ++ seqAfter d := by
  simp [seqAfter, Ctx.inoAfter_append]

theorem seq_plug (c : List (Frame RbVal)) (t : Tree RbVal) :
    seq (plug c t) = seqBefore c ++ seq t ++ seqAfter c := by
  simp [seq, seqBefore, seqAfter, ino_plug]

theorem seq_plug_congr {c : List (Frame RbVal)} {t t' : Tree RbVal} (h : seq t' = seq t) :
    seq (plug c t') = seq (plug c t) := by
  rw [seq_plug, seq_plug, h]

theorem length_seq (t : Tree RbVal) : (seq t).length = t.size := by
  rw [seq, List.length_map, length_ino]

theorem map_fst_seq_perm (t : Tree RbVal) : ((seq t).map Prod.fst).Perm t.ptrs := by
  rw [seq, List.map_map]
  exact t.map_fst_ino_perm

theorem mem_ptrs_of_seq_eq {t t' : Tree RbVal} (h : seq t' = seq t) (p : Ptr) :
    p ∈ t'.ptrs ↔ p ∈ t.ptrs := by
  rw [← (map_fst_seq_perm t').mem_iff, h, (map_fst_seq_perm t).mem_iff]

/-- A rotation does not change the sequence. -/
theorem seq_rotate (s : Side) (x y : Ptr) (vx vy : RbVal) (a b d : Tree RbVal) :
    seq (join s y vy (join s x vx a b) d) = seq (join s x vx a (join s y vy b d)) := by
  rw [seq, seq, ino_rotate]

theorem seq_setColor (s : Side) (p : Ptr) (v : RbVal) (k : Color) (a b : Tree RbVal) :
    seq (join s p { v with color := k } a b) = seq (join s p v a b) := by
  cases s <;> simp [join]

/-- The user nodes are in non-decreasing order. -/
def Sorted (cmp : Ptr → Ptr → Int) (xs : List (Ptr × Ptr)) : Prop :=
  xs.Pairwise fun x y => cmp x.2 y.2 ≤ 0

/-! ## Cells -/

section Cells

variable (s : Side) (near far par q : Ptr) (v : RbVal) (k : Color)

@[simp] theorem child_mkSide : (mkSide s near far par v : RbtreeNode).child s = near := by
  cases s <;> rfl

@[simp] theorem child_flip_mkSide :
    (mkSide s near far par v : RbtreeNode).child s.flip = far := by cases s <;> rfl

@[simp] theorem rbtParent_mkSide : (mkSide s near far par v : RbtreeNode).rbtParent = par := by
  cases s <;> rfl

@[simp] theorem rbtColor_mkSide : (mkSide s near far par v : RbtreeNode).rbtColor = v.color := by
  cases s <;> rfl

@[simp] theorem rbtData_mkSide : (mkSide s near far par v : RbtreeNode).rbtData = v.data := by
  cases s <;> rfl

@[simp] theorem rbtData_cell :
    (NodeLayout.cell near far par v : RbtreeNode).rbtData = v.data := rfl

@[simp] theorem setChild_mkSide :
    (mkSide s near far par v : RbtreeNode).setChild q s = mkSide s q far par v := by
  cases s <;> rfl

@[simp] theorem setChild_flip_mkSide :
    (mkSide s near far par v : RbtreeNode).setChild q s.flip = mkSide s near q par v := by
  cases s <;> rfl

@[simp] theorem setParent_mkSide :
    (mkSide s near far par v : RbtreeNode).setParent q = mkSide s near far q v := by
  cases s <;> rfl

@[simp] theorem setColor_mkSide :
    (mkSide s near far par v : RbtreeNode).setColor k =
      mkSide s near far par { v with color := k } := by
  cases s <;> rfl

end Cells

/-! ## The shape of a table -/

/-- The table holds the tree. -/
structure Shape (rbtt : RbtreeTable) (t : Tree RbVal) : Prop where
  holds : Holds rbtt.nodes rbtt.rbttRoot t
  nil : ∃ par, rbtt.nodes.get NIL = some ⟨NIL, NIL, par, .black, NULL⟩
  nonNull : NULL ∉ t.ptrs

/-- A table without its tree: what the code that links nodes leaves alone. -/
def RbtreeTable.bare (rbtt : RbtreeTable) : RbtreeTable :=
  { rbtt with rbttRoot := NIL, nodes := Heap.empty }

section Bare

variable {rbtt rbtt' : RbtreeTable} (h : rbtt'.bare = rbtt.bare)

include h

theorem compare_of_bare : rbtt'.rbttCompare = rbtt.rbttCompare := by
  change rbtt'.bare.rbttCompare = rbtt.bare.rbttCompare
  rw [h]

theorem magic_of_bare : rbtt'.rbttMagic = rbtt.rbttMagic := by
  change rbtt'.bare.rbttMagic = rbtt.bare.rbttMagic
  rw [h]

theorem numinodes_of_bare : rbtt'.rbttNuminodes = rbtt.rbttNuminodes := by
  change rbtt'.bare.rbttNuminodes = rbtt.bare.rbttNuminodes
  rw [h]

end Bare

/-- The nodes of `t` were rewired to `t'`, in the same order, and nothing else changed. -/
structure Rewired (rbtt : RbtreeTable) (t : Tree RbVal) (rbtt' : RbtreeTable) (t' : Tree RbVal) :
    Prop where
  shape : Shape rbtt' t'
  seq_eq : seq t' = seq t
  outside : ∀ p ∉ t.ptrs, rbtt'.nodes.get p = rbtt.nodes.get p
  bare : rbtt'.bare = rbtt.bare

theorem Rewired.refl {rbtt : RbtreeTable} {t : Tree RbVal} (h : Shape rbtt t) :
    Rewired rbtt t rbtt t :=
  ⟨h, rfl, fun _ _ => rfl, rfl⟩

theorem Rewired.trans {rbtt rbtt' rbtt'' : RbtreeTable} {t t' t'' : Tree RbVal}
    (h : Rewired rbtt t rbtt' t') (h' : Rewired rbtt' t' rbtt'' t'') :
    Rewired rbtt t rbtt'' t'' := by
  refine ⟨h'.shape, h'.seq_eq.trans h.seq_eq, fun p hp => ?_, h'.bare.trans h.bare⟩
  rw [h'.outside p (by rwa [mem_ptrs_of_seq_eq h.seq_eq]), h.outside p hp]

/-- The table is a sorted red-black tree, with its sentinel and its node count. -/
structure Sound (rbtt : RbtreeTable) (t : Tree RbVal) : Prop where
  magic : rbtt.rbttMagic = RBT_MAGIC
  shape : Shape rbtt t
  black : rootColor t = .black
  balanced : ∃ n, Balanced t n
  sorted : Sorted rbtt.rbttCompare (seq t)
  counted : rbtt.rbttNuminodes = t.size
  stored : ∀ x ∈ seq t, x.2 ≠ NULL

namespace Shape

variable {rbtt : RbtreeTable} {c : List (Frame RbVal)} {s : Side} {p : Ptr} {v : RbVal}
  {t a b : Tree RbVal}

theorem ne_NIL (h : Shape rbtt t) {q : Ptr} (hq : q ∈ t.ptrs) : q ≠ NIL := (h.holds.live hq).1

theorem not_mem_NIL (h : Shape rbtt t) : NIL ∉ t.ptrs := fun hmem => h.ne_NIL hmem rfl

/-- The loops that follow links end within the fuel. -/
theorem size_lt_fuel (h : Shape rbtt t) : t.size < rbtt.fuel :=
  Nat.lt_succ_of_le h.holds.size_le

theorem length_lt_fuel (h : Shape rbtt (plug c t)) : c.length + t.size < rbtt.fuel := by
  have hsize := h.size_lt_fuel
  have hlen := Ctx.length_le_ptrs c
  rw [size_plug] at hsize
  omega

theorem child_near (h : Shape rbtt (plug c (join s p v a b))) :
    rbtt.child s p = .ok (a.root NIL) := by
  rw [child, Heap.deref_ok h.holds.get_join]
  simp

theorem child_far (h : Shape rbtt (plug c (join s p v a b))) :
    rbtt.child s.flip p = .ok (b.root NIL) := by
  rw [child, Heap.deref_ok h.holds.get_join]
  simp

theorem parent_eq (h : Shape rbtt (plug c (join s p v a b))) :
    rbtt.parent p = .ok (Ctx.top NIL c) := by
  rw [parent, Heap.deref_ok h.holds.get_join]
  simp

theorem data_eq (h : Shape rbtt (plug c (join s p v a b))) : rbtt.data p = .ok v.data := by
  rw [data, Heap.deref_ok h.holds.get_join]
  simp

section Node

variable {l r : Tree RbVal}

theorem child_left (h : Shape rbtt (plug c (.node p v l r))) :
    rbtt.child .left p = .ok (l.root NIL) := child_near (s := .left) h

theorem child_right (h : Shape rbtt (plug c (.node p v l r))) :
    rbtt.child .right p = .ok (r.root NIL) := child_near (s := .right) h

theorem parent_node (h : Shape rbtt (plug c (.node p v l r))) :
    rbtt.parent p = .ok (Ctx.top NIL c) := parent_eq (s := .left) h

theorem data_node (h : Shape rbtt (plug c (.node p v l r))) : rbtt.data p = .ok v.data :=
  data_eq (s := .left) h

theorem ptr_ne_NIL (h : Shape rbtt (plug c (.node p v l r))) : p ≠ NIL :=
  h.ne_NIL (by simp [mem_ptrs_plug, ptrs])

theorem ptr_ne_NULL (h : Shape rbtt (plug c (.node p v l r))) : p ≠ NULL := by
  rintro rfl
  exact h.nonNull (by simp [mem_ptrs_plug, ptrs])

end Node

/-- The colour behind the pointer to a subtree; the sentinel answers for the absent one. -/
theorem color_eq (h : Shape rbtt (plug c t)) : rbtt.color (t.root NIL) = .ok (rootColor t) := by
  cases t with
  | nil =>
    obtain ⟨par, hnil⟩ := h.nil
    rw [color, root_nil, Heap.deref_ok hnil]
    rfl
  | node q w l r =>
    have hget := Holds.get_join (s := .left) h.holds
    rw [color, root_node, Heap.deref_ok hget]
    rfl

/-- The test whether a node is its parent's child on side `s`. -/
theorem child_test {f : Frame RbVal} (h : Shape rbtt (plug (f :: c) t))
    (hne : t ≠ .nil ∨ f.sib ≠ .nil) (s : Side) :
    ∃ q, rbtt.child s f.ptr = .ok q ∧ (t.root NIL = q ↔ f.side = s) := by
  have hroot := h.holds.root_ne _ hne
  rw [nul_rbtreeNode] at hroot
  by_cases hs : f.side = s
  · subst hs
    exact ⟨_, h.child_near, by simp⟩
  · have hflip : s = f.side.flip := by
      cases s <;> cases hside : f.side <;> simp_all [Side.flip]
    subst hflip
    exact ⟨_, h.child_far, by simp [hroot]⟩

/-- Everything but the colour of one node stays. -/
theorem setColor_spec (h : Shape rbtt (plug c (join s p v a b))) (k : Color) :
    Delivers (rbtt.setColor p k) fun rbtt' =>
      Rewired rbtt (plug c (join s p v a b)) rbtt'
        (plug c (join s p { v with color := k } a b)) := by
  have hmem : p ∈ (plug c (join s p v a b)).ptrs := (mem_ptrs_plug ..).mpr (.inl (by simp))
  have hseq := seq_plug_congr (c := c) (seq_setColor s p v k a b)
  rw [setColor, assign, Heap.update_ok h.holds.get_join, setColor_mkSide]
  refine delivers_ok.mpr ⟨⟨?_, ?_, ?_⟩, hseq, fun q hq => ?_, rfl⟩
  · cases s with
    | left => exact h.holds.setVal _
    | right => exact h.holds.setVal _
  · obtain ⟨par, hnil⟩ := h.nil
    exact ⟨par, (Heap.get_set_ne _ _ (h.ne_NIL hmem).symm).trans hnil⟩
  · rw [mem_ptrs_of_seq_eq hseq]
    exact h.nonNull
  · exact Heap.get_set_ne _ _ fun heq => hq (heq ▸ hmem)

end Shape

end OpxCommonUtils.RbTree
