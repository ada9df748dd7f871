import OpxCommonUtils.RbTree.Proofs.Shape

/-!
# Relinking nodes

The parts of the source that set child, parent and root pointers, and from them the rotation:
`Shape.rotate_spec` says that the program on the heap does what a rotation of the tree is.
-/

namespace OpxCommonUtils.RbTree

open Tree LinkTree RedBlack RbtreeTable

namespace RbtreeTable

variable {rbtt : RbtreeTable}

theorem child_ok {p : Ptr} {n : RbtreeNode} (hp : rbtt.nodes.get p = some n) (s : Side) :
    rbtt.child s p = .ok (n.child s) := by
  rw [child, Heap.deref_ok hp]
  rfl

theorem parent_ok {p : Ptr} {n : RbtreeNode} (hp : rbtt.nodes.get p = some n) :
    rbtt.parent p = .ok n.rbtParent := by
  rw [parent, Heap.deref_ok hp]
  rfl

theorem assign_ok {p : Ptr} {n : RbtreeNode} (hp : rbtt.nodes.get p = some n)
    (f : RbtreeNode → RbtreeNode) :
    rbtt.assign p f = .ok { rbtt with nodes := rbtt.nodes.set p (f n) } := by
  rw [assign, Heap.update_ok hp]
  rfl

theorem validateHandle_ok (h : rbtt.rbttMagic = RBT_MAGIC) : rbtt.validateHandle = .ok () := by
  rw [validateHandle, h]
  rfl

theorem debugBlock_ok (h : rbtt.rbttMagic = RBT_MAGIC) {data : Ptr} (hd : data ≠ NULL) :
    rbtt.debugBlock data = .ok () := by
  rw [debugBlock, h, bne_iff_ne.mpr hd]
  cases rbtt.rbttDebug <;> rfl

theorem setLeaf_spec {z : Ptr} {n : RbtreeNode} (par : Ptr) (hz : rbtt.nodes.get z = some n) :
    Delivers (rbtt.setLeaf z par) fun rbtt' =>
      rbtt'.nodes.get z = some (NodeLayout.cell NIL NIL par ⟨n.rbtColor, n.rbtData⟩) ∧
      (∀ q, q ≠ z → rbtt'.nodes.get q = rbtt.nodes.get q) ∧
      rbtt'.rbttRoot = rbtt.rbttRoot ∧ rbtt'.bare = rbtt.bare := by
  rw [setLeaf, setParent, assign_ok hz, exec_bind_ok, setChild, assign_ok (Heap.get_set_self ..),
    exec_bind_ok, setChild, assign_ok (Heap.get_set_self ..)]
  refine delivers_ok.mpr ⟨Heap.get_set_self .., fun q hq => ?_, rfl, rfl⟩
  exact (Heap.get_set_ne _ _ hq).trans ((Heap.get_set_ne _ _ hq).trans (Heap.get_set_ne _ _ hq))

theorem color_ok {p : Ptr} {n : RbtreeNode} (hp : rbtt.nodes.get p = some n) :
    rbtt.color p = .ok n.rbtColor := by
  rw [color, Heap.deref_ok hp]
  rfl

theorem data_ok {p : Ptr} {n : RbtreeNode} (hp : rbtt.nodes.get p = some n) :
    rbtt.data p = .ok n.rbtData := by
  rw [data, Heap.deref_ok hp]
  rfl

/-- The link of the parent is redirected, whichever side is compared first. -/
theorem relinkParent_spec {fp p sib par : Ptr} {side : Side} {v : RbVal} (first : Side) (q : Ptr)
    (hget : rbtt.nodes.get fp = some (mkSide side p sib par v)) (hne : sib ≠ p) :
    rbtt.relinkParent first fp p q =
      .ok { rbtt with nodes := rbtt.nodes.set fp (mkSide side q sib par v) } := by
  have hside : first = side ∨ first = side.flip := by
    cases first <;> cases side <;> simp [Side.flip]
  rw [relinkParent, child_ok hget, exec_bind_ok]
  rcases hside with rfl | rfl
  · rw [child_mkSide, if_pos rfl, setChild, assign_ok hget, setChild_mkSide]
  · rw [child_flip_mkSide, if_neg hne.symm, Side.flip_flip, setChild, assign_ok hget,
      setChild_mkSide]

/-- At the root the root pointer is redirected, elsewhere the child link of the parent. -/
theorem replaceChild_spec {c : List (Frame RbVal)} {p : Ptr} (first : Side) (q : Ptr)
    (htop : ∀ f d, c = f :: d → f.ptr ≠ NIL ∧ f.sib.root NIL ≠ p ∧ rbtt.nodes.get f.ptr =
      some (mkSide f.side p (f.sib.root NIL) (Ctx.top NIL d) f.val)) :
    Delivers (rbtt.replaceChild first (Ctx.top NIL c) p q) fun rbtt' =>
      rbtt'.rbttRoot = (if c = [] then q else rbtt.rbttRoot) ∧
      (∀ f d, c = f :: d → rbtt'.nodes.get f.ptr =
        some (mkSide f.side q (f.sib.root NIL) (Ctx.top NIL d) f.val)) ∧
      (∀ r, r ∉ Ctx.ptrs c ∨ r ≠ Ctx.top NIL c → rbtt'.nodes.get r = rbtt.nodes.get r) ∧
      rbtt'.bare = rbtt.bare := by
  cases c with
  | nil =>
    rw [Ctx.top_nil, replaceChild, if_neg (by simp)]
    exact delivers_ok.mpr ⟨by simp, by simp, fun _ _ => rfl, rfl⟩
  | cons f d =>
    obtain ⟨hnil, hne, hget⟩ := htop f d rfl
    rw [Ctx.top_cons, replaceChild, if_pos hnil, relinkParent_spec first q hget hne]
    refine delivers_ok.mpr ⟨by simp, ?_, fun r hr => Heap.get_set_ne _ _ ?_, rfl⟩
    · rintro g e heq
      obtain ⟨rfl, rfl⟩ := List.cons.inj heq
      simp
    · rintro rfl
      simp at hr

/-- The root of a subtree, if there is one, gets another parent. -/
theorem reparent_spec {b : Tree RbVal} (q : Ptr)
    (hb : ∀ p v l r, b = .node p v l r → p ≠ NIL ∧
      ∃ par, rbtt.nodes.get p = some (NodeLayout.cell (l.root NIL) (r.root NIL) par v)) :
    Delivers (if b.root NIL ≠ NIL then rbtt.setParent (b.root NIL) q else pure rbtt) fun rbtt' =>
      (∀ p v l r, b = .node p v l r →
        rbtt'.nodes.get p = some (NodeLayout.cell (l.root NIL) (r.root NIL) q v)) ∧
      (∀ r, r ∉ b.ptrs ∨ r ≠ b.root NIL → rbtt'.nodes.get r = rbtt.nodes.get r) ∧
      rbtt'.rbttRoot = rbtt.rbttRoot ∧ rbtt'.bare = rbtt.bare := by
  cases b with
  | nil => simp
  | node p v l r =>
    obtain ⟨hnil, par, hget⟩ := hb p v l r rfl
    rw [root_node, if_pos hnil, setParent, assign_ok hget]
    refine delivers_ok.mpr ⟨?_, fun x hx => Heap.get_set_ne _ _ ?_, rfl, rfl⟩
    swap
    · rintro rfl
      simp [ptrs] at hx
    rintro p' v' l' r' heq
    obtain ⟨rfl, rfl, rfl, rfl⟩ := Tree.node.inj heq
    simp [RbtreeNode.setParent, NodeLayout.cell]

end RbtreeTable

/-- A rotation of the table is one of the tree. -/
theorem Shape.rotate_spec {rbtt : RbtreeTable} {c : List (Frame RbVal)} {s : Side} {x y : Ptr}
    {vx vy : RbVal} {a b d : Tree RbVal}
    (h : Shape rbtt (plug c (join s x vx a (join s y vy b d)))) :
    Delivers (rbtt.rotate s x) fun rbtt' =>
      Rewired rbtt (plug c (join s x vx a (join s y vy b d))) rbtt'
        (plug c (join s y vy (join s x vx a b) d)) := by
  have hx := h.holds.get_join
  have hy := Holds.get_join (s := s) (p := y) (v := vy)
    (c := ⟨s.flip, x, vx, a⟩ :: c) (h := rbtt.nodes)
    (by rw [← plug_swap]; exact h.holds)
  rw [root_join] at hx
  simp only [nul_rbtreeNode, Ctx.top_cons] at hx hy
  obtain ⟨hnd, hcnd, hdisj⟩ := (nodup_plug _ _).mp h.holds.nodup
  obtain ⟨hcrep, hrep⟩ := (rep_plug rbtt.nodes c _).mp h.holds.rep
  obtain ⟨hxn, -, -, hyrep⟩ := (rep_join ..).mp hrep
  obtain ⟨hyn, -, hbrep, -⟩ := (rep_join ..).mp hyrep
  have hnd' := List.nodup_cons.mp ((ptrs_join_perm s x vx a _).nodup_iff.mp hnd)
  have hynd := (List.nodup_append'.mp hnd'.2).2.1
  have hynd' := List.nodup_cons.mp ((ptrs_join_perm s y vy b d).nodup_iff.mp hynd)
  simp only [List.mem_append, mem_ptrs_join, not_or] at hnd' hynd'
  have hxy : x ≠ y := hnd'.1.2.1
  have hbx : ∀ q, q = b.root NIL → q ≠ x ∧ q ≠ y := by
    rintro q rfl
    cases hb : b with
    | nil => exact ⟨hxn.symm, hyn.symm⟩
    | node p v l r =>
      rw [hb] at hnd' hynd'
      constructor
      · rintro rfl
        exact hnd'.1.2.2.1 (by simp [ptrs])
      · rintro rfl
        exact hynd'.1.1 (by simp [ptrs])
  have htopne : ∀ q, q = Ctx.top NIL c → q ≠ x ∧ q ≠ y ∧ q ∉ b.ptrs := by
    rintro q rfl
    cases c with
    | nil => exact ⟨hxn.symm, hyn.symm, fun hq => (hbrep.live _ hq).1 rfl⟩
    | cons f c =>
      have hf : f.ptr ∉ (join s x vx a (join s y vy b d)).ptrs := fun hq => hdisj hq (by simp)
      simp only [mem_ptrs_join, not_or] at hf
      exact ⟨hf.1, hf.2.2.1, hf.2.2.2.1⟩
  have hpar : ∀ f e, c = f :: e → f.ptr ≠ b.root NIL := by
    rintro f e rfl heq
    obtain ⟨-, -, hfb⟩ := htopne f.ptr rfl
    refine hfb (heq ▸ root_mem_ptrs _ fun hnil => ?_)
    rw [hnil, root_nil] at heq
    exact hcrep.1 heq
  rw [RbtreeTable.rotate, child_ok hx, exec_bind_ok, child_flip_mkSide, child_ok hy, exec_bind_ok,
    child_mkSide, RbtreeTable.setChild, assign_ok hx, exec_bind_ok, setChild_flip_mkSide]
  have hy₁ := (Heap.get_set_ne rbtt.nodes
    (mkSide s (a.root NIL) (b.root NIL) (Ctx.top NIL c) vx) hxy.symm).trans hy
  rw [child_ok hy₁, exec_bind_ok, child_mkSide]
  -- the child of `y` on side `s` goes below `x`
  refine Delivers.bind (reparent_spec x ?_) ?_
  · rintro p v l r hb
    obtain ⟨hpn, hget, -, -⟩ := hb ▸ hbrep
    have hpx := (hbx p (by rw [hb, root_node])).1
    exact ⟨hpn, _, (Heap.get_set_ne _ _ hpx).trans hget⟩
  intro rbtt₂ h₂
  obtain ⟨hb₂, hout₂, hroot₂, hbare₂⟩ := h₂
  have hx₂ := (hout₂ x (.inr fun heq => (hbx x heq).1 rfl)).trans (Heap.get_set_self ..)
  have hy₂ := (hout₂ y (.inr fun heq => (hbx y heq).2 rfl)).trans hy₁
  rw [parent_ok hx₂, exec_bind_ok, rbtParent_mkSide, RbtreeTable.setParent, assign_ok hy₂,
    exec_bind_ok, setParent_mkSide]
  have hx₃ := (Heap.get_set_ne rbtt₂.nodes
    (mkSide s (b.root NIL) (d.root NIL) (Ctx.top NIL c) vy) hxy).trans hx₂
  rw [parent_ok hx₃, exec_bind_ok, rbtParent_mkSide]
  -- `y` takes the place of `x`
  refine Delivers.bind (replaceChild_spec s y ?_) ?_
  · rintro f e rfl
    obtain ⟨hfx, hfy, -⟩ := htopne f.ptr rfl
    obtain ⟨hfn, hget, -, -⟩ := hcrep
    refine ⟨hfn, ?_, ?_⟩
    · have hne := h.holds.root_ne (join s x vx a (join s y vy b d)) (.inl (by simp))
      rw [root_join] at hne
      exact hne.symm
    · refine (Heap.get_set_ne _ _ hfy).trans ((hout₂ _ (.inr (hpar f e rfl))).trans
        ((Heap.get_set_ne _ _ hfx).trans ?_))
      rw [hget, root_join]
      rfl
  intro rbtt₄ h₄
  obtain ⟨hroot₄, htop₄, hout₄, hbare₄⟩ := h₄
  have hx₄ := (hout₄ x (.inr fun heq => (htopne x heq).1 rfl)).trans hx₃
  have hy₄ := (hout₄ y (.inr fun heq => (htopne y heq).2.1 rfl)).trans (Heap.get_set_self ..)
  rw [RbtreeTable.setChild, assign_ok hy₄, exec_bind_ok, setChild_mkSide, RbtreeTable.setParent,
    assign_ok ((Heap.get_set_ne _ _ hxy).trans hx₄), setParent_mkSide]
  have hseq := seq_plug_congr (c := c) (seq_rotate s x y vx vy a b d)
  have houter : ∀ q, q ≠ x → q ≠ y → q ∉ b.ptrs ∨ q ≠ b.root NIL →
      q ∉ Ctx.ptrs c ∨ q ≠ Ctx.top NIL c →
      ((rbtt₄.nodes.set y (mkSide s x (d.root NIL) (Ctx.top NIL c) vy)).set x
        (mkSide s (a.root NIL) (b.root NIL) y vx)).get q = rbtt.nodes.get q := by
    intro q hqx hqy hqb hqt
    rw [Heap.get_set_ne _ _ hqx, Heap.get_set_ne _ _ hqy, hout₄ q hqt]
    refine (Heap.get_set_ne _ _ hqy).trans ((hout₂ q hqb).trans ?_)
    exact Heap.get_set_ne _ _ hqx
  have hout : ∀ q, q ∉ (plug c (join s x vx a (join s y vy b d))).ptrs →
      ((rbtt₄.nodes.set y (mkSide s x (d.root NIL) (Ctx.top NIL c) vy)).set x
        (mkSide s (a.root NIL) (b.root NIL) y vx)).get q = rbtt.nodes.get q := by
    intro q hq
    simp only [mem_ptrs_plug, mem_ptrs_join, not_or] at hq
    exact houter q hq.1.1 hq.1.2.2.1 (.inl hq.1.2.2.2.1) (.inl hq.2)
  refine delivers_ok.mpr ⟨⟨?_, ?_, ?_⟩, hseq, hout, ?_⟩
  · have hholds := h.holds.rotate
      (Heap.get_set_self ..) ((Heap.get_set_ne _ _ hxy.symm).trans (Heap.get_set_self ..)) ?_ ?_
      fun q hqx hqy hqb hqt => houter q hqx hqy (.inr hqb) (.inr hqt)
    · rw [← hroot₂.trans rfl, ← hroot₄] at hholds
      exact hholds
    · rintro p v l r rfl
      obtain ⟨hpx, hpy⟩ := hbx p rfl
      refine (Heap.get_set_ne _ _ hpx).trans ((Heap.get_set_ne _ _ hpy).trans
        ((hout₄ p (.inr fun heq => (htopne p heq).2.2 (by simp [ptrs]))).trans
          ((Heap.get_set_ne _ _ hpy).trans (hb₂ p v l r rfl))))
    · rintro f e rfl
      obtain ⟨hfx, hfy, -⟩ := htopne f.ptr rfl
      exact (Heap.get_set_ne _ _ hfx).trans ((Heap.get_set_ne _ _ hfy).trans (htop₄ f e rfl))
  · obtain ⟨par, hnil⟩ := h.nil
    exact ⟨par, (hout NIL h.not_mem_NIL).trans hnil⟩
  · rw [mem_ptrs_of_seq_eq hseq]
    exact h.nonNull
  · exact hbare₄.trans hbare₂

end OpxCommonUtils.RbTree
