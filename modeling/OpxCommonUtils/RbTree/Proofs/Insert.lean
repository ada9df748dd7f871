import OpxCommonUtils.Misc.Order
import OpxCommonUtils.RbTree.Proofs.Relink

/-!
# Insertion keeps a red-black tree

The loop of `std_rbtree_balanceoninsert` has a red node `x` in the hole of a context that would
take a black one (`RedHole`); each turn moves the hole up, and the loop ends when the parent of
`x` is black or `x` is the root.
-/

namespace OpxCommonUtils.RbTree

open Tree LinkTree RedBlack RbtreeTable

/-- The tree in the hole is sound but for its red root, which may be below a red node. -/
structure RedHole (c : List (Frame RbVal)) (t : Tree RbVal) (n : Nat) : Prop where
  red : rootColor t = .red
  balanced : Balanced t n
  ctx : CtxBalanced .black n c

theorem recolorRotate_spec {rbtt : RbtreeTable} {c : List (Frame RbVal)} {s sx : Side}
    {g f x : Ptr} {vg vf vx : RbVal} {a b U W : Tree RbVal}
    (h : Shape rbtt (plug c (join s g vg (join s f vf (join sx x vx a b) U) W))) :
    Delivers (rbtt.recolorRotate s x) fun rbtt' =>
      Rewired rbtt (plug c (join s g vg (join s f vf (join sx x vx a b) U) W)) rbtt'
        (plug (⟨s, f, { vf with color := .black }, join s.flip g { vg with color := .red } W U⟩ :: c)
          (join sx x vx a b)) := by
  rw [recolorRotate, h.parent_eq (c := ⟨s, f, vf, U⟩ :: ⟨s, g, vg, W⟩ :: c), exec_bind_ok]
  refine Delivers.bind (h.setColor_spec (c := ⟨s, g, vg, W⟩ :: c) .black) fun rbtt₁ h₁ => ?_
  rw [Ctx.top_cons, h₁.shape.parent_eq, exec_bind_ok]
  refine Delivers.bind (h₁.shape.setColor_spec (c := c) .red) fun rbtt₂ h₂ => ?_
  have hrot : join s g { vg with color := .red }
      (join s f { vf with color := .black } (join sx x vx a b) U) W =
        join s.flip g { vg with color := .red } W
          (join s.flip f { vf with color := .black } U (join sx x vx a b)) := by
    rw [join_flip, join_flip]
  rw [hrot] at h₂
  refine h₂.shape.rotate_spec.mono fun rbtt₃ h₃ => ?_
  rw [join_flip s f _ (join s.flip g _ W U)] at h₃
  exact (h₁.trans h₂).trans h₃

/-- With a black uncle the hole moves below a black node. -/
theorem blackUncle_spec {rbtt : RbtreeTable} {c : List (Frame RbVal)} {s : Side}
    {f : Frame RbVal} {g : Ptr} {vg : RbVal} {W X : Tree RbVal} {n : Nat}
    (h : Shape rbtt (plug (f :: ⟨s, g, vg, W⟩ :: c) X))
    (hX : RedHole (f :: ⟨s, g, vg, W⟩ :: c) X n) (hf : f.val.color = .red)
    (hW : rootColor W = .black) :
    Delivers (rbtt.blackUncle s (X.root NIL)) fun r => ∃ f' X',
      Rewired rbtt (plug (f :: ⟨s, g, vg, W⟩ :: c) X) r.2 (plug (f' :: c) X') ∧
        X'.root NIL = r.1 ∧ RedHole (f' :: c) X' n := by
  obtain ⟨fs, p, vp, U⟩ := f
  obtain ⟨hUbal, hUred, hWbal, -, hc⟩ := hX.ctx
  obtain ⟨-, hU, -⟩ := hUred hf
  have hvg : vg.color = .black := by
    have hctx := hX.ctx.2.2
    rw [color_rbVal, hf] at hctx
    exact hctx.black_of_red
  have hn : n + weight vp = n := by rw [weight_red hf, Nat.add_zero]
  rw [hn] at hWbal hc
  simp only [color_rbVal, hvg, weight_black (v := vg) hvg] at hc
  obtain ⟨x, vx, a, b, rfl, hvx⟩ := exists_root_of_red hX.red s
  obtain ⟨ha, hb, hac, hbc⟩ := hX.balanced.of_red hvx
  -- what is below the new frame, whichever of the two grandchildren is the outer one
  have hhole : ∀ (q y : Ptr) (vq vy : RbVal) (o i₁ i₂ : Tree RbVal), vy.color = .red →
      Balanced o n → Balanced i₁ n → Balanced i₂ n → rootColor o = .black →
      rootColor i₁ = .black → rootColor i₂ = .black →
      RedHole (⟨s, q, { vq with color := .black },
        join s.flip g { vg with color := .red } W i₂⟩ :: c) (join s y vy o i₁) n := by
    intro q y vq vy o i₁ i₂ hvy ho hi₁ hi₂ hoc hic₁ hic₂
    refine ⟨by rw [rootColor_join]; exact hvy, Balanced.red hvy ho hi₁ hoc hic₁,
      Balanced.red rfl hWbal hi₂ hW hic₂, by simp, ?_⟩
    rw [weight_black (by rfl)]
    exact hc
  rw [blackUncle, root_join, h.parent_eq, exec_bind_ok, Ctx.top_cons]
  obtain ⟨q, hq, htest⟩ := h.child_test (f := ⟨fs, p, vp, U⟩) (.inl (by simp)) s.flip
  rw [root_join] at htest
  rw [hq, exec_bind_ok]
  by_cases hside : fs = s.flip
  · -- an inner grandchild: the rotation makes `p` the outer one
    subst hside
    rw [if_pos (htest.mpr rfl)]
    rw [← plug_swap, plug_cons] at h ⊢
    refine Delivers.bind h.rotate_spec fun rbtt₁ h₁ => ?_
    refine Delivers.bind (recolorRotate_spec h₁.shape) fun rbtt₂ h₂ => ?_
    refine delivers_ok.mpr ⟨_, _, h₁.trans h₂, root_join .., ?_⟩
    exact hhole x p vx vp U a b hf hUbal ha hb hU hac hbc
  · obtain rfl : fs = s := by
      cases fs <;> cases s <;> first | rfl | exact absurd rfl hside
    rw [if_neg (fun heq => hside (htest.mp heq))]
    refine Delivers.bind (recolorRotate_spec h) fun rbtt₁ h₁ => ?_
    refine delivers_ok.mpr ⟨_, _, h₁, root_join .., ?_⟩
    exact hhole p x vp vx a b U hvx ha hb hUbal hac hbc hU

/-- One turn of the loop moves the hole up. -/
theorem balanceoninsertStep_spec {rbtt : RbtreeTable} {f g : Frame RbVal} {c : List (Frame RbVal)}
    {X : Tree RbVal} {n : Nat} (h : Shape rbtt (plug (f :: g :: c) X))
    (hX : RedHole (f :: g :: c) X n) (hf : f.val.color = .red) :
    Delivers (rbtt.balanceoninsertStep g.side (X.root NIL)) fun r => ∃ c' X' n',
      Rewired rbtt (plug (f :: g :: c) X) r.2 (plug c' X') ∧ X'.root NIL = r.1 ∧
        RedHole c' X' n' ∧ c'.length < (f :: g :: c).length := by
  obtain ⟨s, gp, vg, W⟩ := g
  obtain ⟨x, vx, a, b, hXeq, hvx⟩ := exists_root_of_red hX.red .left
  subst hXeq
  have hy : rbtt.color (W.root NIL) = .ok (rootColor W) := by
    rw [plug_cons, plug_swap] at h
    exact h.color_eq
  rw [balanceoninsertStep, root_join, h.parent_eq, exec_bind_ok, Ctx.top_cons,
    h.parent_eq (c := ⟨s, gp, vg, W⟩ :: c), exec_bind_ok, Ctx.top_cons,
    h.child_far (c := c), exec_bind_ok, hy, exec_bind_ok]
  by_cases hW : rootColor W = .red
  · obtain ⟨w, vw, wa, wb, rfl, hvw⟩ := exists_root_of_red hW s
    have hwn : w ≠ NIL := h.ne_NIL (by simp [mem_ptrs_plug])
    obtain ⟨hUbal, hUred, hWbal, -, hc⟩ := hX.ctx
    obtain ⟨-, hU, -⟩ := hUred hf
    have hvg : vg.color = .black := by
      have hctx := hX.ctx.2.2
      rw [color_rbVal, hf] at hctx
      exact hctx.black_of_red
    rw [weight_red hf, Nat.add_zero] at hWbal hc
    obtain ⟨hwa, hwb, -, -⟩ := hWbal.of_red hvw
    rw [root_join, if_pos ⟨hwn, hW⟩]
    refine Delivers.bind (h.setColor_spec (c := ⟨s, gp, vg, _⟩ :: c) .black) fun rbtt₁ h₁ => ?_
    have hs₁ := h₁.shape
    rw [plug_swap] at hs₁
    refine Delivers.bind (hs₁.setColor_spec .black) fun rbtt₂ h₂ => ?_
    rw [← plug_swap, ← plug_swap] at h₂
    refine Delivers.bind (h₂.shape.setColor_spec (c := c) .red) fun rbtt₃ h₃ => ?_
    refine delivers_ok.mpr ⟨c, _, n + 1, (h₁.trans h₂).trans h₃, root_join .., ⟨?_, ?_, ?_⟩, ?_⟩
    · rw [rootColor_join]
      rfl
    · exact Balanced.red rfl (Balanced.black rfl hX.balanced hUbal) (Balanced.black rfl hwa hwb)
        (by rw [rootColor_join]; rfl) (by rw [rootColor_join]; rfl)
    · rw [weight_black (v := vg) hvg] at hc
      exact hc.toBlack
    · simp
  · rw [if_neg (fun hcond => hW hcond.2)]
    have hWb : rootColor W = .black := by
      cases hk : rootColor W
      · rfl
      · exact absurd hk hW
    have hbu := blackUncle_spec h hX hf hWb
    rw [root_join] at hbu
    refine hbu.mono fun r hr => ?_
    obtain ⟨f', X', hrew, hroot, hhole⟩ := hr
    exact ⟨_, _, _, hrew, hroot, hhole, by simp⟩

/-- The loop ends with the two conditions on paths restored. -/
theorem balanceoninsertLoop_spec (fuel : Nat) :
    ∀ (rbtt : RbtreeTable) (c : List (Frame RbVal)) (X : Tree RbVal) (n : Nat),
      Shape rbtt (plug c X) → RedHole c X n → c.length < fuel →
      Delivers (balanceoninsertLoop fuel rbtt (X.root NIL)) fun rbtt' => ∃ t m,
        Rewired rbtt (plug c X) rbtt' t ∧ Balanced t m := by
  induction fuel with
  | zero => intro _ c _ _ _ _ hlt; omega
  | succ fuel ih =>
    intro rbtt c X n h hX hlt
    rw [balanceoninsertLoop]
    have hroot := h.holds.root_eq_iff
    rw [nul_rbtreeNode] at hroot
    cases c with
    | nil =>
      rw [if_pos (hroot.mpr rfl)]
      exact delivers_ok.mpr ⟨X, n, Rewired.refl h, hX.balanced⟩
    | cons f c =>
      obtain ⟨x, vx, a, b, rfl, hvx⟩ := exists_root_of_red hX.red .left
      have hpar := h.parent_eq
      rw [root_join] at hroot ⊢
      rw [if_neg (fun heq => by simpa using hroot.mp heq), hpar, exec_bind_ok, Ctx.top_cons]
      have hcol := h.color_eq (c := c)
      rw [root_join, rootColor_join, color_rbVal] at hcol
      rw [hcol, exec_bind_ok]
      by_cases hf : f.val.color = .red
      · rw [if_neg (fun hne => hne hf)]
        -- a red parent is not the root
        obtain ⟨g, c, rfl⟩ : ∃ g d, c = g :: d := by
          obtain ⟨-, -, hne⟩ := hX.ctx.2.1 hf
          exact List.exists_cons_of_ne_nil hne
        rw [h.parent_eq (c := g :: c), exec_bind_ok, Ctx.top_cons]
        obtain ⟨l, hl, htest⟩ := Shape.child_test (f := g) (c := c) h (.inl (by simp)) .left
        rw [root_join] at htest
        have hside : (if f.ptr = l then Side.left else Side.right) = g.side := by
          cases hg : g.side with
          | left => rw [if_pos (htest.mpr hg)]
          | right => rw [if_neg (fun heq => by simp [hg] at htest; exact htest heq)]
        have hstep := balanceoninsertStep_spec h hX hf
        rw [root_join] at hstep
        rw [hl, exec_bind_ok, hside]
        refine Delivers.bind hstep fun ⟨x', rbtt₁⟩ hr => ?_
        obtain ⟨c', X', n', hrew, hxr, hhole, hlen⟩ := hr
        obtain rfl : X'.root NIL = x' := hxr
        refine (ih rbtt₁ c' X' n' hrew.shape hhole (by omega)).mono fun rbtt' ht => ?_
        obtain ⟨t, m, hrew', hbal⟩ := ht
        exact ⟨t, m, hrew.trans hrew', hbal⟩
      · rw [if_pos hf]
        have hfb : f.val.color = .black := by
          cases hk : f.val.color
          · rfl
          · exact absurd hk hf
        obtain ⟨m, hm⟩ := (hX.ctx.of_black hfb _).plug hX.balanced
        exact delivers_ok.mpr ⟨_, m, Rewired.refl h, hm⟩

/-- A new node at the end of a path is taken into a red-black tree. -/
theorem balanceoninsert_spec {rbtt : RbtreeTable} {c : List (Frame RbVal)} {z : Ptr} {v : RbVal}
    (h : Shape rbtt (plug c (.node z v .nil .nil))) (hc : CtxBalanced .black 0 c) :
    Delivers (rbtt.stdRbtreeBalanceoninsert z) fun rbtt' => ∃ t m,
      Rewired rbtt (plug c (.node z v .nil .nil)) rbtt' t ∧ Balanced t m ∧
        rootColor t = .black := by
  rw [stdRbtreeBalanceoninsert]
  refine Delivers.bind (h.setColor_spec (s := .left) .red) fun rbtt₁ h₁ => ?_
  have hhole : RedHole c (join .left z { v with color := .red } .nil .nil) 0 :=
    ⟨rfl, Balanced.red rfl rfl rfl rfl rfl, hc⟩
  have hloop := balanceoninsertLoop_spec rbtt₁.fuel _ _ _ _ h₁.shape hhole
    (by have hlt := h₁.shape.length_lt_fuel; omega)
  refine Delivers.bind hloop fun rbtt₂ ht => ?_
  obtain ⟨t, m, h₂, hbal⟩ := ht
  cases t with
  | nil =>
    have hlen := congrArg List.length (h₁.trans h₂).seq_eq
    simp [seq_plug, join] at hlen
  | node q w l r =>
    obtain ⟨m', hm'⟩ := Balanced.setBlack ({ w with color := .black }) (s := .left) hbal rfl
    rw [h₂.shape.holds.root_eq, root_node]
    refine (h₂.shape.setColor_spec (c := []) (s := .left) .black).mono fun rbtt₃ h₃ => ?_
    exact ⟨_, m', (h₁.trans h₂).trans h₃, hm', rfl⟩

/-! ## `std_rbtree_insert` -/

/-- The descent ends at the place after the last element that is not greater. -/
theorem insertDescend_spec {rbtt : RbtreeTable} (hcmp : TotalPreorder rbtt.rbttCompare)
    (data : Ptr) (t : Tree RbVal) :
    ∀ (fuel : Nat) (c : List (Frame RbVal)), Shape rbtt (plug c t) →
      Sorted rbtt.rbttCompare (seq t) → t.size < fuel →
      Delivers (rbtt.insertDescend data fuel (Ctx.top NIL c) (t.root NIL)) fun y => ∃ d,
        t = plug d .nil ∧ y = Ctx.top NIL (d ++ c) ∧
          (∀ x ∈ seqBefore d, rbtt.rbttCompare x.2 data ≤ 0) ∧
          ∀ x ∈ seqAfter d, rbtt.rbttCompare data x.2 < 0 := by
  induction t with
  | nil =>
    intro fuel c _ _ hlt
    obtain ⟨fuel, rfl⟩ := Nat.exists_eq_succ_of_ne_zero (by omega : fuel ≠ 0)
    rw [insertDescend, root_nil, if_pos rfl]
    exact delivers_ok.mpr ⟨[], rfl, rfl, by simp [seqBefore, Ctx.inoBefore],
      by simp [seqAfter, Ctx.inoAfter]⟩
  | node p v l r ihl ihr =>
    intro fuel c h hsorted hlt
    obtain ⟨fuel, rfl⟩ := Nat.exists_eq_succ_of_ne_zero (by omega : fuel ≠ 0)
    rw [seq_node, Sorted, List.pairwise_append, List.pairwise_cons] at hsorted
    obtain ⟨hsl, ⟨hvr, hsr⟩, hlv⟩ := hsorted
    simp only [size] at hlt
    rw [insertDescend, root_node, if_neg h.ptr_ne_NIL, h.data_node, exec_bind_ok]
    by_cases hless : rbtt.rbttCompare data v.data < 0
    · rw [if_pos hless, h.child_left, exec_bind_ok]
      refine (ihl fuel (⟨.left, p, v, r⟩ :: c) h hsl (by omega)).mono fun y hy => ?_
      obtain ⟨d, hd, hy, hbefore, hafter⟩ := hy
      refine ⟨d ++ [⟨.left, p, v, r⟩], ?_, by simpa using hy, ?_, ?_⟩
      · rw [plug_append, ← hd]
        rfl
      · intro x hx
        rw [seqBefore_append] at hx
        exact hbefore x (by simpa [seqBefore, Ctx.inoBefore] using hx)
      · intro x hx
        rw [seqAfter_append, List.mem_append] at hx
        rcases hx with hx | hx
        · exact hafter x hx
        · have hx' : x = (p, v.data) ∨ x ∈ seq r := by
            simpa [seqAfter, Ctx.inoAfter, seq] using hx
          rcases hx' with rfl | hx'
          · exact hless
          · exact hcmp.lt_of_lt_of_le hless (hvr x hx')
    · have hge := hcmp.not_lt.mp hless
      rw [if_neg hless, h.child_right, exec_bind_ok]
      refine (ihr fuel (⟨.right, p, v, l⟩ :: c) h hsr (by omega)).mono fun y hy => ?_
      obtain ⟨d, hd, hy, hbefore, hafter⟩ := hy
      refine ⟨d ++ [⟨.right, p, v, l⟩], ?_, by simpa using hy, ?_, ?_⟩
      · rw [plug_append, ← hd]
        rfl
      · intro x hx
        rw [seqBefore_append, List.mem_append] at hx
        rcases hx with hx | hx
        · have hx' : x ∈ seq l ∨ x = (p, v.data) := by
            simpa [seqBefore, Ctx.inoBefore, seq] using hx
          rcases hx' with hx' | rfl
          · exact hcmp.trans _ _ _ (hlv x hx' (p, v.data) (by simp)) hge
          · exact hge
        · exact hbefore x hx
      · intro x hx
        rw [seqAfter_append] at hx
        exact hafter x (by simpa [seqAfter, Ctx.inoAfter] using hx)

/-- A detached node becomes a leaf at the end of a path. -/
theorem linkLeaf_spec {rbtt : RbtreeTable} {c : List (Frame RbVal)} {z : Ptr} {n : RbtreeNode}
    (h : Shape rbtt (plug c .nil)) (hout : z ∉ (plug c .nil : Tree RbVal).ptrs)
    (hget : rbtt.nodes.get z = some n) (hnil : z ≠ NIL) (hnull : z ≠ NULL)
    (hside : ∀ f d, c = f :: d →
      (rbtt.rbttCompare n.rbtData f.val.data < 0 ↔ f.side = .left)) :
    Delivers (rbtt.linkLeaf z (Ctx.top NIL c)) fun rbtt' =>
      Shape rbtt' (plug c (.node z ⟨n.rbtColor, n.rbtData⟩ .nil .nil)) ∧
        rbtt'.bare = rbtt.bare := by
  have hzc : z ∉ Ctx.ptrs c := fun hmem => hout ((mem_ptrs_plug ..).mpr (.inr hmem))
  -- the cells after `z` is made a leaf and the link above it is set
  have hshape : ∀ (rbtt' : RbtreeTable),
      rbtt'.nodes.get z =
        some (NodeLayout.cell NIL NIL (Ctx.top NIL c) ⟨n.rbtColor, n.rbtData⟩) →
      (∀ f e, c = f :: e → rbtt'.nodes.get f.ptr =
        some (mkSide f.side z (f.sib.root NIL) (Ctx.top NIL e) f.val)) →
      (∀ q, q ≠ z → q ∉ Ctx.ptrs c ∨ q ≠ Ctx.top NIL c →
        rbtt'.nodes.get q = rbtt.nodes.get q) →
      rbtt'.rbttRoot = (if c = [] then z else rbtt.rbttRoot) →
      Shape rbtt' (plug c (.node z ⟨n.rbtColor, n.rbtData⟩ .nil .nil)) := by
    intro rbtt' hz htop hsame hroot
    have hrel := h.holds.relink _ (.node z ⟨n.rbtColor, n.rbtData⟩ .nil .nil)
      ⟨hnil, hz, trivial, trivial⟩ (by simp [ptrs]) (by simpa [ptrs])
      htop ?_
    · refine ⟨?_, ?_, ?_⟩
      · rw [hroot]
        exact hrel
      · obtain ⟨par, hs⟩ := h.nil
        have hc : NIL ∉ Ctx.ptrs c := fun hmem =>
          h.not_mem_NIL ((mem_ptrs_plug ..).mpr (.inr hmem))
        exact ⟨par, (hsame NIL hnil.symm (.inl hc)).trans hs⟩
      · have hnn := h.nonNull
        simp only [mem_ptrs_plug, ptrs, List.mem_cons, not_or] at hnn ⊢
        exact ⟨⟨hnull.symm, by simp⟩, hnn.2⟩
    · intro q hq hne
      exact hsame q (fun heq => hzc (heq ▸ hq)) (.inr hne)
  rw [linkLeaf]
  refine Delivers.bind (setLeaf_spec (Ctx.top NIL c) hget) ?_
  intro rbtt₁ hleaf
  obtain ⟨hz, hsame, hroot, hbare⟩ := hleaf
  cases c with
  | nil =>
    rw [Ctx.top_nil, if_pos rfl]
    exact delivers_ok.mpr ⟨hshape _ hz (by simp) (fun q hq _ => hsame q hq) rfl, hbare⟩
  | cons f d =>
    have hf := Holds.get_join (c := d) (s := f.side) (p := f.ptr) (v := f.val) h.holds
    have hfz : f.ptr ≠ z := fun heq => hzc (by simp [heq])
    have hfn : f.ptr ≠ NIL := h.ne_NIL (by simp [mem_ptrs_plug])
    have hf₁ := (hsame f.ptr hfz).trans hf
    rw [Ctx.top_cons, if_neg hfn, data_ok hz, exec_bind_ok, data_ok hf₁, exec_bind_ok,
      compare_of_bare hbare, rbtData_mkSide, rbtData_cell]
    have hset : Delivers (rbtt₁.setChild f.side f.ptr z) fun rbtt' =>
        Shape rbtt' (plug (f :: d) (.node z ⟨n.rbtColor, n.rbtData⟩ .nil .nil)) ∧
          rbtt'.bare = rbtt.bare := by
      rw [RbtreeTable.setChild, assign_ok hf₁, setChild_mkSide]
      refine delivers_ok.mpr ⟨hshape _ ?_ ?_ ?_ hroot, hbare⟩
      · exact (Heap.get_set_ne _ _ hfz.symm).trans hz
      · rintro g e heq
        obtain ⟨rfl, rfl⟩ := List.cons.inj heq
        exact Heap.get_set_self ..
      · intro q hq hqf
        refine (Heap.get_set_ne _ _ ?_).trans (hsame q hq)
        rintro rfl
        simp at hqf
    have hcmp := hside f d rfl
    cases hfs : f.side with
    | left =>
      rw [if_pos (hcmp.mpr hfs)]
      rwa [hfs] at hset
    | right =>
      rw [hfs] at hcmp
      rw [if_neg (fun hlt => absurd (hcmp.mp hlt) (by decide))]
      rwa [hfs] at hset

/-- A detached node is put into its place and the tree is balanced again. -/
theorem insertNode_spec {rbtt : RbtreeTable} {t : Tree RbVal} {z : Ptr} {n : RbtreeNode}
    (hs : Sound rbtt t) (hcmp : TotalPreorder rbtt.rbttCompare) (hout : z ∉ t.ptrs)
    (hget : rbtt.nodes.get z = some n) (hnil : z ≠ NIL) (hnull : z ≠ NULL)
    (hd : n.rbtData ≠ NULL) :
    Delivers (rbtt.insertNode z) fun rbtt' => ∃ t' xs ys,
      Sound rbtt' t' ∧ seq t = xs ++ ys ∧ seq t' = xs ++ (z, n.rbtData) :: ys ∧
        (∀ x ∈ xs, rbtt.rbttCompare x.2 n.rbtData ≤ 0) ∧
        (∀ y ∈ ys, rbtt.rbttCompare n.rbtData y.2 < 0) ∧
        rbtt'.rbttCompare = rbtt.rbttCompare := by
  have hroot : rbtt.rbttRoot = t.root NIL := hs.shape.holds.root_eq
  rw [insertNode, debugBlock_ok hs.magic hnull, exec_bind_ok, data_ok hget, exec_bind_ok, hroot]
  refine Delivers.bind (insertDescend_spec hcmp n.rbtData t rbtt.fuel [] hs.shape hs.sorted
    hs.shape.size_lt_fuel) ?_
  intro y hdescend
  obtain ⟨c, hc, hy, hbefore, hafter⟩ := hdescend
  rw [List.append_nil] at hy
  subst hc hy
  refine Delivers.bind (linkLeaf_spec hs.shape hout hget hnil hnull ?_) ?_
  · rintro f d rfl
    cases hf : f.side with
    | left =>
      have hmem : (f.ptr, f.val.data) ∈ seqAfter (f :: d) := by simp [seqAfter, Ctx.inoAfter, hf]
      simpa using hafter _ hmem
    | right =>
      have hmem : (f.ptr, f.val.data) ∈ seqBefore (f :: d) := by
        simp [seqBefore, Ctx.inoBefore, hf]
      have hle := hbefore _ hmem
      simpa using hcmp.not_lt.mpr hle
  intro rbtt₁ hlink
  obtain ⟨h₁, hbare₁⟩ := hlink
  obtain ⟨m, hm⟩ := hs.balanced
  obtain ⟨k, hk, hctx⟩ := hm.split hs.black
  obtain rfl : k = 0 := hk
  refine Delivers.bind (balanceoninsert_spec h₁ hctx) ?_
  intro rbtt₂ hbalance
  obtain ⟨t', m', h₂, hbal, hblack⟩ := hbalance
  have hseq : seq t' = seqBefore c ++ (z, n.rbtData) :: seqAfter c := by
    rw [h₂.seq_eq, seq_plug]
    simp
  have hseq₀ : seq (plug c .nil) = seqBefore c ++ seqAfter c := by
    rw [seq_plug]
    simp
  have hbare := h₂.bare.trans hbare₁
  have hcompare := compare_of_bare hbare
  refine delivers_ok.mpr ⟨t', _, _, ⟨?_, ⟨h₂.shape.holds, h₂.shape.nil, h₂.shape.nonNull⟩, hblack,
    ⟨m', hbal⟩, ?_, ?_, ?_⟩, hseq₀, hseq, hbefore, hafter, hcompare⟩
  · exact (magic_of_bare hbare).trans hs.magic
  · have hsorted := hs.sorted
    rw [hseq₀, Sorted, List.pairwise_append] at hsorted
    change Sorted rbtt₂.rbttCompare (seq t')
    rw [hcompare, hseq, Sorted, List.pairwise_append, List.pairwise_cons]
    refine ⟨hsorted.1, ⟨fun y hy => (hafter y hy).le, hsorted.2.1⟩, fun x hx y hy => ?_⟩
    rcases List.mem_cons.mp hy with rfl | hy
    · exact hbefore x hx
    · exact hsorted.2.2 x hx y hy
  · change rbtt₂.rbttNuminodes + 1 = t'.size
    rw [numinodes_of_bare hbare, hs.counted, ← length_seq, ← length_seq, hseq, hseq₀]
    simp
    omega
  · intro x hx
    rw [hseq, List.mem_append, List.mem_cons] at hx
    rcases hx with hx | rfl | hx
    · exact hs.stored x (by simp [hseq₀, hx])
    · exact hd
    · exact hs.stored x (by simp [hseq₀, hx])

/-- The new user node goes behind all that are not greater; without memory nothing changes. -/
theorem stdRbtreeInsert_spec {rbtt : RbtreeTable} {t : Tree RbVal} (hs : Sound rbtt t)
    (hcmp : TotalPreorder rbtt.rbttCompare) (A : Malloc RbtreeNode) {data : Ptr}
    (hd : data ≠ NULL) :
    Delivers (rbtt.stdRbtreeInsert A data) fun r =>
      (A.next rbtt.nodes = none ∧ r = (false, rbtt)) ∨
      ∃ z t' xs ys, A.next rbtt.nodes = some z ∧ r.1 = true ∧ Sound r.2 t' ∧
        seq t = xs ++ ys ∧ seq t' = xs ++ (z, data) :: ys ∧
        (∀ x ∈ xs, rbtt.rbttCompare x.2 data ≤ 0) ∧
        (∀ y ∈ ys, rbtt.rbttCompare data y.2 < 0) ∧ r.2.rbttCompare = rbtt.rbttCompare := by
  rw [stdRbtreeInsert, debugBlock_ok hs.magic hd, exec_bind_ok]
  cases hnext : A.next rbtt.nodes with
  | none => exact delivers_ok.mpr (.inl ⟨rfl, rfl⟩)
  | some z =>
    obtain ⟨hfree, hnull⟩ := A.fresh _ _ hnext
    have hout : z ∉ t.ptrs := hs.shape.holds.not_mem hfree
    obtain ⟨par, hnil⟩ := hs.shape.nil
    have hzn : z ≠ NIL := by
      rintro rfl
      rw [hfree] at hnil
      cases hnil
    -- the new node is not part of the tree yet
    have hs₁ : Sound { rbtt with
        nodes := rbtt.nodes.set z ⟨NULL, NULL, NULL, .black, data⟩
        rbttNummallocs := rbtt.rbttNummallocs + 1 } t := by
      refine ⟨hs.magic, ⟨hs.shape.holds.congr fun q hq => ?_, ⟨par, ?_⟩, hs.shape.nonNull⟩,
        hs.black, hs.balanced, hs.sorted, hs.counted, hs.stored⟩
      · exact Heap.get_set_ne _ _ fun heq => hout (heq ▸ hq)
      · exact (Heap.get_set_ne _ _ hzn.symm).trans hnil
    refine Delivers.bind (insertNode_spec hs₁ hcmp hout (Heap.get_set_self ..) hzn hnull hd)
      fun rbtt' ⟨t', xs, ys, hs', hseq, hseq', hxs, hys, hcompare⟩ => ?_
    exact delivers_ok.mpr
      (.inr ⟨z, t', xs, ys, rfl, rfl, hs', hseq, hseq', hxs, hys, hcompare⟩)

end OpxCommonUtils.RbTree
