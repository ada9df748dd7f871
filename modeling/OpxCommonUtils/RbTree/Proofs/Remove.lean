import OpxCommonUtils.RbTree.Proofs.Lookup

/-!
# Removal keeps a red-black tree

`std_rbtree_balanceonremove` runs while the node to be removed may still be in the tree: the
tree it works on lacks the node `y` that was taken out of its parent's chain, so that every path
through the hole has one black node too few (`Deficit`). The hole may be empty, and then the
loop finds its way through the parent of the sentinel (`NilBelow`).
-/

namespace OpxCommonUtils.RbTree

open Tree LinkTree RedBlack RbtreeTable

/-- The tree in the hole is one black node short; a red root, which may have a red child, makes
up for it when it is painted black. -/
structure Deficit (c : List (Frame RbVal)) (t : Tree RbVal) (n : Nat) : Prop where
  black : rootColor t = .black → Balanced t n
  red : ∀ p v l r, t = .node p v l r → v.color = .red → Balanced l n ∧ Balanced r n
  ctx : CtxBalanced .black (n + 1) c

/-- Two trees of one height below the node above the hole. -/
theorem Deficit.join {c : List (Frame RbVal)} {s : Side} {p : Ptr} {v : RbVal}
    {a b : Tree RbVal} {n : Nat} (ha : Balanced a n) (hb : Balanced b n)
    (hc : CtxBalanced v.color (n + 1 + weight v) c) :
    Deficit c (Tree.join s p v a b) (n + weight v) := by
  refine ⟨fun hk => ?_, fun q w l r heq hw => ?_, ?_⟩
  · rw [rootColor_join] at hk
    rw [weight_black hk]
    exact Balanced.black hk ha hb
  · cases s with
    | left =>
      obtain ⟨rfl, rfl, rfl, rfl⟩ := Tree.node.inj heq
      rw [weight_red hw]
      exact ⟨ha, hb⟩
    | right =>
      obtain ⟨rfl, rfl, rfl, rfl⟩ := Tree.node.inj heq
      rw [weight_red hw]
      exact ⟨hb, ha⟩
  · rw [Nat.add_right_comm]
    exact hc.toBlack

theorem Deficit.whole {t : Tree RbVal} {n : Nat} (h : Balanced t n) : Deficit [] t n := by
  refine ⟨fun _ => h, ?_, trivial⟩
  rintro p v l r rfl hv
  obtain ⟨hl, hr, -, -⟩ := Balanced.of_red (s := .left) h hv
  exact ⟨hl, hr⟩

/-- The table holds the tree with the hole; when the hole is empty the sentinel has the node
above it as its parent. -/
structure Hole (rbtt : RbtreeTable) (c : List (Frame RbVal)) (t : Tree RbVal) : Prop where
  shape : Shape rbtt (plug c t)
  nil : t = .nil → rbtt.nodes.get NIL = some ⟨NIL, NIL, Ctx.top NIL c, .black, NULL⟩

namespace Hole

variable {rbtt rbtt' : RbtreeTable} {c c' : List (Frame RbVal)} {t : Tree RbVal}

theorem of_ne (h : Shape rbtt (plug c t)) (hne : t ≠ .nil) : Hole rbtt c t :=
  ⟨h, fun hnil => absurd hnil hne⟩

/-- The parent of the hole is found through the sentinel when the hole is empty. -/
theorem parent (h : Hole rbtt c t) : rbtt.parent (t.root NIL) = .ok (Ctx.top NIL c) := by
  cases t with
  | nil => exact parent_ok (h.nil rfl)
  | node p v l r => exact h.shape.parent_node

variable (c') in
/-- A change outside the hole leaves the sentinel as it was. -/
theorem rewired (h : Hole rbtt c t) (hrew : Rewired rbtt (plug c t) rbtt' (plug c' t))
    (htop : Ctx.top NIL c' = Ctx.top NIL c) : Hole rbtt' c' t := by
  refine ⟨hrew.shape, fun hnil => ?_⟩
  rw [hrew.outside NIL h.shape.not_mem_NIL, htop]
  exact h.nil hnil

end Hole

/-- The turns that the loop still takes at most. -/
def turns (c : List (Frame RbVal)) (t : Tree RbVal) : Nat :=
  match rootColor t with
  | .black => c.length
  | .red => 0

theorem turns_le (c : List (Frame RbVal)) (t : Tree RbVal) : turns c t ≤ c.length := by
  unfold turns
  split
  · exact Nat.le_refl _
  · exact Nat.zero_le _

theorem turns_red (c : List (Frame RbVal)) {t : Tree RbVal} (h : rootColor t = .red) :
    turns c t = 0 := by
  simp [turns, h]

theorem color_cases {k : Color} (h : k ≠ .red) : k = .black := by
  cases k
  · rfl
  · exact absurd rfl h

section Sibling

variable {rbtt : RbtreeTable} {c : List (Frame RbVal)} {s : Side} {p w : Ptr} {vp vw : RbVal}
  {t a b : Tree RbVal} {n : Nat}

/-- A red sibling is rotated up. -/
theorem redSibling_spec (h : Hole rbtt (⟨s, p, vp, join s w vw a b⟩ :: c) t)
    (hw : vw.color = .red) :
    Delivers (rbtt.redSibling s (t.root NIL) w) fun r => r.1 = a.root NIL ∧
      Rewired rbtt (plug (⟨s, p, vp, join s w vw a b⟩ :: c) t) r.2
        (plug (⟨s, p, { vp with color := .red }, a⟩ ::
          ⟨s, w, { vw with color := .black }, b⟩ :: c) t) := by
  have hsw := h.shape
  rw [plug_swap] at hsw
  have hcol := hsw.color_eq
  rw [root_join, rootColor_join, color_rbVal, hw] at hcol
  rw [redSibling, hcol, exec_bind_ok, if_pos rfl]
  refine Delivers.bind (hsw.setColor_spec .black) fun rbtt₁ h₁ => ?_
  rw [← plug_swap, ← plug_swap] at h₁
  have k₁ := h.rewired _ h₁ rfl
  rw [k₁.parent, exec_bind_ok, Ctx.top_cons]
  refine Delivers.bind (h₁.shape.setColor_spec (c := c) .red) fun rbtt₂ h₂ => ?_
  have k₂ := k₁.rewired (⟨s, p, { vp with color := .red }, join s w { vw with color := .black } a b⟩
    :: c) h₂ rfl
  rw [k₂.parent, exec_bind_ok, Ctx.top_cons]
  refine Delivers.bind (h₂.shape.rotate_spec (c := c)) fun rbtt₃ h₃ => ?_
  have k₃ := k₂.rewired (⟨s, p, { vp with color := .red }, a⟩ ::
    ⟨s, w, { vw with color := .black }, b⟩ :: c) h₃ rfl
  rw [k₃.parent, exec_bind_ok, Ctx.top_cons,
    h₃.shape.child_far (c := ⟨s, w, { vw with color := .black }, b⟩ :: c), exec_bind_ok]
  exact delivers_ok.mpr ⟨rfl, (h₁.trans h₂).trans h₃⟩

/-- One nephew is red: afterwards the outer one is. -/
theorem innerNephew_spec (h : Hole rbtt (⟨s, p, vp, join s w vw a b⟩ :: c) t)
    (ha : Balanced a n) (hb : Balanced b n) (hred : rootColor b = .black → rootColor a = .red) :
    Delivers (rbtt.innerNephew s (t.root NIL) w) fun r => ∃ vw' a' b',
      Rewired rbtt (plug (⟨s, p, vp, join s w vw a b⟩ :: c) t) r.2
        (plug (⟨s, p, vp, join s r.1 vw' a' b'⟩ :: c) t) ∧
      Balanced a' n ∧ Balanced b' n ∧ rootColor b' = .red := by
  have hsw := h.shape
  rw [plug_swap] at hsw
  have hfar := hsw
  rw [← plug_cons ⟨s, w, vw, b⟩, plug_swap] at hfar
  rw [innerNephew, hsw.child_far, exec_bind_ok, hfar.color_eq, exec_bind_ok]
  by_cases hbk : rootColor b = .black
  · obtain ⟨q, vq, a₁, a₂, rfl, hvq⟩ := exists_root_of_red (hred hbk) s
    obtain ⟨ha₁, ha₂, -, hac₂⟩ := ha.of_red hvq
    rw [if_pos hbk, hsw.child_near, exec_bind_ok, root_join]
    refine Delivers.bind (Shape.setColor_spec (c := ⟨s, w, vw, b⟩ :: ⟨s.flip, p, vp, t⟩ :: c) hsw
      .black) fun rbtt₁ h₁ => ?_
    refine Delivers.bind (Shape.setColor_spec (c := ⟨s.flip, p, vp, t⟩ :: c) h₁.shape .red)
      fun rbtt₂ h₂ => ?_
    have hrot : join s w { vw with color := .red } (join s q { vq with color := .black } a₁ a₂) b =
        join s.flip w { vw with color := .red } b
          (join s.flip q { vq with color := .black } a₂ a₁) := by
      rw [join_flip, join_flip]
    simp only [hrot] at h₂
    refine Delivers.bind h₂.shape.rotate_spec fun rbtt₃ h₃ => ?_
    have h₀₃ := (h₁.trans h₂).trans h₃
    rw [join_flip s q, plug_cons ⟨s, w, vw, b⟩, ← plug_swap, ← plug_swap] at h₀₃
    have k₃ := h.rewired _ h₀₃ rfl
    rw [k₃.parent, exec_bind_ok, Ctx.top_cons, h₀₃.shape.child_far (c := c), exec_bind_ok,
      root_join]
    refine delivers_ok.mpr ⟨_, _, _, h₀₃, ha₁, ?_, ?_⟩
    · exact Balanced.red rfl hb ha₂ hbk hac₂
    · rw [rootColor_join]
      rfl
  · rw [if_neg hbk]
    exact delivers_ok.mpr ⟨vw, a, b, Rewired.refl h.shape, ha, hb,
      by cases hk : rootColor b <;> [exact absurd hk hbk; rfl]⟩

/-- With a black sibling the hole moves up, or the missing black node is made up for. -/
theorem blackSibling_spec (h : Hole rbtt (⟨s, p, vp, join s w vw a b⟩ :: c) t)
    (ht : Balanced t n) (hw : vw.color = .black)
    (hW : Balanced (join s w vw a b) (n + 1)) (hc : CtxBalanced vp.color (n + 1 + weight vp) c) :
    Delivers (rbtt.blackSibling s (t.root NIL) w) fun r => ∃ c' t' n',
      Rewired rbtt (plug (⟨s, p, vp, join s w vw a b⟩ :: c) t) r.2 (plug c' t') ∧
        t' ≠ .nil ∧ t'.root NIL = r.1 ∧ Deficit c' t' n' ∧
        (c' = [] ∨ c' = c ∧ rootColor t' = vp.color) := by
  obtain ⟨ha, hb⟩ := hW.of_black hw
  have hsw := h.shape
  rw [plug_swap] at hsw
  have hfar := hsw
  rw [← plug_cons ⟨s, w, vw, b⟩, plug_swap] at hfar
  have hnear := Shape.color_eq (c := ⟨s, w, vw, b⟩ :: ⟨s.flip, p, vp, t⟩ :: c) (t := a) hsw
  rw [blackSibling, hsw.child_near, exec_bind_ok, hnear, exec_bind_ok, hsw.child_far, exec_bind_ok,
    hfar.color_eq, exec_bind_ok]
  by_cases hnephews : rootColor a = .black ∧ rootColor b = .black
  · rw [if_pos hnephews]
    refine Delivers.bind (hsw.setColor_spec .red) fun rbtt₁ h₁ => ?_
    rw [← plug_swap, ← plug_swap] at h₁
    have k₁ := h.rewired _ h₁ rfl
    rw [k₁.parent, exec_bind_ok, Ctx.top_cons]
    have hw' := Balanced.red (s := s) (p := w) (v := { vw with color := .red }) rfl ha hb
      hnephews.1 hnephews.2
    exact delivers_ok.mpr ⟨c, _, _, h₁, join_ne_nil _ _ _ _ _, root_join .., Deficit.join ht hw' hc,
      .inr ⟨rfl, rootColor_join ..⟩⟩
  · rw [if_neg hnephews]
    have hred : rootColor b = .black → rootColor a = .red := by
      intro hbk
      cases hak : rootColor a
      · exact absurd ⟨hak, hbk⟩ hnephews
      · rfl
    refine Delivers.bind (innerNephew_spec h ha hb hred) fun ⟨w', rbtt₁⟩ hr => ?_
    obtain ⟨vw', a', b', h₁, ha', hb', hbk'⟩ := hr
    obtain ⟨o, vo, b₁, b₂, rfl, hvo⟩ := exists_root_of_red hbk' s
    obtain ⟨hb₁, hb₂, -, -⟩ := hb'.of_red hvo
    have k₁ := h.rewired _ h₁ rfl
    have hpcol := Shape.color_eq (c := c)
      (t := join s p vp t (join s w' vw' a' (join s o vo b₁ b₂))) h₁.shape
    rw [root_join, rootColor_join, color_rbVal] at hpcol
    simp only
    rw [k₁.parent, exec_bind_ok, Ctx.top_cons, hpcol, exec_bind_ok]
    have hs₁ := h₁.shape
    rw [plug_swap] at hs₁
    refine Delivers.bind (hs₁.setColor_spec vp.color) fun rbtt₂ h₂ => ?_
    rw [← plug_swap, ← plug_swap] at h₂
    have k₂ := k₁.rewired _ h₂ rfl
    rw [k₂.parent, exec_bind_ok, Ctx.top_cons]
    refine Delivers.bind (Shape.setColor_spec (c := c) h₂.shape .black) fun rbtt₃ h₃ => ?_
    have k₃ := k₂.rewired (⟨s, p, { vp with color := .black },
      join s w' { vw' with color := vp.color } a' (join s o vo b₁ b₂)⟩ :: c) h₃ rfl
    have hs₃ := k₃.shape
    rw [plug_swap] at hs₃
    rw [hs₃.child_far, exec_bind_ok, root_join]
    rw [← plug_cons ⟨s, w', { vw' with color := vp.color }, join s o vo b₁ b₂⟩, plug_swap] at hs₃
    refine Delivers.bind (hs₃.setColor_spec .black) fun rbtt₄ h₄ => ?_
    rw [← plug_swap, ← plug_swap, plug_cons ⟨s, w', _, _⟩, plug_cons ⟨s, w', _, _⟩, ← plug_swap,
      ← plug_swap] at h₄
    have k₄ := k₃.rewired _ h₄ rfl
    rw [k₄.parent, exec_bind_ok, Ctx.top_cons]
    refine Delivers.bind (h₄.shape.rotate_spec (c := c)) fun rbtt₅ h₅ => ?_
    -- the rotated tree has the height and the colour that the context was made for
    have hbal : Balanced (join s w' { vw' with color := vp.color }
        (join s p { vp with color := .black } t a') (join s o { vo with color := .black } b₁ b₂))
        (n + 1 + weight vp) :=
      balanced_join.mpr ⟨fun _ => ⟨rootColor_join .., rootColor_join ..⟩, n + 1, rfl,
        Balanced.black rfl ht ha', Balanced.black rfl hb₁ hb₂⟩
    obtain ⟨m, hm⟩ := CtxBalanced.plug (by rw [rootColor_join]; exact hc) hbal
    exact delivers_ok.mpr ⟨[], _, m, (((h₁.trans h₂).trans h₃).trans h₄).trans h₅,
      plug_ne_nil _ (join_ne_nil _ _ _ _ _), h₅.shape.holds.root_eq.symm, Deficit.whole hm,
      .inl rfl⟩

end Sibling

/-- One turn of the loop; it is never left for want of a sibling. -/
theorem balanceonremoveStep_spec {rbtt : RbtreeTable} {f : Frame RbVal} {c : List (Frame RbVal)}
    {t : Tree RbVal} {n : Nat} (h : Hole rbtt (f :: c) t) (hd : Deficit (f :: c) t n)
    (htk : rootColor t = .black) :
    Delivers (rbtt.balanceonremoveStep f.side (t.root NIL)) fun r => r.1 = false ∧
      ∃ c' t' n', Rewired rbtt (plug (f :: c) t) r.2.2 (plug c' t') ∧ t' ≠ .nil ∧
        t'.root NIL = r.2.1 ∧ Deficit c' t' n' ∧ turns c' t' < (f :: c).length := by
  obtain ⟨s, p, vp, W⟩ := f
  obtain ⟨hW, hWred, hc⟩ := hd.ctx
  have ht := hd.black htk
  obtain ⟨w, vw, a, b, rfl⟩ := hW.exists_root s
  have hchild := Shape.child_far (c := c) h.shape
  rw [root_join] at hchild
  rw [balanceonremoveStep, h.parent, exec_bind_ok, Ctx.top_cons, hchild, exec_bind_ok]
  by_cases hw : vw.color = .red
  · -- a red sibling has black children and is below a black node
    have hvp : vp.color = .black := by
      refine color_cases fun hred => ?_
      obtain ⟨-, hwb, -⟩ := hWred hred
      rw [rootColor_join, color_rbVal, hw] at hwb
      cases hwb
    obtain ⟨ha, hb, hak, hbk⟩ := hW.of_red hw
    refine Delivers.bind (redSibling_spec h hw) fun ⟨w', rbtt₁⟩ ⟨hw', h₁⟩ => ?_
    obtain ⟨w₂, vw₂, a₂, b₂, rfl⟩ := ha.exists_root s
    rw [rootColor_join] at hak
    obtain rfl : w' = w₂ := by
      rw [root_join] at hw'
      exact hw'
    have hwn : w' ≠ NIL := h₁.shape.ne_NIL (by simp [mem_ptrs_plug])
    simp only
    rw [if_neg hwn]
    have k₁ := h.rewired _ h₁ rfl
    have hc₂ : CtxBalanced .red (n + 1 + weight { vp with color := .red })
        (⟨s, w, { vw with color := .black }, b⟩ :: c) := by
      rw [weight_red (v := (⟨.red, vp.data⟩ : RbVal)) rfl, Nat.add_zero]
      refine ⟨hb, by simp, ?_⟩
      rw [weight_black (v := vp) hvp] at hc
      rw [weight_black (v := (⟨.black, vw.data⟩ : RbVal)) rfl]
      exact hc.toBlack
    refine Delivers.bind (blackSibling_spec k₁ ht hak ha hc₂)
      fun ⟨x', rbtt₂⟩ ⟨c', t', n', h₂, hne, hroot, hd', hturn⟩ => ?_
    refine delivers_ok.mpr ⟨rfl, c', t', n', h₁.trans h₂, hne, hroot, hd', ?_⟩
    rcases hturn with rfl | ⟨-, hred⟩
    · exact Nat.lt_of_le_of_lt (turns_le _ _) (by simp)
    · rw [turns_red _ hred]
      simp
  · have hwk := color_cases hw
    have hcol : rbtt.color w = .ok .black := by
      have hsw := h.shape
      rw [plug_swap] at hsw
      have hcol := hsw.color_eq
      rwa [root_join, rootColor_join, color_rbVal, hwk] at hcol
    have hwn : w ≠ NIL := h.shape.ne_NIL (by simp [mem_ptrs_plug])
    rw [redSibling, hcol, exec_bind_ok, if_neg (by decide), exec_pure, exec_bind_ok]
    simp only
    rw [if_neg hwn]
    refine Delivers.bind (blackSibling_spec h ht hwk hW hc)
      fun ⟨x', rbtt₂⟩ ⟨c', t', n', h₂, hne, hroot, hd', hturn⟩ => ?_
    refine delivers_ok.mpr ⟨rfl, c', t', n', h₂, hne, hroot, hd', ?_⟩
    have hle := turns_le c' t'
    rcases hturn with rfl | ⟨rfl, -⟩
    · exact Nat.lt_of_le_of_lt hle (by simp)
    · simp only [List.length_cons]
      omega

/-- The loop ends at the root or at a red node. -/
theorem balanceonremoveLoop_spec (fuel : Nat) :
    ∀ (rbtt : RbtreeTable) (c : List (Frame RbVal)) (t : Tree RbVal) (n : Nat),
      Hole rbtt c t → Deficit c t n → turns c t < fuel →
      Delivers (balanceonremoveLoop fuel rbtt (t.root NIL)) fun r => ∃ c' t' n',
        Rewired rbtt (plug c t) r.2 (plug c' t') ∧ t'.root NIL = r.1 ∧ Deficit c' t' n' ∧
          (c' = [] ∨ rootColor t' = .red) := by
  induction fuel with
  | zero => intro _ c t _ _ _ hlt; omega
  | succ fuel ih =>
    intro rbtt c t n h hd hlt
    have hroot := h.shape.holds.root_eq_iff
    rw [nul_rbtreeNode] at hroot
    rw [balanceonremoveLoop]
    cases c with
    | nil =>
      rw [if_pos (hroot.mpr rfl)]
      exact delivers_ok.mpr ⟨[], t, n, Rewired.refl h.shape, rfl, hd, .inl rfl⟩
    | cons f c =>
      rw [if_neg (fun heq => by simpa using hroot.mp heq), h.shape.color_eq, exec_bind_ok]
      by_cases htk : rootColor t = .black
      · rw [if_neg (fun hne => hne htk), h.parent, exec_bind_ok, Ctx.top_cons]
        -- both children of the parent cannot be absent
        have hsib : f.sib ≠ .nil := by
          intro hnil
          have hbal := hd.ctx.1
          rw [hnil] at hbal
          cases hbal
        obtain ⟨l, hl, htest⟩ := h.shape.child_test (.inr hsib) .left
        have hside : (if t.root NIL = l then Side.left else Side.right) = f.side := by
          cases hf : f.side with
          | left => rw [if_pos (htest.mpr hf)]
          | right => rw [if_neg (fun heq => by simp [hf] at htest; exact htest heq)]
        rw [hl, exec_bind_ok, hside]
        refine Delivers.bind (balanceonremoveStep_spec h hd htk) fun ⟨brk, x', rbtt₁⟩ hr => ?_
        obtain ⟨hbrk, c', t', n', h₁, hne, hx, hd', hturns⟩ := hr
        obtain rfl : brk = false := hbrk
        obtain rfl : t'.root NIL = x' := hx
        have hfuel : turns (f :: c) t = (f :: c).length := by simp [turns, htk]
        refine (ih rbtt₁ c' t' n' (Hole.of_ne h₁.shape hne) hd' (by omega)).mono fun r hr => ?_
        obtain ⟨c'', t'', n'', h₂, hx', hd'', hend⟩ := hr
        exact ⟨c'', t'', n'', h₁.trans h₂, hx', hd'', hend⟩
      · rw [if_pos htk]
        refine delivers_ok.mpr ⟨_, t, n, Rewired.refl h.shape, rfl, hd, .inr ?_⟩
        cases hk : rootColor t
        · exact absurd hk htk
        · rfl

/-- The sentinel is black already. -/
theorem setColor_NIL {rbtt : RbtreeTable} {t : Tree RbVal} (h : Shape rbtt t) :
    Delivers (rbtt.setColor NIL .black) fun rbtt' => Rewired rbtt t rbtt' t := by
  obtain ⟨par, hnil⟩ := h.nil
  rw [RbtreeTable.setColor, assign_ok hnil]
  have hsame : ∀ q, ((rbtt.nodes.set NIL
      (RbtreeNode.setColor ⟨NIL, NIL, par, .black, NULL⟩ .black)).get q) = rbtt.nodes.get q := by
    intro q
    by_cases hq : q = NIL
    · rw [hq, Heap.get_set_self, hnil]
      rfl
    · exact Heap.get_set_ne _ _ hq
  exact delivers_ok.mpr ⟨⟨h.holds.congr fun q _ => hsame q, ⟨par, (hsame NIL).trans hnil⟩,
    h.nonNull⟩, rfl, fun q _ => hsame q, rfl⟩

/-- The missing black node is made up for. -/
theorem balanceonremove_spec {rbtt : RbtreeTable} {c : List (Frame RbVal)} {t : Tree RbVal}
    {n : Nat} (h : Hole rbtt c t) (hd : Deficit c t n) :
    Delivers (rbtt.stdRbtreeBalanceonremove (t.root NIL)) fun rbtt' => ∃ t' m,
      Rewired rbtt (plug c t) rbtt' t' ∧ Balanced t' m ∧ rootColor t' = .black := by
  have hfuel : turns c t < rbtt.fuel := by
    have hlt := h.shape.length_lt_fuel
    have hle := turns_le c t
    omega
  refine Delivers.bind (balanceonremoveLoop_spec _ rbtt c t n h hd hfuel) fun ⟨x, rbtt₁⟩ hr => ?_
  obtain ⟨c', t', n', h₁, hx, hd', hend⟩ := hr
  obtain rfl : t'.root NIL = x := hx
  cases t' with
  | nil =>
    -- the tree is empty and the sentinel is painted
    obtain rfl : c' = [] := hend.resolve_right (by simp)
    refine (setColor_NIL h₁.shape).mono fun rbtt₂ h₂ => ?_
    exact ⟨.nil, 0, h₁.trans h₂, rfl, rfl⟩
  | node p v l r =>
    refine (Shape.setColor_spec (s := .left) h₁.shape .black).mono fun rbtt₂ h₂ => ?_
    -- painted black, the hole has the height its context was made for
    have hfit : ∃ m, Balanced (Tree.plug c' (join .left p { v with color := .black } l r)) m := by
      by_cases hk : v.color = .red
      · obtain ⟨hl, hr⟩ := hd'.red p v l r rfl hk
        exact CtxBalanced.plug (n := n' + 1) (by rw [rootColor_join]; exact hd'.ctx)
          (Balanced.black rfl hl hr)
      · have hblack := color_cases hk
        obtain rfl : c' = [] := hend.resolve_right fun hred => hk hred
        have hbal : Balanced (join .left p v l r) n' := hd'.black hblack
        exact hbal.setBlack _ rfl
    obtain ⟨m, hm⟩ := hfit
    refine ⟨_, m, h₁.trans h₂, hm, ?_⟩
    cases c' with
    | nil => rfl
    | cons f c' => exact hd'.ctx.rootColor_plug _

/-! ## `_std_rbtree_remove` -/

/-- A node with one child at most is taken out of the tree; its child is in the hole. -/
theorem unchain_spec {rbtt : RbtreeTable} {c : List (Frame RbVal)} {s : Side} {y : Ptr}
    {vy : RbVal} {u : Tree RbVal} (h : Shape rbtt (plug c (join s y vy u .nil))) :
    Delivers (rbtt.unchain y) fun r => r.1 = u.root NIL ∧ Hole r.2 c u ∧
      (∀ q, q ∉ (plug c u).ptrs → q ≠ NIL → r.2.nodes.get q = rbtt.nodes.get q) ∧
      r.2.bare = rbtt.bare := by
  obtain ⟨hnd, -, hdisj⟩ := (nodup_plug _ _).mp h.holds.nodup
  obtain ⟨hcrep, hrep⟩ := (rep_plug rbtt.nodes c _).mp h.holds.rep
  obtain ⟨hyn, hy, hu, -⟩ := (rep_join ..).mp hrep
  have hyu : y ∉ u.ptrs := by
    have hnd' := List.nodup_cons.mp ((ptrs_join_perm s y vy u .nil).nodup_iff.mp hnd)
    simpa using hnd'.1
  have hyc : y ∉ Ctx.ptrs c := fun hmem => hdisj (by simp) hmem
  have huc : ∀ q ∈ u.ptrs, q ∉ Ctx.ptrs c := fun q hq hqc => hdisj (by simp [hq]) hqc
  -- the only child, on whichever side it is
  have hchild : rbtt.onlyChild y = .ok (u.root NIL) := by
    have hnil := Holds.root_eq_nul (t := u) (c := ⟨s, y, vy, .nil⟩ :: c) h.holds
    rw [nul_rbtreeNode] at hnil
    rw [onlyChild, child_ok hy, exec_bind_ok, child_ok hy]
    cases s with
    | left =>
      by_cases hun : u = .nil
      · subst hun
        rfl
      · exact if_pos (hnil.not.mpr hun)
    | right => exact if_neg (fun hne => hne rfl)
  -- the child, or the sentinel, gets a new parent
  have hroot : u.root NIL ≠ y := by
    intro heq
    cases u with
    | nil => exact hyn heq.symm
    | node q v l r => exact hyu (by simp [ptrs, ← heq])
  obtain ⟨n, hn, hnode, hsent⟩ : ∃ n : RbtreeNode, rbtt.nodes.get (u.root NIL) = some n ∧
      (∀ q v l r, u = .node q v l r →
        n.setParent (Ctx.top NIL c) = NodeLayout.cell (l.root NIL) (r.root NIL) (Ctx.top NIL c) v) ∧
      (u = .nil → n.setParent (Ctx.top NIL c) = ⟨NIL, NIL, Ctx.top NIL c, .black, NULL⟩) := by
    cases u with
    | nil =>
      obtain ⟨par, hnil⟩ := h.nil
      exact ⟨_, hnil, by simp, fun _ => rfl⟩
    | node q v l r =>
      refine ⟨_, hu.2.1, ?_, by simp⟩
      rintro q' v' l' r' heq
      obtain ⟨rfl, rfl, rfl, rfl⟩ := Tree.node.inj heq
      rfl
  have hy₁ := (Heap.get_set_ne rbtt.nodes (n.setParent (Ctx.top NIL c)) hroot.symm).trans hy
  have hfu : ∀ f d, c = f :: d → f.ptr ≠ u.root NIL := by
    rintro f d rfl heq
    cases u with
    | nil => exact hcrep.1 heq
    | node q v l r =>
      obtain rfl : f.ptr = q := heq
      exact huc f.ptr (by simp [ptrs]) (by simp)
  rw [unchain, hchild, exec_bind_ok, h.parent_eq, exec_bind_ok, RbtreeTable.setParent, assign_ok hn,
    exec_bind_ok, parent_ok hy₁, exec_bind_ok, rbtParent_mkSide]
  refine Delivers.bind (replaceChild_spec .left (u.root NIL) ?_) ?_
  · rintro f d rfl
    obtain ⟨hfn, hget, -, -⟩ := hcrep
    refine ⟨hfn, ?_, ?_⟩
    · have hne := h.holds.root_ne (join s y vy u .nil) (.inl (join_ne_nil _ _ _ _ _))
      rw [root_join] at hne
      exact hne.symm
    · refine (Heap.get_set_ne _ _ (hfu f d rfl)).trans ?_
      rw [hget, root_join]
      rfl
  intro rbtt₂ h₂
  obtain ⟨hroot₂, htop₂, hout₂, hbare₂⟩ := h₂
  have hsame : ∀ q, q ≠ u.root NIL → q ∉ Ctx.ptrs c ∨ q ≠ Ctx.top NIL c →
      rbtt₂.nodes.get q = rbtt.nodes.get q := fun q hq hqt =>
    (hout₂ q hqt).trans (Heap.get_set_ne _ _ hq)
  have hu₂ : rbtt₂.nodes.get (u.root NIL) = some (n.setParent (Ctx.top NIL c)) := by
    refine (hout₂ _ (.inl fun hmem => ?_)).trans (Heap.get_set_self ..)
    cases u with
    | nil => exact (hcrep.live _ hmem).1 rfl
    | node q v l r => exact huc q (by simp [ptrs]) hmem
  have hholds := h.holds.promote ?_ htop₂
    fun x _ _ hxu hxt => hsame x hxu (.inr hxt)
  · refine delivers_ok.mpr ⟨rfl, ⟨⟨?_, ?_, ?_⟩, fun hnil => ?_⟩, fun q hq hqn => ?_, hbare₂⟩
    · rw [hroot₂]
      exact hholds
    · by_cases hun : u = .nil
      · subst hun
        exact ⟨_, hu₂.trans (congrArg some (hsent rfl))⟩
      · obtain ⟨par, hnil⟩ := h.nil
        have hne := (Holds.root_eq_nul (t := u) (c := ⟨s, y, vy, .nil⟩ :: c) h.holds).not.mpr hun
        exact ⟨par, (hsame NIL (fun heq => hne heq.symm)
          (.inl fun hmem => (hcrep.live _ hmem).1 rfl)).trans hnil⟩
    · intro hmem
      refine h.nonNull ?_
      rw [mem_ptrs_plug] at hmem ⊢
      rcases hmem with hmem | hmem
      · exact .inl (by simp [hmem])
      · exact .inr hmem
    · subst hnil
      exact hu₂.trans (congrArg some (hsent rfl))
    · rw [mem_ptrs_plug, not_or] at hq
      refine hsame q ?_ (.inl hq.2)
      rintro rfl
      cases u with
      | nil => exact hqn rfl
      | node q' v l r => exact hq.1 (by simp [ptrs])
  · rintro q v l r rfl
    exact hu₂.trans (congrArg some (hnode q v l r rfl))

/-- A node with one child at most leaves a red-black tree. -/
theorem cutNode_spec {rbtt : RbtreeTable} {c : List (Frame RbVal)} {s : Side} {y : Ptr}
    {vy : RbVal} {u : Tree RbVal} {n : Nat} (h : Shape rbtt (plug c (join s y vy u .nil)))
    (hbal : Balanced (plug c (join s y vy u .nil)) n)
    (hblack : rootColor (plug c (join s y vy u .nil)) = .black) :
    Delivers (rbtt.cutNode y) fun rbtt' => ∃ t m, Shape rbtt' t ∧ seq t = seq (plug c u) ∧
      Balanced t m ∧ rootColor t = .black ∧ y ∉ t.ptrs ∧
      rbtt'.nodes.get y = rbtt.nodes.get y ∧ rbtt'.bare = rbtt.bare := by
  have hyn : y ≠ NIL := h.ne_NIL (by simp [mem_ptrs_plug])
  have hy : y ∉ (plug c u).ptrs := by
    obtain ⟨hnd, -, hdisj⟩ := (nodup_plug _ _).mp h.holds.nodup
    have hnd' := List.nodup_cons.mp ((ptrs_join_perm s y vy u .nil).nodup_iff.mp hnd)
    rw [mem_ptrs_plug, not_or]
    exact ⟨by simpa using hnd'.1, fun hmem => hdisj (by simp) hmem⟩
  obtain ⟨k, hk, hctx⟩ := hbal.split hblack
  rw [rootColor_join, color_rbVal] at hctx
  refine Delivers.bind (unchain_spec h) fun ⟨x, rbtt₁⟩ ⟨hx, hole, hout, hbare⟩ => ?_
  obtain rfl : x = u.root NIL := hx
  have hy₁ := (hout y hy hyn).trans h.holds.get_join
  simp only
  rw [color_ok hy₁, exec_bind_ok, rbtColor_mkSide]
  by_cases hvy : vy.color = .black
  · rw [if_pos hvy]
    obtain ⟨m, rfl⟩ : ∃ m, k = m + 1 := by
      obtain ⟨-, m, hm, -, -⟩ := balanced_join.mp hk
      exact ⟨m, by rw [hm, weight_black (v := vy) hvy]⟩
    obtain ⟨hu, -⟩ := hk.of_black hvy
    have hdeficit : Deficit c u m := by
      refine ⟨fun _ => hu, ?_, hctx.toBlack⟩
      rintro q w l r rfl hw
      obtain ⟨hl, hr, -, -⟩ := Balanced.of_red (s := .left) hu hw
      exact ⟨hl, hr⟩
    refine (balanceonremove_spec hole hdeficit).mono fun rbtt₂ ⟨t, m', h₂, hm', htk⟩ => ?_
    exact ⟨t, m', h₂.shape, h₂.seq_eq, hm', htk, (mem_ptrs_of_seq_eq h₂.seq_eq y).not.mpr hy,
      (h₂.outside y hy).trans (hout y hy hyn), h₂.bare.trans hbare⟩
  · rw [if_neg hvy]
    have hred : vy.color = .red := by
      cases hcol : vy.color
      · exact absurd hcol hvy
      · rfl
    obtain ⟨hu, -, huk, -⟩ := hk.of_red hred
    obtain ⟨m, hm⟩ := CtxBalanced.plug (t := u) (by rw [huk]; exact hctx.toBlack) hu
    refine delivers_ok.mpr ⟨_, m, hole.shape, rfl, hm, ?_, hy, hout y hy hyn, hbare⟩
    cases c with
    | nil =>
      rw [plug_nil, rootColor_join, color_rbVal, hred] at hblack
      cases hblack
    | cons f c => exact hctx.rootColor_plug u

theorem copyNode_spec {rbtt : RbtreeTable} {y z l r par : Ptr} {v : RbVal} {n : RbtreeNode}
    (hy : rbtt.nodes.get y = some n) (hz : rbtt.nodes.get z = some (NodeLayout.cell l r par v))
    (hne : z ≠ y) :
    Delivers (rbtt.copyNode y z) fun rbtt' =>
      rbtt'.nodes.get y = some (NodeLayout.cell l r par ⟨v.color, n.rbtData⟩) ∧
      (∀ q, q ≠ y → rbtt'.nodes.get q = rbtt.nodes.get q) ∧
      rbtt'.rbttRoot = rbtt.rbttRoot ∧ rbtt'.bare = rbtt.bare := by
  have hz₁ := fun n₁ => (Heap.get_set_ne rbtt.nodes n₁ hne).trans hz
  have hz₂ := fun n₁ n₂ => (Heap.get_set_ne (rbtt.nodes.set y n₁) n₂ hne).trans (hz₁ n₁)
  have hz₃ := fun n₁ n₂ n₃ =>
    (Heap.get_set_ne ((rbtt.nodes.set y n₁).set y n₂) n₃ hne).trans (hz₂ n₁ n₂)
  rw [copyNode, parent_ok hz, exec_bind_ok, RbtreeTable.setParent, assign_ok hy, exec_bind_ok,
    child_ok (hz₁ _), exec_bind_ok, RbtreeTable.setChild, assign_ok (Heap.get_set_self ..),
    exec_bind_ok, child_ok (hz₂ _ _), exec_bind_ok, RbtreeTable.setChild,
    assign_ok (Heap.get_set_self ..), exec_bind_ok, color_ok (hz₃ _ _ _), exec_bind_ok,
    RbtreeTable.setColor, assign_ok (Heap.get_set_self ..)]
  refine delivers_ok.mpr ⟨Heap.get_set_self .., fun q hq => ?_, rfl, rfl⟩
  exact (Heap.get_set_ne _ _ hq).trans ((Heap.get_set_ne _ _ hq).trans
    ((Heap.get_set_ne _ _ hq).trans (Heap.get_set_ne _ _ hq)))

/-- A node from outside the tree takes the place of a node. -/
theorem takePlace_spec {rbtt : RbtreeTable} {c : List (Frame RbVal)} {y z : Ptr} {v : RbVal}
    {l r : Tree RbVal} {n : RbtreeNode} (h : Shape rbtt (plug c (.node z v l r)))
    (hout : y ∉ (plug c (.node z v l r)).ptrs) (hyn : y ≠ NIL) (hynull : y ≠ NULL)
    (hy : rbtt.nodes.get y = some n) :
    Delivers (rbtt.takePlace y z) fun rbtt' =>
      Shape rbtt' (plug c (.node y ⟨v.color, n.rbtData⟩ l r)) ∧
      (∃ m, rbtt'.nodes.get z = some m ∧ m.rbtData = v.data) ∧ rbtt'.bare = rbtt.bare := by
  obtain ⟨hnd, -, hdisj⟩ := (nodup_plug _ _).mp h.holds.nodup
  obtain ⟨hcrep, -, hz, hl, hr⟩ := (rep_plug rbtt.nodes c _).mp h.holds.rep
  have hzroot := h.holds.root_eq_iff
  simp only [root_node] at hzroot hcrep
  simp only [nul_rbtreeNode] at hz hl hr
  simp only [ptrs, List.nodup_cons, List.mem_append, not_or, List.nodup_append'] at hnd
  obtain ⟨⟨hzl, hzr⟩, -, -, hlr⟩ := hnd
  have hyout := hout
  simp only [mem_ptrs_plug, ptrs, List.mem_cons, List.mem_append, not_or] at hyout
  obtain ⟨⟨hyz, hyl, hyr⟩, hyc⟩ := hyout
  have hzc : z ∉ Ctx.ptrs c := fun hmem => hdisj (by simp [ptrs]) hmem
  have hzn := h.ptr_ne_NIL
  have hlc : ∀ q, q ∈ l.ptrs ∨ q ∈ r.ptrs → q ∉ Ctx.ptrs c := fun q hq hqc =>
    hdisj (by simpa [ptrs] using .inr hq) hqc
  -- the root pointer and the copy of the links
  have hnodes : (rbtt.redirectRoot y z).nodes = rbtt.nodes := by
    unfold redirectRoot
    split <;> rfl
  have hroot₀ : (rbtt.redirectRoot y z).rbttRoot = if c = [] then y else rbtt.rbttRoot := by
    unfold redirectRoot
    by_cases hc : c = []
    · rw [if_pos (hzroot.mpr hc).symm, if_pos hc]
    · rw [if_neg fun heq => hc (hzroot.mp heq.symm), if_neg hc]
  have hbare₀ : (rbtt.redirectRoot y z).bare = rbtt.bare := by
    unfold redirectRoot
    split <;> rfl
  rw [takePlace]
  refine Delivers.bind (copyNode_spec (hnodes ▸ hy) (hnodes ▸ hz) (Ne.symm hyz))
    ?_
  intro rbtt₁ h₁
  obtain ⟨hy₁, hsame₁, hroot₁, hbare₁⟩ := h₁
  rw [hnodes] at hsame₁
  rw [parent_ok hy₁, exec_bind_ok]
  change Delivers ((if Ctx.top NIL c ≠ NIL then rbtt₁.relinkParent .left (Ctx.top NIL c) z y
    else pure rbtt₁) >>= _) _
  -- the link above
  have hrelink : Delivers (if Ctx.top NIL c ≠ NIL then
      rbtt₁.relinkParent .left (Ctx.top NIL c) z y else pure rbtt₁) fun rbtt₂ =>
      (∀ f d, c = f :: d → rbtt₂.nodes.get f.ptr =
        some (mkSide f.side y (f.sib.root NIL) (Ctx.top NIL d) f.val)) ∧
      (∀ q, q ∉ Ctx.ptrs c ∨ q ≠ Ctx.top NIL c → rbtt₂.nodes.get q = rbtt₁.nodes.get q) ∧
      rbtt₂.rbttRoot = rbtt₁.rbttRoot ∧ rbtt₂.bare = rbtt₁.bare := by
    cases c with
    | nil =>
      rw [Ctx.top_nil, if_neg (by simp)]
      exact delivers_ok.mpr ⟨by simp, fun _ _ => rfl, rfl, rfl⟩
    | cons f d =>
      obtain ⟨hfn, hf, -, -⟩ := hcrep
      have hfy : f.ptr ≠ y := fun heq => hyc (by simp [← heq])
      have hne := Holds.root_ne _ h.holds (.inl (by simp))
      rw [root_node] at hne
      rw [Ctx.top_cons, if_pos (show f.ptr ≠ NIL from hfn),
        relinkParent_spec .left y ((hsame₁ f.ptr hfy).trans hf) hne.symm]
      refine delivers_ok.mpr ⟨?_, fun q hq => Heap.get_set_ne _ _ ?_, rfl, rfl⟩
      · rintro g e heq
        obtain ⟨rfl, rfl⟩ := List.cons.inj heq
        exact Heap.get_set_self ..
      · rintro rfl
        simp at hq
  refine Delivers.bind hrelink ?_
  intro rbtt₂ h₂
  obtain ⟨htop₂, hout₂, hroot₂, hbare₂⟩ := h₂
  -- a cell below `z` is as it was until its turn comes
  have hbelow : ∀ q, q ∈ l.ptrs ∨ q ∈ r.ptrs → rbtt₂.nodes.get q = rbtt.nodes.get q := by
    intro q hq
    rw [hout₂ q (.inl (hlc q hq)), hsame₁ q]
    rintro rfl
    exact hq.elim hyl hyr
  have hsubtree : ∀ (t : Tree RbVal) (rbtt' : RbtreeTable), Rep rbtt.nodes z t →
      (∀ q ∈ t.ptrs, rbtt'.nodes.get q = rbtt.nodes.get q) → ∀ q u a b, t = .node q u a b →
      q ≠ NIL ∧ ∃ par, rbtt'.nodes.get q =
        some (NodeLayout.cell (a.root NIL) (b.root NIL) par u) := by
    rintro t rbtt' ht hsame q u a b rfl
    exact ⟨ht.1, z, (hsame q (by simp [ptrs])).trans ht.2.1⟩
  have hy₂ := (hout₂ y (.inl hyc)).trans hy₁
  rw [child_ok hy₂, exec_bind_ok]
  refine Delivers.bind (reparent_spec y (hsubtree l rbtt₂ hl fun q hq => hbelow q (.inl hq))) ?_
  intro rbtt₃ h₃
  obtain ⟨hl₃, hout₃, hroot₃, hbare₃⟩ := h₃
  have hy₃ := (hout₃ y (.inl hyl)).trans hy₂
  rw [child_ok hy₃, exec_bind_ok]
  refine (reparent_spec y (hsubtree r rbtt₃ hr fun q hq => ?_)).mono ?_
  · rw [hout₃ q (.inl fun hql => hlr hql hq), hbelow q (.inr hq)]
  intro rbtt₄ h₄
  obtain ⟨hr₄, hout₄, hroot₄, hbare₄⟩ := h₄
  have hsame : ∀ q, q ≠ y → q ∉ l.ptrs ∨ q ≠ l.root NIL → q ∉ r.ptrs ∨ q ≠ r.root NIL →
      q ∉ Ctx.ptrs c ∨ q ≠ Ctx.top NIL c → rbtt₄.nodes.get q = rbtt.nodes.get q := by
    intro q hqy hql hqr hqc
    rw [hout₄ q hqr, hout₃ q hql, hout₂ q hqc, hsame₁ q hqy]
  have hholds := h.holds.exchange (w := ⟨v.color, n.rbtData⟩) hyn hout
    ((hout₄ y (.inl hyr)).trans hy₃) ?_ ?_ ?_
  · refine ⟨⟨?_, ?_, ?_⟩, ⟨_, (hsame z (Ne.symm hyz) (.inl hzl) (.inl hzr) (.inl hzc)).trans hz, rfl⟩,
      hbare₄.trans (hbare₃.trans (hbare₂.trans (hbare₁.trans hbare₀)))⟩
    · rw [hroot₄, hroot₃, hroot₂, hroot₁, hroot₀]
      exact hholds
    · obtain ⟨par, hnil⟩ := h.nil
      have hmem := h.not_mem_NIL
      simp only [mem_ptrs_plug, ptrs, List.mem_cons, List.mem_append, not_or] at hmem
      exact ⟨par, (hsame NIL hyn.symm (.inl hmem.1.2.1) (.inl hmem.1.2.2) (.inl hmem.2)).trans hnil⟩
    · have hnull := h.nonNull
      simp only [mem_ptrs_plug, ptrs, List.mem_cons, List.mem_append, not_or] at hnull ⊢
      exact ⟨⟨hynull.symm, hnull.1.2⟩, hnull.2⟩
  · rintro t (rfl | rfl) q u a b rfl
    · have hqr : q ∉ r.ptrs := fun hqr => hlr (by simp [ptrs]) hqr
      exact (hout₄ q (.inl hqr)).trans (hl₃ q u a b rfl)
    · exact hr₄ q u a b rfl
  · rintro f d rfl
    have hfl : f.ptr ∉ l.ptrs := fun hmem => hlc _ (.inl hmem) (by simp)
    have hfr : f.ptr ∉ r.ptrs := fun hmem => hlc _ (.inr hmem) (by simp)
    exact (hout₄ _ (.inl hfr)).trans ((hout₃ _ (.inl hfl)).trans (htop₂ f d rfl))
  · intro q hq hql hqr hqc
    exact hsame q (fun heq => hout (heq ▸ hq)) (.inr hql) (.inr hqr) (.inr hqc)

/-- The node to be cut has one child at most and follows the node to be removed. -/
theorem nodeToCut_spec {rbtt : RbtreeTable} {c : List (Frame RbVal)} {z : Ptr} {v : RbVal}
    {l r : Tree RbVal} (h : Shape rbtt (plug c (.node z v l r)))
    (hmagic : rbtt.rbttMagic = RBT_MAGIC) :
    Delivers (rbtt.nodeToCut z) fun y =>
      (y = z ∧ ∃ s u, Tree.node z v l r = join s z v u .nil) ∨
      ∃ d w u, r = plug d (.node y w .nil u) ∧ seqBefore d = [] := by
  have hl := Holds.root_eq_nul (c := ⟨.left, z, v, r⟩ :: c) (t := l) h.holds
  have hr := Holds.root_eq_nul (c := ⟨.right, z, v, l⟩ :: c) (t := r) h.holds
  rw [nul_rbtreeNode] at hl hr
  rw [nodeToCut, h.child_left, exec_bind_ok, h.child_right, exec_bind_ok]
  by_cases hone : l = .nil ∨ r = .nil
  · rw [if_pos (hone.imp hl.mpr hr.mpr)]
    refine delivers_ok.mpr (.inl ⟨rfl, ?_⟩)
    rcases hone with rfl | rfl
    · exact ⟨.right, r, rfl⟩
    · exact ⟨.left, l, rfl⟩
  · rw [if_neg fun hnil => hone (hnil.imp hl.mp hr.mp)]
    rw [not_or] at hone
    exact (getnextNode_right h hmagic hone.2).mono fun y hy => .inr hy

/-- A node's entry splits the sequence in one way only. -/
theorem Shape.split_unique {rbtt : RbtreeTable} {t : Tree RbVal} (h : Shape rbtt t) {p d e : Ptr}
    {xs ys xs' ys' : List (Ptr × Ptr)} (hseq : seq t = xs ++ (p, d) :: ys)
    (hseq' : seq t = xs' ++ (p, e) :: ys') : d = e ∧ xs = xs' ∧ ys = ys' := by
  have hde : d = e := by
    have hd := h.data_of_mem (p := p) (d := d) (by simp [hseq])
    have he := h.data_of_mem (p := p) (d := e) (by simp [hseq'])
    rw [hd] at he
    exact Except.ok.inj he
  subst hde
  have hnd : ((seq t).map Prod.fst).Nodup := (map_fst_seq_perm t).nodup_iff.mpr h.holds.nodup
  have hout : ∀ us vs, seq t = us ++ (p, d) :: vs → (p, d) ∉ us ∧ (p, d) ∉ vs := by
    intro us vs heq
    have hnd' := List.Nodup.of_map _ hnd
    rw [heq, List.nodup_middle, List.nodup_cons, List.mem_append, not_or] at hnd'
    exact hnd'.1
  obtain ⟨hxs, hys⟩ := hout xs ys hseq
  have heq := (List.append_cons_inj_of_notMem hxs hys).mp (hseq.symm.trans hseq')
  exact ⟨rfl, heq.1, heq.2.2⟩

/-- Payloads of one colour are exchanged. -/
theorem balanced_recolor {c : List (Frame RbVal)} {p q : Ptr} {v w : RbVal} {l r : Tree RbVal}
    {n : Nat} (h : Balanced (plug c (.node p v l r)) n)
    (hblack : rootColor (plug c (.node p v l r)) = .black) (hw : w.color = v.color) :
    (∃ m, Balanced (plug c (.node q w l r)) m) ∧
      rootColor (plug c (.node q w l r)) = .black := by
  obtain ⟨k, ⟨hred, m, hk, hl, hr⟩, hctx⟩ := h.split hblack
  have hweight : weight w = weight v := by simp [weight, hw]
  constructor
  · refine CtxBalanced.plug (n := k) (by simpa [rootColor, hw] using hctx) ⟨?_, m, ?_, hl, hr⟩
    · rw [color_rbVal, hw]
      exact hred
    · rw [hweight, hk]
  · cases c with
    | nil => simpa [rootColor, hw] using hblack
    | cons f c => exact hctx.rootColor_plug _

/-- The sequence without `z`; its cell is still there. -/
theorem unlinkNode_spec {rbtt : RbtreeTable} {c : List (Frame RbVal)} {z : Ptr} {v : RbVal}
    {l r : Tree RbVal} (hs : Sound rbtt (plug c (.node z v l r))) :
    Delivers (rbtt.unlinkNode z) fun rbtt' => ∃ t m, Shape rbtt' t ∧
      seq t = seqBefore c ++ seq l ++ (seq r ++ seqAfter c) ∧ Balanced t m ∧
      rootColor t = .black ∧ (∃ n, rbtt'.nodes.get z = some n ∧ n.rbtData = v.data) ∧
      rbtt'.bare = rbtt.bare := by
  have h := hs.shape
  have hblack := hs.black
  obtain ⟨n, hbal⟩ := hs.balanced
  refine Delivers.bind (nodeToCut_spec h hs.magic) fun y hy => ?_
  rcases hy with ⟨rfl, s, u, hu⟩ | ⟨d, w, u, rfl, hbefore⟩
  · have hget := Holds.get_join (s := .left) h.holds
    have hsequ : seq (plug c u) = seqBefore c ++ seq l ++ (seq r ++ seqAfter c) := by
      have hlr : seq u = seq l ++ seq r := by
        cases s with
        | left =>
          obtain ⟨-, -, rfl, rfl⟩ := Tree.node.inj hu
          simp
        | right =>
          obtain ⟨-, -, rfl, rfl⟩ := Tree.node.inj hu
          simp
      rw [seq_plug, hlr]
      simp
    rw [hu] at h hbal hblack
    refine Delivers.bind (cutNode_spec h hbal hblack) ?_
    intro rbtt₁ hcut
    obtain ⟨t, m, h₁, hseq₁, hm, htk, _, hy₁, hbare₁⟩ := hcut
    rw [if_neg fun hne => hne rfl]
    exact delivers_ok.mpr ⟨t, m, h₁, hseq₁.trans hsequ, hm, htk, ⟨_, hy₁.trans hget, rfl⟩, hbare₁⟩
  · -- the successor `y` leaves the tree first and then takes the place of `z`
    have hC : plug c (.node z v l (plug d (.node y w .nil u))) =
        plug (d ++ ⟨.right, z, v, l⟩ :: c) (join .right y w u .nil) := by
      rw [plug_append]
      rfl
    have hyz : y ≠ z := by
      rintro rfl
      have hnd := ((nodup_plug _ _).mp h.holds.nodup).1
      simp [ptrs, mem_ptrs_plug] at hnd
    rw [hC] at h hbal hblack
    have hyn : y ≠ NIL := h.ne_NIL (by simp [mem_ptrs_plug])
    have hynull : y ≠ NULL := by
      rintro rfl
      exact h.nonNull (by simp [mem_ptrs_plug])
    have hyget := h.holds.get_join
    refine Delivers.bind (cutNode_spec h hbal hblack) ?_
    intro rbtt₁ hcut
    obtain ⟨t, m, h₁, hseq₁, hm, htk, hyt, hy₁, hbare₁⟩ := hcut
    rw [if_pos hyz]
    have hseqz : seq t = seqBefore c ++ seq l ++
        (z, v.data) :: (seq u ++ seqAfter d ++ seqAfter c) := by
      rw [hseq₁, seq_plug, seqBefore_append, seqAfter_append, hbefore]
      simp [seqBefore, seqAfter, Ctx.inoBefore, Ctx.inoAfter, seq]
    have hzt : z ∈ t.ptrs := by
      rw [← (map_fst_seq_perm t).mem_iff, hseqz]
      simp
    obtain ⟨c₁, v₁, l₁, r₁, rfl⟩ := exists_plug_of_mem hzt
    obtain ⟨hv, hbefore₁, hafter₁⟩ := h₁.split_unique hseqz (seq_plug_node c₁ z v₁ l₁ r₁)
    refine (takePlace_spec h₁ hyt hyn hynull (hy₁.trans hyget)).mono ?_
    intro rbtt₂ hplace
    obtain ⟨h₂, ⟨k, hk, hdata⟩, hbare₂⟩ := hplace
    obtain ⟨⟨m', hm'⟩, htk'⟩ := balanced_recolor (q := y) (w := ⟨v₁.color, w.data⟩) hm htk rfl
    refine ⟨_, m', h₂, ?_, hm', htk', ⟨k, hk, hdata.trans hv.symm⟩, hbare₂.trans hbare₁⟩
    rw [rbtData_mkSide, seq_plug_node, ← hbefore₁, ← hafter₁, seq_plug_node, hbefore]
    simp

/-- A node leaves the tree; the others keep their order and their user nodes. -/
theorem removeNode_spec {rbtt : RbtreeTable} {c : List (Frame RbVal)} {z : Ptr} {v : RbVal}
    {l r : Tree RbVal} (hs : Sound rbtt (plug c (.node z v l r))) :
    Delivers (rbtt.removeNode z) fun rbtt' => ∃ t, Sound rbtt' t ∧
      seq t = seqBefore c ++ seq l ++ (seq r ++ seqAfter c) ∧ z ∉ t.ptrs ∧
      (∃ n, rbtt'.nodes.get z = some n ∧ n.rbtData = v.data) ∧
      rbtt'.rbttCompare = rbtt.rbttCompare := by
  have hseq := seq_plug_node c z v l r
  rw [removeNode, debugBlock_ok hs.magic hs.shape.ptr_ne_NULL, exec_bind_ok]
  refine Delivers.bind (unlinkNode_spec hs)
    fun rbtt₁ ⟨t, m, h₁, hseq₁, hm, htk, ⟨n, hz, hdata⟩, hbare₁⟩ => ?_
  refine Delivers.bind (setLeaf_spec NIL hz) fun rbtt₂ ⟨hz₂, hsame₂, hroot₂, hbare₂⟩ => ?_
  have hzt : z ∉ t.ptrs := by
    have hnd : ((seq (plug c (.node z v l r))).map Prod.fst).Nodup :=
      (map_fst_seq_perm _).nodup_iff.mpr hs.shape.holds.nodup
    rw [hseq, List.map_append, List.map_cons, List.nodup_middle, ← List.map_append, ← hseq₁] at hnd
    rw [← (map_fst_seq_perm t).mem_iff]
    exact (List.nodup_cons.mp hnd).1
  have hzn : NIL ≠ z := hs.shape.ptr_ne_NIL.symm
  obtain ⟨par, hnil⟩ := h₁.nil
  have hbare := hbare₂.trans hbare₁
  have hcompare := compare_of_bare hbare
  have hsub : ∀ x ∈ seq t, x ∈ seq (plug c (.node z v l r)) := by
    intro x hx
    rw [hseq₁, List.mem_append] at hx
    rw [hseq, List.mem_append, List.mem_cons]
    exact hx.imp_right .inr
  have hholds : Holds rbtt₂.nodes rbtt₂.rbttRoot t := by
    rw [hroot₂]
    exact h₁.holds.congr fun q hq => hsame₂ q fun heq => hzt (heq ▸ hq)
  refine delivers_ok.mpr ⟨t, ⟨(magic_of_bare hbare).trans hs.magic,
    ⟨hholds, ⟨par, (hsame₂ NIL hzn).trans hnil⟩, h₁.nonNull⟩, htk, ⟨m, hm⟩, ?_, ?_,
    fun x hx => hs.stored x (hsub x hx)⟩, hseq₁, hzt, ⟨_, hz₂, hdata⟩, hcompare⟩
  · change Sorted rbtt₂.rbttCompare (seq t)
    have hsorted := hs.sorted
    rw [hcompare, hseq₁]
    rw [hseq] at hsorted
    refine List.Pairwise.sublist ?_ hsorted
    exact (List.Sublist.refl _).append (List.sublist_cons_self _ _)
  · change ulongPred rbtt₂.rbttNuminodes = t.size
    rw [numinodes_of_bare hbare, hs.counted, ← length_seq, ← length_seq, hseq, hseq₁]
    simp [ulongPred]
    omega

/-- Nothing compares equal and nothing changes, or some element that does is removed. -/
theorem stdRbtreeRemove_spec {rbtt : RbtreeTable} {t : Tree RbVal} (hs : Sound rbtt t)
    (hcmp : TotalPreorder rbtt.rbttCompare) {data : Ptr} (hd : data ≠ NULL) :
    Delivers (rbtt.stdRbtreeRemove data) fun r =>
      (r = (NULL, rbtt) ∧ ∀ x ∈ seq t, rbtt.rbttCompare data x.2 ≠ 0) ∨
      ∃ z t' xs ys, r.1 ≠ NULL ∧ Sound r.2 t' ∧ seq t = xs ++ (z, r.1) :: ys ∧
        seq t' = xs ++ ys ∧ rbtt.rbttCompare data r.1 = 0 ∧
        r.2.rbttCompare = rbtt.rbttCompare := by
  rw [stdRbtreeRemove, debugBlock_ok hs.magic hd, exec_bind_ok]
  refine Delivers.bind (getexactNode_spec hs hcmp hd) fun x hx => ?_
  rcases hx with ⟨rfl, hno⟩ | ⟨hx, c, v, l, r, rfl, hv⟩
  · rw [if_pos rfl]
    exact delivers_ok.mpr (.inl ⟨rfl, hno⟩)
  · rw [if_neg hx]
    refine Delivers.bind (removeNode_spec hs)
      fun rbtt₁ ⟨t, hs₁, hseq₁, hxt, ⟨m, hm, hdata⟩, hcompare⟩ => ?_
    rw [data_ok hm, exec_bind_ok, hdata]
    have hseq := seq_plug_node c x v l r
    refine delivers_ok.mpr (.inr ⟨x, t, _, _, hs.stored (x, v.data) (by simp [hseq]), ?_, hseq, hseq₁,
      hv, hcompare⟩)
    have hsame : ∀ q, q ≠ x → (rbtt₁.nodes.erase x).get q = rbtt₁.nodes.get q := fun q hq =>
      Heap.get_erase_ne _ hq
    obtain ⟨par, hnil⟩ := hs₁.shape.nil
    refine ⟨hs₁.magic, ⟨hs₁.shape.holds.congr fun q hq => hsame q fun heq => hxt (heq ▸ hq),
      ⟨par, (hsame NIL hs.shape.ptr_ne_NIL.symm).trans hnil⟩, hs₁.shape.nonNull⟩, hs₁.black,
      hs₁.balanced, hs₁.sorted, hs₁.counted, hs₁.stored⟩

end OpxCommonUtils.RbTree
