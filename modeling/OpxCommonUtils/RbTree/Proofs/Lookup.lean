import OpxCommonUtils.Misc.Order
import OpxCommonUtils.RbTree.Proofs.Relink

/-!
# Searching the in-order sequence

What the lookup routines answer, in terms of the sequence of the tree: `leftmost` and
`climbRight` find the element behind a position, and the descent of `_std_rbtree_getexact` finds
some element that compares equal, if there is one.
-/

namespace OpxCommonUtils.RbTree

open Tree LinkTree RbtreeTable

/-- What follows a node is below its right child or above it. -/
theorem seq_plug_node (c : List (Frame RbVal)) (p : Ptr) (v : RbVal) (l r : Tree RbVal) :
    seq (plug c (.node p v l r)) =
      seqBefore c ++ seq l ++ (p, v.data) :: (seq r ++ seqAfter c) := by
  rw [seq_plug, seq_node]
  simp

theorem Shape.data_of_mem {rbtt : RbtreeTable} {t : Tree RbVal} (h : Shape rbtt t) {p d : Ptr}
    (hmem : (p, d) ∈ seq t) : rbtt.data p = .ok d := by
  simp only [seq, List.mem_map, Prod.mk.injEq] at hmem
  obtain ⟨x, hx, rfl, rfl⟩ := hmem
  obtain ⟨l, r, q, hget⟩ := h.holds.rep.get_of_mem_ino hx
  rw [data_ok hget, rbtData_cell]

theorem Shape.ptr_of_mem {rbtt : RbtreeTable} {t : Tree RbVal} (h : Shape rbtt t) {x : Ptr × Ptr}
    (hmem : x ∈ seq t) : x.1 ≠ NIL ∧ x.1 ≠ NULL := by
  have hp : x.1 ∈ t.ptrs := (map_fst_seq_perm t).mem_iff.mp (List.mem_map_of_mem hmem)
  exact ⟨h.ne_NIL hp, fun heq => h.nonNull (heq ▸ hp)⟩

/-- The leftmost node below a node. -/
theorem leftmost_spec {rbtt : RbtreeTable} (t : Tree RbVal) :
    ∀ (fuel : Nat) (c : List (Frame RbVal)), Shape rbtt (plug c t) → t ≠ .nil → t.size ≤ fuel →
      Delivers (rbtt.leftmost fuel (t.root NIL)) fun q => ∃ d w u,
        t = plug d (.node q w .nil u) ∧ seqBefore d = [] := by
  induction t with
  | nil => intro _ _ _ hne; exact absurd rfl hne
  | node p v l r ihl ihr =>
    intro fuel c h _ hlt
    simp only [size] at hlt
    obtain ⟨fuel, rfl⟩ := Nat.exists_eq_succ_of_ne_zero (by omega : fuel ≠ 0)
    rw [leftmost, root_node, h.child_left, exec_bind_ok]
    have hl : Shape rbtt (plug (⟨.left, p, v, r⟩ :: c) l) := h
    have hnil := hl.holds.root_eq_nul
    rw [nul_rbtreeNode] at hnil
    by_cases hleft : l = .nil
    · subst hleft
      rw [if_pos (hnil.mpr rfl)]
      exact delivers_ok.mpr ⟨[], v, r, rfl, rfl⟩
    · rw [if_neg (hnil.not.mpr hleft)]
      refine (ihl fuel _ hl hleft (by omega)).mono ?_
      rintro q ⟨d, w, u, hd, hbefore⟩
      refine ⟨d ++ [⟨.left, p, v, r⟩], w, u, ?_, ?_⟩
      · rw [plug_append, ← hd]
        rfl
      · rw [seqBefore_append, hbefore]
        rfl

/-- The climb to the first ancestor that is left of the path. -/
theorem climbRight_spec {rbtt : RbtreeTable} (c : List (Frame RbVal)) :
    ∀ (fuel : Nat) (t : Tree RbVal), Shape rbtt (plug c t) → t ≠ .nil → c.length < fuel →
      Delivers (rbtt.climbRight fuel (t.root NIL) (Ctx.top NIL c)) fun q =>
        (seqAfter c = [] ∧ q = NIL) ∨ ∃ d rest, seqAfter c = (q, d) :: rest := by
  induction c with
  | nil =>
    intro fuel t _ _ hlt
    obtain ⟨fuel, rfl⟩ := Nat.exists_eq_succ_of_ne_zero (by omega : fuel ≠ 0)
    rw [climbRight, Ctx.top_nil, if_pos rfl]
    exact delivers_ok.mpr (.inl ⟨rfl, rfl⟩)
  | cons f c ih =>
    intro fuel t h hne hlt
    obtain ⟨fuel, rfl⟩ := Nat.exists_eq_succ_of_ne_zero (by omega : fuel ≠ 0)
    simp only [List.length_cons] at hlt
    have hf : f.ptr ≠ NIL := h.ne_NIL (by simp [mem_ptrs_plug])
    obtain ⟨q, hq, htest⟩ := h.child_test (.inl hne) .right
    rw [climbRight, Ctx.top_cons, if_neg hf, hq, exec_bind_ok]
    cases hside : f.side with
    | left =>
      rw [if_neg (fun heq => by simp [htest.mp heq] at hside)]
      refine delivers_ok.mpr (.inr ⟨f.val.data, seq f.sib ++ seqAfter c, ?_⟩)
      simp [seqAfter, Ctx.inoAfter, hside, seq]
    | right =>
      have h' : Shape rbtt (plug c (join f.side f.ptr f.val t f.sib)) := h
      rw [if_pos (htest.mpr hside), h'.parent_eq, exec_bind_ok]
      have hclimb := ih fuel _ h' (join_ne_nil _ _ _ _ _) (by omega)
      rw [root_join] at hclimb
      have hafter : seqAfter (f :: c) = seqAfter c := by
        simp [seqAfter, Ctx.inoAfter, hside]
      rwa [hafter]

/-- The successor of a node with a right child is the leftmost node below that. -/
theorem getnextNode_right {rbtt : RbtreeTable} {c : List (Frame RbVal)} {p : Ptr} {v : RbVal}
    {l r : Tree RbVal} (h : Shape rbtt (plug c (.node p v l r)))
    (hmagic : rbtt.rbttMagic = RBT_MAGIC) (hr : r ≠ .nil) :
    Delivers (rbtt.getnextNode p) fun q => ∃ d w u,
      r = plug d (.node q w .nil u) ∧ seqBefore d = [] := by
  have hshape : Shape rbtt (plug (⟨.right, p, v, l⟩ :: c) r) := h
  have hnil := hshape.holds.root_eq_nul.not.mpr hr
  rw [nul_rbtreeNode] at hnil
  rw [getnextNode, validateHandle_ok hmagic, exec_bind_ok, if_neg h.ptr_ne_NULL, h.child_right,
    exec_bind_ok, if_pos hnil]
  have hlt := hshape.length_lt_fuel
  refine Delivers.bind (leftmost_spec r rbtt.fuel _ hshape hr (by omega))
    fun q ⟨d, w, u, hd, hbefore⟩ => delivers_ok.mpr ⟨d, w, u, ?_, hbefore⟩
  rw [hd, ← plug_append] at hshape
  rwa [orNull, if_neg hshape.ptr_ne_NIL]

/-- The node behind a node in the sequence. -/
theorem getnextNode_spec {rbtt : RbtreeTable} {c : List (Frame RbVal)} {p : Ptr} {v : RbVal}
    {l r : Tree RbVal} (h : Shape rbtt (plug c (.node p v l r)))
    (hmagic : rbtt.rbttMagic = RBT_MAGIC) :
    Delivers (rbtt.getnextNode p) fun q =>
      (seq r ++ seqAfter c = [] ∧ q = NULL) ∨ ∃ d rest, seq r ++ seqAfter c = (q, d) :: rest := by
  by_cases hright : r = .nil
  · subst hright
    rw [getnextNode, validateHandle_ok hmagic, exec_bind_ok, if_neg h.ptr_ne_NULL, h.child_right,
      exec_bind_ok, if_neg (by simp), h.parent_node, exec_bind_ok]
    have hlt := h.length_lt_fuel
    refine Delivers.bind (climbRight_spec c rbtt.fuel _ h (by simp) (by omega)) fun q hq => ?_
    refine delivers_ok.mpr ?_
    rcases hq with ⟨hafter, rfl⟩ | ⟨d, rest, hafter⟩
    · exact .inl ⟨by simp [hafter], rfl⟩
    · have hmem : (q, d) ∈ seq (plug c (.node p v l .nil)) := by simp [seq_plug_node, hafter]
      rw [orNull, if_neg (h.ptr_of_mem hmem).1]
      exact .inr ⟨d, rest, by simpa using hafter⟩
  · refine (getnextNode_right h hmagic hright).mono fun q ⟨d, w, u, hd, hbefore⟩ => ?_
    refine .inr ⟨w.data, seq u ++ seqAfter d ++ seqAfter c, ?_⟩
    rw [hd, seq_plug_node, hbefore]
    simp

/-- The first user node of the sequence. -/
theorem stdRbtreeGetfirst_spec {rbtt : RbtreeTable} {t : Tree RbVal} (h : Shape rbtt t)
    (hmagic : rbtt.rbttMagic = RBT_MAGIC) :
    rbtt.stdRbtreeGetfirst = .ok ((seq t).head?.elim NULL Prod.snd) := by
  have hvalid := validateHandle_ok hmagic
  have hnil := Holds.root_eq_nul (c := []) h.holds
  rw [nul_rbtreeNode] at hnil
  rw [stdRbtreeGetfirst, getfirstNode, hvalid, exec_bind_ok, exec_bind_ok, h.holds.root_eq,
    nul_rbtreeNode]
  by_cases ht : t = .nil
  · subst ht
    rfl
  · rw [if_neg (hnil.not.mpr ht)]
    obtain ⟨q, hq, d, w, u, hd, hbefore⟩ := leftmost_spec t rbtt.fuel [] h ht
      (Nat.le_of_lt h.size_lt_fuel)
    have heq : seq t = (q, w.data) :: (seq u ++ seqAfter d) := by
      rw [hd, seq_plug_node, hbefore]
      simp
    have hmem : (q, w.data) ∈ seq t := by simp [heq]
    rw [hq, exec_bind_ok, if_neg (h.ptr_of_mem hmem).2, h.data_of_mem hmem, heq]
    rfl

/-- The descent finds some node that compares equal, if there is one. -/
theorem getexactLoop_spec {rbtt : RbtreeTable} (hcmp : TotalPreorder rbtt.rbttCompare)
    (data : Ptr) (t : Tree RbVal) :
    ∀ (fuel : Nat) (c : List (Frame RbVal)), Shape rbtt (plug c t) →
      Sorted rbtt.rbttCompare (seq t) → t.size < fuel →
      Delivers (rbtt.getexactLoop data fuel (t.root NIL)) fun q =>
        (q = NIL ∧ ∀ x ∈ seq t, rbtt.rbttCompare data x.2 ≠ 0) ∨
        ∃ d v l r, t = plug d (.node q v l r) ∧ rbtt.rbttCompare data v.data = 0 := by
  induction t with
  | nil =>
    intro fuel c _ _ hlt
    obtain ⟨fuel, rfl⟩ := Nat.exists_eq_succ_of_ne_zero (by omega : fuel ≠ 0)
    rw [getexactLoop, root_nil, if_pos rfl]
    exact delivers_ok.mpr (.inl ⟨rfl, by simp⟩)
  | node p v l r ihl ihr =>
    intro fuel c h hsorted hlt
    simp only [size] at hlt
    obtain ⟨fuel, rfl⟩ := Nat.exists_eq_succ_of_ne_zero (by omega : fuel ≠ 0)
    rw [seq_node, Sorted, List.pairwise_append, List.pairwise_cons] at hsorted
    obtain ⟨hsl, ⟨hvr, hsr⟩, hlv⟩ := hsorted
    rw [getexactLoop, root_node, if_neg h.ptr_ne_NIL, h.data_node, exec_bind_ok]
    by_cases heq : rbtt.rbttCompare data v.data = 0
    · rw [if_pos heq]
      exact delivers_ok.mpr (.inr ⟨[], v, l, r, rfl, heq⟩)
    · rw [if_neg heq]
      by_cases hless : rbtt.rbttCompare data v.data < 0
      · rw [if_pos hless, h.child_left, exec_bind_ok]
        refine (ihl fuel (⟨.left, p, v, r⟩ :: c) h hsl (by omega)).mono fun q hq => ?_
        rcases hq with ⟨rfl, hno⟩ | ⟨d, w, l', r', hd, hw⟩
        · refine .inl ⟨rfl, fun x hx => ?_⟩
          rw [seq_node, List.mem_append, List.mem_cons] at hx
          rcases hx with hx | rfl | hx
          · exact hno x hx
          · exact heq
          · exact (hcmp.lt_of_lt_of_le hless (hvr x hx)).ne
        · refine .inr ⟨d ++ [⟨.left, p, v, r⟩], w, l', r', ?_, hw⟩
          rw [plug_append, ← hd]
          rfl
      · rw [if_neg hless, h.child_right, exec_bind_ok]
        have hgreater : rbtt.rbttCompare v.data data < 0 := by
          have hs := hcmp.swap v.data data
          omega
        refine (ihr fuel (⟨.right, p, v, l⟩ :: c) h hsr (by omega)).mono fun q hq => ?_
        rcases hq with ⟨rfl, hno⟩ | ⟨d, w, l', r', hd, hw⟩
        · refine .inl ⟨rfl, fun x hx => ?_⟩
          rw [seq_node, List.mem_append, List.mem_cons] at hx
          rcases hx with hx | rfl | hx
          · have hxv := hlv x hx (p, v.data) (by simp)
            have hlt := hcmp.lt_of_le_of_lt hxv hgreater
            have hs := hcmp.swap x.2 data
            omega
          · exact heq
          · exact hno x hx
        · refine .inr ⟨d ++ [⟨.right, p, v, l⟩], w, l', r', ?_, hw⟩
          rw [plug_append, ← hd]
          rfl

/-- The search answers `NULL` exactly when no element compares equal. -/
theorem getexactNode_spec {rbtt : RbtreeTable} {t : Tree RbVal} (hs : Sound rbtt t)
    (hcmp : TotalPreorder rbtt.rbttCompare) {data : Ptr} (hd : data ≠ NULL) :
    Delivers (rbtt.getexactNode data) fun q =>
      (q = NULL ∧ ∀ x ∈ seq t, rbtt.rbttCompare data x.2 ≠ 0) ∨
      (q ≠ NULL ∧
        ∃ c v l r, t = plug c (.node q v l r) ∧ rbtt.rbttCompare data v.data = 0) := by
  rw [getexactNode, debugBlock_ok hs.magic hd, exec_bind_ok, hs.shape.holds.root_eq]
  refine Delivers.bind (getexactLoop_spec hcmp data t rbtt.fuel [] hs.shape hs.sorted
    hs.shape.size_lt_fuel) fun q hq => delivers_ok.mpr ?_
  rcases hq with ⟨rfl, hno⟩ | ⟨c, v, l, r, rfl, hv⟩
  · exact .inl ⟨rfl, hno⟩
  · rw [orNull, if_neg hs.shape.ptr_ne_NIL]
    exact .inr ⟨hs.shape.ptr_ne_NULL, c, v, l, r, rfl, hv⟩

/-- The walk over the nodes delivers the sequence. -/
theorem rwalk_spec {h : Heap RbtreeNode} (t : Tree RbVal) :
    ∀ (fuel : Nat) (par : Ptr), Rep h par t → t.size < fuel →
      rwalk h fuel (t.root NIL) = .ok (seq t) := by
  induction t with
  | nil =>
    intro fuel par _ hlt
    obtain ⟨fuel, rfl⟩ := Nat.exists_eq_succ_of_ne_zero (by omega : fuel ≠ 0)
    rw [rwalk, root_nil, if_pos rfl]
    rfl
  | node p v l r ihl ihr =>
    intro fuel par ⟨hp, hget, hl, hr⟩ hlt
    simp only [size] at hlt
    obtain ⟨fuel, rfl⟩ := Nat.exists_eq_succ_of_ne_zero (by omega : fuel ≠ 0)
    rw [rwalk, root_node, if_neg (show p ≠ NIL from hp), Heap.deref_ok hget, exec_bind_ok]
    have hwl := ihl fuel p hl (by omega)
    have hwr := ihr fuel p hr (by omega)
    change (rwalk h fuel (l.root NIL) >>= fun before => rwalk h fuel (r.root NIL) >>= fun after =>
      pure (before ++ (p, v.data) :: after)) = _
    rw [hwl, exec_bind_ok, hwr, exec_bind_ok, seq_node]
    rfl

theorem inorder_eq {rbtt : RbtreeTable} {t : Tree RbVal} (h : Shape rbtt t) :
    rbtt.inorder = .ok (seq t) := by
  rw [inorder, h.holds.root_eq]
  exact rwalk_spec t _ _ h.holds.rep h.size_lt_fuel

end OpxCommonUtils.RbTree
