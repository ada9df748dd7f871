import OpxCommonUtils.Misc.Resume
import OpxCommonUtils.RbTree.Proofs.Ordered
import OpxCommonUtils.RbTree.Proofs.Walk

/-!
# Walks from a key, and resumed walks

A walk from a key starts at the next user node but goes right from there, so this node gets no call;
and a key above all user nodes starts the walk from the beginning. Resuming a walk in order is right
for the same reason: the node handed back is the one of the last call. A walk in preorder has gone
on to the left child by then, if there is one, which then gets no call.
-/

namespace OpxCommonUtils.RbTree

open OpxCommonUtils.Tree LinkTree RbtreeTable TreeOp

section
variable {rbtt : RbtreeTable} {t : Tree RbVal} {flag : WalkFlag}

/-! ## Where a walk stops -/

/-- With fewer cells than calls to go the walk comes to its end. -/
theorem visits_all {cells : List (Ptr × RbVal)} : ∀ {lcnt : Nat} (calls : List Ptr),
    cells.length < lcnt →
      visits rbtt flag (fun _ _ => 0) lcnt calls cells = (NULL, calls ++ datas cells) := by
  induction cells with
  | nil => simp [visits, datas]
  | cons x cells ih =>
    intro lcnt calls hlt
    rw [List.length_cons] at hlt
    rw [visits, if_neg (by simp; omega), ih _ (by omega), List.append_assoc]
    rfl

/-- Otherwise it stops after the last of its calls. -/
theorem visits_stop {before after : List (Ptr × RbVal)} {cell : Ptr × RbVal} :
    ∀ {lcnt : Nat} (calls : List Ptr), before.length + 1 = lcnt →
      visits rbtt flag (fun _ _ => 0) lcnt calls (before ++ cell :: after) =
        (rbtt.stopNode flag cell.1, calls ++ (datas before ++ [cell.2.data])) := by
  induction before with
  | nil =>
    intro lcnt calls hlen
    rw [List.nil_append, visits, if_pos (.inr (by simpa using hlen.symm))]
    rfl
  | cons x before ih =>
    intro lcnt calls hlen
    rw [List.length_cons] at hlen
    rw [List.cons_append, visits, if_neg (by simp; omega), ih _ (by omega), List.append_assoc]
    rfl

/-- In order, what is still to come behind a cell is to come to the right of its node. -/
theorem exists_stop_inorder (x : Place RbVal) : ∀ {before after : List (Ptr × RbVal)}
    {cell : Ptr × RbVal}, x.restIno = before ++ cell :: after →
      ∃ z : Place RbVal, z.whole = x.whole ∧ z.heading = .right ∧ (z.ptr, z.val) = cell ∧
        z.restIno = after := by
  induction x using Place.tour_induction with
  | hdown x hheading ih =>
    intro before after cell hsplit
    by_cases hleft : x.left = .nil
    · rw [Place.restIno_down_nil hheading hleft] at hsplit
      cases before with
      | nil =>
        obtain ⟨hcell, hafter⟩ := List.cons.inj hsplit
        rw [Place.goLeft_nil hleft] at hafter
        exact ⟨{ x with heading := .right }, rfl, rfl, hcell, hafter⟩
      | cons y before =>
        obtain ⟨z, hz, hrest⟩ := ih (List.cons.inj hsplit).2
        exact ⟨z, hz.trans (Place.whole_goLeft x), hrest⟩
    · rw [← Place.restIno_down_of_ne hheading hleft] at hsplit
      obtain ⟨z, hz, hrest⟩ := ih hsplit
      exact ⟨z, hz.trans (Place.whole_goLeft x), hrest⟩
  | hright x hheading ih =>
    intro before after cell hsplit
    rw [← Place.restIno_right hheading] at hsplit
    obtain ⟨z, hz, hrest⟩ := ih hsplit
    exact ⟨z, hz.trans (Place.whole_goRight x), hrest⟩
  | hup x f c hheading hctx ih =>
    intro before after cell hsplit
    have hwhole := Place.whole_goUp hctx
    cases hside : f.side with
    | left =>
      rw [Place.restIno_up_left hheading hctx hside] at hsplit
      cases before with
      | nil =>
        obtain ⟨hcell, hafter⟩ := List.cons.inj hsplit
        refine ⟨x.goUp f c, hwhole, ?_, ?_, hafter⟩
        · rw [Place.goUp, hside]
        · rw [← hcell, Place.goUp, hside]
      | cons y before =>
        obtain ⟨z, hz, hrest⟩ := ih (List.cons.inj hsplit).2
        exact ⟨z, hz.trans hwhole, hrest⟩
    | right =>
      rw [← Place.restIno_up_right hheading hctx hside] at hsplit
      obtain ⟨z, hz, hrest⟩ := ih hsplit
      exact ⟨z, hz.trans hwhole, hrest⟩
  | hend x hheading hctx =>
    intro before after cell hsplit
    rw [Place.restIno_end hheading hctx] at hsplit
    simp at hsplit

/-- In preorder it is to come from the step to the left on. -/
theorem exists_stop_preorder (x : Place RbVal) : ∀ {before after : List (Ptr × RbVal)}
    {cell : Ptr × RbVal}, x.rest = before ++ cell :: after →
      ∃ z : Place RbVal, z.whole = x.whole ∧ z.heading = .down ∧ (z.ptr, z.val) = cell ∧
        z.goLeft.rest = after := by
  induction x using Place.tour_induction with
  | hdown x hheading ih =>
    intro before after cell hsplit
    rw [Place.rest_down hheading] at hsplit
    cases before with
    | nil =>
      obtain ⟨hcell, hafter⟩ := List.cons.inj hsplit
      exact ⟨x, rfl, hheading, hcell, hafter⟩
    | cons y before =>
      obtain ⟨z, hz, hrest⟩ := ih (List.cons.inj hsplit).2
      exact ⟨z, hz.trans (Place.whole_goLeft x), hrest⟩
  | hright x hheading ih =>
    intro before after cell hsplit
    rw [← Place.rest_right hheading] at hsplit
    obtain ⟨z, hz, hrest⟩ := ih hsplit
    exact ⟨z, hz.trans (Place.whole_goRight x), hrest⟩
  | hup x f c hheading hctx ih =>
    intro before after cell hsplit
    rw [← Place.rest_up hheading hctx] at hsplit
    obtain ⟨z, hz, hrest⟩ := ih hsplit
    exact ⟨z, hz.trans (Place.whole_goUp hctx), hrest⟩
  | hend x hheading hctx =>
    intro before after cell hsplit
    rw [Place.rest_end hheading hctx] at hsplit
    simp at hsplit

/-! ## Where a walk starts -/

/-- The node of an element as a place of the tour, with what is behind it in order. -/
theorem place_of_mem (hs : Shape rbtt t) {p d : Ptr} (hmem : (p, d) ∈ seq t) :
    ∃ (x : Place RbVal) (front : List (Ptr × Ptr)), x.whole = t ∧ x.heading = .right ∧
      x.ptr = p ∧ x.val.data = d ∧
      seq t = front ++ (p, d) :: x.restIno.map fun y => (y.1, y.2.data) := by
  have hp : p ∈ t.ptrs := (map_fst_seq_perm t).mem_iff.mp (List.mem_map_of_mem hmem)
  obtain ⟨c, v, l, r, rfl⟩ := exists_plug_of_mem hp
  have hd : v.data = d := Except.ok.inj (hs.data_node.symm.trans (hs.data_of_mem hmem))
  refine ⟨⟨c, p, v, l, r, .right⟩, seqBefore c ++ seq l, rfl, rfl, rfl, hd, ?_⟩
  rw [seq_plug_node, hd]
  simp [Place.restIno, seq, seqAfter]

/-- A walk from a key starts at the first element that is not smaller, or at the beginning if there
is none. -/
theorem walkStart_spec (hs : Sound rbtt t) (hcmp : TotalPreorder rbtt.rbttCompare) {data : Ptr}
    (hd : data ≠ NULL) : Delivers (rbtt.walkStart data) fun q =>
      (q = NULL ∧ ∀ x ∈ seq t, rbtt.rbttCompare x.2 data < 0) ∨
      ∃ d, (q, d) ∈ seq t ∧ rbtt.rbttCompare data d ≤ 0 := by
  rw [walkStart, if_pos hd]
  refine (getexactornextNode_spec hs hcmp hd).mono ?_
  rintro q (⟨d, hmem, heq⟩ | ⟨xs, ys, hgap, rfl⟩)
  · exact .inr ⟨d, hmem, heq.le⟩
  · cases ys with
    | nil =>
      refine .inl ⟨rfl, ?_⟩
      rw [hgap.split, List.append_nil]
      exact hgap.smaller
    | cons y ys =>
      refine .inr ⟨y.2, ?_, (hgap.greater y List.mem_cons_self).le⟩
      rw [hgap.split]
      simp

end

/-! ## From a key -/

/-- The user nodes of a sequence from the key on. -/
def fromKey (cmp : Ptr → Ptr → Int) (data : Ptr) (s : List (Ptr × Ptr)) : List Ptr :=
  (s.map Prod.snd).filter fun d => cmp data d ≤ 0

/-- A walk in order from a key leaves out the first of the elements it should visit, or visits all
elements when it should visit none. -/
theorem Sound.walk_from_key_iff {rbtt : RbtreeTable} {t : Tree RbVal} (hs : Sound rbtt t)
    (hcmp : TotalPreorder rbtt.rbttCompare) {data : Ptr} (hd : data ≠ NULL) :
    (∃ d, rbtt.stdRbtreeWalk data (some fun _ _ => 0) 0 .inorderwalk =
      .ok (d, fromKey rbtt.rbttCompare data (seq t))) ↔ seq t = [] := by
  obtain ⟨q, hstart, hq⟩ := walkStart_spec hs hcmp hd
  rcases hq with ⟨rfl, hsmaller⟩ | ⟨d₀, hmem, hle⟩
  · obtain ⟨d, hwalk⟩ := stdRbtreeWalk_all hs (fun _ _ => 0) noCount .inorderwalk hstart
    have hnone : fromKey rbtt.rbttCompare data (seq t) = [] := by
      rw [fromKey, List.filter_eq_nil_iff]
      intro e he
      obtain ⟨x, hx, rfl⟩ := List.mem_map.mp he
      have hlt := (hcmp.swap _ _).mp (hsmaller x hx)
      simpa using hlt
    rw [hwalk, hnone, callsOf_zero, List.nil_append]
    change (∃ d', Except.ok (d, ((seq t).map Prod.snd).take 0xffffffff) = Except.ok (d', [])) ↔ _
    constructor
    · rintro ⟨d', heq⟩
      have hnil := (Prod.mk.inj (Except.ok.inj heq)).2
      simpa using hnil
    · intro hnil
      rw [hnil]
      exact ⟨d, rfl⟩
  · -- the node at which the walk starts gets no call
    obtain ⟨x, front, hx, hheading, rfl, rfl, hseq⟩ := place_of_mem hs.shape hmem
    have hcells : ∀ y ∈ toCome .inorderwalk x, y.1 ∈ t.ptrs := by
      intro y hy
      apply (map_fst_seq_perm t).mem_iff.mp
      rw [hseq]
      simp only [List.map_append, List.map_cons, List.map_map, List.mem_append, List.mem_cons]
      exact .inr (.inr (List.mem_map_of_mem hy))
    obtain ⟨d, hwalk⟩ := stdRbtreeWalk_visits hs noCount hcells hstart
      (walkNode_place hs (fun _ _ => 0) noCount .inorderwalk hx hheading)
    have hsorted := hs.sorted
    rw [hseq, Sorted, List.pairwise_append, List.pairwise_cons] at hsorted
    have hbehind : (datas x.restIno).filter (fun d => rbtt.rbttCompare data d ≤ 0) =
        datas x.restIno := by
      rw [List.filter_eq_self]
      intro e he
      obtain ⟨y, hy, rfl⟩ := List.mem_map.mp he
      have hnext := hsorted.2.1.1 (y.1, y.2.data) (List.mem_map_of_mem hy)
      simpa using hcmp.trans _ _ _ hle hnext
    rw [hwalk, callsOf_zero, List.nil_append]
    refine iff_of_false ?_ (by rw [hseq]; simp)
    rintro ⟨d', heq⟩
    have hlen := congrArg List.length (Prod.mk.inj (Except.ok.inj heq)).2
    have hdatas : (x.restIno.map fun y => (y.1, y.2.data)).map Prod.snd = datas x.restIno := by
      rw [List.map_map]
      rfl
    rw [fromKey, hseq, List.map_append, List.map_cons, hdatas, List.filter_append,
      List.filter_cons_of_pos (by simpa using hle), hbehind, List.length_append, List.length_cons,
      List.length_take] at hlen
    change min _ (datas x.restIno).length = _ at hlen
    omega

/-- A walk in order from a key visits the elements from the key on only if the tree is empty. -/
theorem rbtree_walk_from_key_iff (cmp : Ptr → Ptr → Int) (hcmp : TotalPreorder cmp)
    (ops : List TreeOp) (hops : NonNull ops) :
    ∃ rbtt s, runAll (stdRbtreeCreate cmp) ops = .ok rbtt ∧ rbtt.inorder = .ok s ∧
      ∀ data : Ptr, data ≠ NULL →
        ((∃ d, rbtt.stdRbtreeWalk data (some fun _ _ => 0) 0 .inorderwalk =
          .ok (d, fromKey cmp data s)) ↔ s = []) := by
  obtain ⟨rbtt, t, hrun, hs, rfl⟩ := exists_sound hcmp _ hops
  exact ⟨rbtt, seq t, hrun, inorder_eq hs.shape, fun data hd => hs.walk_from_key_iff hcmp hd⟩

/-- In an empty tree a walk from the key 10 visits nothing, as it should. -/
theorem rbtree_walk_from_key_iff_sample : ∃ rbtt d,
    runAll (stdRbtreeCreate compareKeys) [] = .ok rbtt ∧
      rbtt.stdRbtreeWalk 10 (some fun _ _ => 0) 0 .inorderwalk = .ok (d, []) := by
  obtain ⟨rbtt, s, hrun, hs, hwalk⟩ := rbtree_walk_from_key_iff compareKeys
    totalPreorder_compareKeys [] (by simp [NonNull])
  have hinorder : (do (← runAll (stdRbtreeCreate compareKeys) []).inorder) = .ok [] := by
    decide +kernel
  rw [hrun, exec_bind_ok] at hinorder
  obtain rfl := Except.ok.inj (hs.symm.trans hinorder)
  obtain ⟨d, hcalls⟩ := (hwalk 10 (by decide)).mpr rfl
  exact ⟨rbtt, d, hrun, hcalls⟩

/-- In the tree of `distinctOps` a walk from the stored key 20 leaves 20 out, and a walk from 40,
above all keys, visits all elements. -/
theorem rbtree_walk_from_key_skips :
    (runAll (stdRbtreeCreate compareKeys) distinctOps >>= fun rbtt =>
      rbtt.stdRbtreeWalk 20 (some fun _ _ => 0) 0 .inorderwalk) = .ok (NULL, [30]) ∧
    (runAll (stdRbtreeCreate compareKeys) distinctOps >>= fun rbtt =>
      rbtt.stdRbtreeWalk 40 (some fun _ _ => 0) 0 .inorderwalk) = .ok (NULL, [10, 20, 30]) ∧
    ¬ ∃ rbtt s, runAll (stdRbtreeCreate compareKeys) distinctOps = .ok rbtt ∧
      rbtt.inorder = .ok s ∧ ∀ data : Ptr, data ≠ NULL →
        ∃ d, rbtt.stdRbtreeWalk data (some fun _ _ => 0) 0 .inorderwalk =
          .ok (d, fromKey compareKeys data s) := by
  have h20 : (runAll (stdRbtreeCreate compareKeys) distinctOps >>= fun rbtt =>
      rbtt.stdRbtreeWalk 20 (some fun _ _ => 0) 0 .inorderwalk) = .ok (NULL, [30]) := by
    decide +kernel
  have h40 : (runAll (stdRbtreeCreate compareKeys) distinctOps >>= fun rbtt =>
      rbtt.stdRbtreeWalk 40 (some fun _ _ => 0) 0 .inorderwalk) = .ok (NULL, [10, 20, 30]) := by
    decide +kernel
  refine ⟨h20, h40, ?_⟩
  rintro ⟨rbtt, s, hrun, hs, hwalk⟩
  have hinorder : (do (← runAll (stdRbtreeCreate compareKeys) distinctOps).inorder) =
      .ok [(5, 10), (7, 20), (3, 30)] := by decide +kernel
  rw [hrun, exec_bind_ok] at h20 hinorder
  obtain rfl := Except.ok.inj (hs.symm.trans hinorder)
  obtain ⟨d, hcalls⟩ := hwalk 20 (by decide)
  have heq := (Prod.mk.inj (Except.ok.inj (h20.symm.trans hcalls))).2
  exact absurd heq (by decide)

end OpxCommonUtils.RbTree
