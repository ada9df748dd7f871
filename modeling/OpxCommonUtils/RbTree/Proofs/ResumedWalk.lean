import OpxCommonUtils.RbTree.Proofs.WalkFrom

/-!
# Resumed walks

A walk in order hands back the node of its last call, and a walk from there goes on behind it. A
walk in preorder has gone on to the left child by then, if there is one: a walk from there goes on
behind the child, which gets no call. So resumed walks come to all elements if and only if no count
of a walk in preorder runs out at a node with a left child (`rbtree_resume_iff`).
-/

namespace OpxCommonUtils.RbTree

open OpxCommonUtils.Tree LinkTree RbtreeTable TreeOp

section
variable {rbtt : RbtreeTable} {t : Tree RbVal} {flag : WalkFlag} {counts : Nat → Int}

/-- Elements that compare equal are at one node. -/
theorem Distinct.unique {cmp : Ptr → Ptr → Int} (hcmp : TotalPreorder cmp)
    {s : List (Ptr × Ptr)} (hdist : Distinct cmp (s.map Prod.snd)) {x y : Ptr × Ptr}
    (hx : x ∈ s) (hy : y ∈ s) (heq : cmp x.2 y.2 = 0) : x = y := by
  by_contra hne
  have hsymm : Std.Symm fun x y : Ptr × Ptr => cmp x.2 y.2 ≠ 0 :=
    ⟨fun x y => mt hcmp.eq_comm.mp⟩
  exact (List.pairwise_map.mp hdist).forall hx hy hne heq

/-- A walk from a stored user node starts at its node. -/
theorem walkStart_stored (hs : Sound rbtt t) (hcmp : TotalPreorder rbtt.rbttCompare)
    (hdist : Distinct rbtt.rbttCompare ((seq t).map Prod.snd)) {p d : Ptr} (hmem : (p, d) ∈ seq t) :
    rbtt.walkStart d = .ok p := by
  have hd : d ≠ NULL := hs.stored (p, d) hmem
  obtain ⟨q, hstart, hq⟩ := getexactornextNode_spec hs hcmp hd
  rw [walkStart, if_pos hd, hstart]
  rcases hq with ⟨e, hstored, heq⟩ | ⟨xs, ys, hgap, -⟩
  · rw [(Prod.mk.inj (hdist.unique hcmp hmem hstored heq)).1]
  · -- the user node itself is neither smaller nor greater
    exfalso
    have hself := hcmp.refl d
    rw [hgap.split, List.mem_append] at hmem
    rcases hmem with hmem | hmem
    · exact absurd hself (hgap.smaller _ hmem).ne
    · exact absurd hself (hgap.greater _ hmem).ne

/-- The place of the tour is in the sequence. -/
theorem place_mem_seq {z : Place RbVal} (hz : z.whole = t) : (z.ptr, z.val.data) ∈ seq t := by
  rw [← hz, Place.whole, Place.here, seq_plug_node]
  simp

/-- What a walk from the user node `d` is to come to. -/
def WalkSource (t : Tree RbVal) (flag : WalkFlag) (d : Ptr) (xs : List Ptr) : Prop :=
  d = NULL ∧ xs = datas (cellsOf flag t) ∨
    ∃ z : Place RbVal, z.whole = t ∧ z.heading = .right ∧ z.val.data = d ∧
      xs = datas (toCome flag z)

/-- A walk may end at this user node: in preorder its node has no left child. -/
def EndsWell (rbtt : RbtreeTable) (t : Tree RbVal) (flag : WalkFlag) (d : Ptr) : Prop :=
  flag = .preorderwalk → ∀ p, (p, d) ∈ seq t → rbtt.child .left p = .ok NIL

/-- The cell of the `n`-th call. -/
theorem exists_nth {β : Type} {n : Nat} (hn : 0 < n) {cells : List β} (hle : n ≤ cells.length) :
    ∃ before cell after, cells = before ++ cell :: after ∧ before.length + 1 = n := by
  have hlt : n - 1 < cells.length := by omega
  refine ⟨cells.take (n - 1), cells[n - 1], cells.drop n, ?_, ?_⟩
  · have hdrop := List.drop_eq_getElem_cons hlt
    rw [Nat.sub_add_cancel hn] at hdrop
    rw [← hdrop, List.take_append_drop]
  · rw [List.length_take, min_eq_left hlt.le, Nat.sub_add_cancel hn]

/-- How a walk with `n` calls to make ends that is at a place of the tour: the node it stands at,
the user node handed back and the calls. -/
theorem visits_callEnds (flag : WalkFlag) (hs : Sound rbtt t) (hcmp : TotalPreorder rbtt.rbttCompare)
    (hdist : Distinct rbtt.rbttCompare ((seq t).map Prod.snd)) {x : Place RbVal} (hx : x.whole = t)
    {n : Nat} (hn : 0 < n) :
    ∃ y next calls, visits rbtt flag (fun _ _ => 0) n [] (toCome flag x) = (y, calls) ∧
      (y = NULL ∧ next = NULL ∨ (y, next) ∈ seq t) ∧
      CallEnds (EndsWell rbtt t flag) (WalkSource t flag) n (datas (toCome flag x)) next calls := by
  by_cases hlt : (toCome flag x).length < n
  · refine ⟨NULL, NULL, _, visits_all [] hlt, .inl ⟨rfl, rfl⟩, .all ?_⟩
    rwa [datas, List.length_map]
  · obtain ⟨before, cell, after, hsplit, hlen⟩ := exists_nth hn (Nat.le_of_not_lt hlt)
    have hdatas : datas (toCome flag x) = datas before ++ cell.2.data :: datas after := by
      rw [hsplit, datas, List.map_append]
      rfl
    have hbefore : (datas before).length + 1 = n := by rwa [datas, List.length_map]
    have hvisits := @visits_stop rbtt flag before after cell n [] hlen
    rw [← hsplit] at hvisits
    rw [hdatas]
    cases flag with
    | inorderwalk =>
      obtain ⟨z, hz, hheading, hcell, hafter⟩ := exists_stop_inorder x hsplit
      have hmem := place_mem_seq (hz.trans hx)
      obtain rfl := hcell
      refine ⟨_, z.val.data, _, hvisits, .inr hmem, .next hbefore ?_ (hs.stored _ hmem) ?_⟩
      · intro hpre
        cases hpre
      · exact .inr ⟨z, hz.trans hx, hheading, rfl, by rw [← hafter]; rfl⟩
    | preorderwalk =>
      obtain ⟨z, hz, hheading, hcell, hafter⟩ := exists_stop_preorder x hsplit
      have hzt := hz.trans hx
      have hmem := place_mem_seq hzt
      have hchild : rbtt.child .left z.ptr = .ok (z.left.root NIL) :=
        Shape.child_left (show Shape rbtt z.whole from hzt ▸ hs.shape)
      obtain rfl := hcell
      by_cases hleft : z.left = .nil
      · -- the walk stands at the node of its last call
        have hnil : rbtt.child .left z.ptr = .ok NIL := by rw [hchild, hleft, root_nil]
        refine ⟨z.ptr, z.val.data, _, ?_, .inr hmem, .next hbefore ?_ (hs.stored _ hmem) ?_⟩
        · rw [hvisits]
          simp only [stopNode, hnil, if_true]
          rfl
        · intro _ p hp
          obtain rfl : p = z.ptr := congrArg Prod.fst (hdist.unique hcmp hp hmem (hcmp.refl _))
          exact hnil
        · rw [Place.goLeft_nil hleft] at hafter
          exact .inr ⟨{ z with heading := .right }, hzt, rfl, rfl, by rw [← hafter]; rfl⟩
      · -- it has gone on to the left child
        obtain ⟨hptr, hdown⟩ := Place.goLeft_of_ne hleft NIL
        have hne : z.left.root NIL ≠ NIL := by
          rw [← hptr]
          exact Shape.ptr_ne_NIL (show Shape rbtt z.goLeft.whole from
            ((Place.whole_goLeft z).trans hzt) ▸ hs.shape)
        have hgot : z.goLeft.whole = t := (Place.whole_goLeft z).trans hzt
        have hmem' := place_mem_seq hgot
        refine ⟨z.goLeft.ptr, z.goLeft.val.data, _, ?_, .inr hmem', .short hbefore ?_ ?_ ?_⟩
        · rw [hvisits]
          simp only [stopNode, hchild, hne, if_false, hptr]
          rfl
        · intro hgood
          have heq := (hgood rfl _ hmem).symm.trans hchild
          exact hne (Except.ok.inj heq).symm
        · rw [← hafter, Place.rest_down hdown]
          simp [datas]
        · intro _
          refine ⟨_, .inr ⟨{ z.goLeft with heading := .right }, hgot, rfl, rfl, rfl⟩, ?_⟩
          have hle := (Place.rest_right_suffix z.goLeft).length_le
          rw [← hafter, Place.rest_down hdown, datas, datas, List.length_map, List.length_map,
            List.length_cons]
          exact Nat.lt_succ_of_le hle

theorem startCount_of_pos {cnt : Int} (hcnt : 0 < cnt) : startCount cnt = cnt.toNat :=
  if_neg hcnt.ne'

/-- How a walk from a user node ends that an earlier walk handed back. -/
theorem stdRbtreeWalk_callEnds (hs : Sound rbtt t) (hcmp : TotalPreorder rbtt.rbttCompare)
    (hdist : Distinct rbtt.rbttCompare ((seq t).map Prod.snd)) {cnt : Int}
    (hcnt : 0 < cnt ∧ cnt < 2 ^ 31) {d : Ptr} {xs : List Ptr} (hsource : WalkSource t flag d xs) :
    ∃ next calls, rbtt.stdRbtreeWalk d (some fun _ _ => 0) cnt flag = .ok (next, calls) ∧
      CallEnds (EndsWell rbtt t flag) (WalkSource t flag) cnt.toNat xs next calls := by
  have hpos : 0 < cnt.toNat := by omega
  have hrange : 0 ≤ cnt ∧ cnt < 2 ^ 31 := ⟨hcnt.1.le, hcnt.2⟩
  -- from the walk of the nodes to the user node handed back
  have hback : ∀ {p : Ptr} {x : Place RbVal}, x.whole = t → rbtt.walkStart d = .ok p →
      rbtt.walkNode p (some fun _ _ => 0) cnt flag =
        .ok (visits rbtt flag (fun _ _ => 0) cnt.toNat [] (toCome flag x)) →
      ∃ next calls, rbtt.stdRbtreeWalk d (some fun _ _ => 0) cnt flag = .ok (next, calls) ∧
        CallEnds (EndsWell rbtt t flag) (WalkSource t flag) cnt.toNat (datas (toCome flag x)) next
          calls := by
    intro p x hx hstart hwalk
    obtain ⟨y, next, calls, hvisits, hanswer, hends⟩ :=
      visits_callEnds flag hs hcmp hdist hx hpos
    rw [hvisits] at hwalk
    obtain ⟨hnull, hnode⟩ := stdRbtreeWalk_of_node hs hstart hwalk
    refine ⟨next, calls, ?_, hends⟩
    rcases hanswer with ⟨hy, rfl⟩ | hmem
    · exact hnull (.inl hy)
    · exact hnode _ hmem
  rcases hsource with ⟨rfl, rfl⟩ | ⟨z, hz, hheading, rfl, rfl⟩
  · have hstart := walkStart_null rbtt
    have hnone : cellsOf flag (.nil : Tree RbVal) = [] := by
      cases flag with
      | inorderwalk => rfl
      | preorderwalk => rfl
    rcases walkNode_null hs (fun _ _ => 0) hrange flag with ⟨rfl, hwalk⟩ | hwalk
    · rw [hnone]
      exact ⟨NULL, [], (stdRbtreeWalk_of_node hs hstart hwalk).1 (.inr rfl), .all hpos⟩
    · rw [startCount_of_pos hcnt.1] at hwalk
      cases t with
      | nil =>
        rw [hnone] at hwalk ⊢
        exact ⟨NULL, [], (stdRbtreeWalk_of_node hs hstart hwalk).1 (.inl rfl), .all hpos⟩
      | node p v l r =>
        rw [← toCome_root] at hwalk ⊢
        exact hback rfl hstart hwalk
  · have hstart := walkStart_stored hs hcmp hdist (place_mem_seq hz)
    have hwalk := walkNode_place hs (fun _ _ => 0) hrange flag hz hheading
    rw [startCount_of_pos hcnt.1] at hwalk
    exact hback hz hstart hwalk

/-- Resumed walks come to all elements if and only if none of them ends at a node whose left child
comes next. -/
theorem resume_walk_iff (hs : Sound rbtt t) (hcmp : TotalPreorder rbtt.rbttCompare)
    (hdist : Distinct rbtt.rbttCompare ((seq t).map Prod.snd)) (hcounts : Positive counts) :
    (∃ fuel, resume (fun k d => rbtt.stdRbtreeWalk d (some fun _ _ => 0) (counts k) flag) fuel 0
      NULL = .ok ((order flag t).map Prod.snd)) ↔
      ∀ k d, ((order flag t).map Prod.snd)[total counts (k + 1) - 1]? = some d →
        EndsWell rbtt t flag d := by
  have hcall : ∀ k d xs, WalkSource t flag d xs → ∃ next calls,
      rbtt.stdRbtreeWalk d (some fun _ _ => 0) (counts k) flag = .ok (next, calls) ∧
        CallEnds (EndsWell rbtt t flag) (WalkSource t flag) (counts k).toNat xs next calls := by
    intro k d xs hsource
    exact stdRbtreeWalk_callEnds hs hcmp hdist (hcounts k) hsource
  apply @resume_iff Ptr (EndsWell rbtt t flag) (WalkSource t flag) counts _ hcall
  exact .inl ⟨rfl, (datas_cellsOf flag t).symm⟩

theorem mem_order {x : Ptr × Ptr} : x ∈ order flag t ↔ x ∈ seq t := by
  cases flag with
  | inorderwalk => rfl
  | preorderwalk => exact (t.ino_perm_pre.map fun x => (x.1, x.2.data)).mem_iff.symm

/-- The condition in terms of the sequence. -/
theorem endsWell_iff (hcmp : TotalPreorder rbtt.rbttCompare)
    (hdist : Distinct rbtt.rbttCompare ((seq t).map Prod.snd)) (i : Nat → Nat) :
    (∀ k d, ((order flag t).map Prod.snd)[i k]? = some d → EndsWell rbtt t flag d) ↔
      (flag = .preorderwalk → ∀ k p d, (order flag t)[i k]? = some (p, d) →
        rbtt.child .left p = .ok NIL) := by
  constructor
  · intro hwell hpre k p d hget
    have hmem : (p, d) ∈ seq t := mem_order.mp (List.mem_of_getElem? hget)
    exact hwell k d (by rw [List.getElem?_map, hget]; rfl) hpre p hmem
  · intro hnone k d hget hpre p hmem
    rw [List.getElem?_map] at hget
    obtain ⟨⟨q, e⟩, hq, rfl⟩ := Option.map_eq_some_iff.mp hget
    have hqmem : (q, e) ∈ seq t := mem_order.mp (List.mem_of_getElem? hq)
    obtain rfl : p = q := congrArg Prod.fst (hdist.unique hcmp hmem hqmem (hcmp.refl e))
    exact hnone hpre k p e hq

end

/-! ## Result -/

/-- Walks that are resumed until `NULL` comes back visit the same elements as one walk, each once,
if and only if there are at most `0xffffffff` elements and no count of a walk in preorder runs out
at a node with a left child. -/
theorem rbtree_resume_iff (cmp : Ptr → Ptr → Int) (hcmp : TotalPreorder cmp) (ops : List TreeOp)
    (hops : NonNull ops) (flag : WalkFlag) :
    ∃ rbtt e s, runAll (stdRbtreeCreate cmp) ops = .ok rbtt ∧ rbtt.inorder = .ok e ∧
      rbtt.traversal flag = .ok s ∧ (Distinct cmp (e.map Prod.snd) →
        ∀ counts : Nat → Int, Positive counts →
          ((∃ fuel calls, resume (fun k d => rbtt.stdRbtreeWalk d (some fun _ _ => 0) (counts k) flag)
              fuel 0 NULL = .ok calls ∧
            (∃ d, rbtt.stdRbtreeWalk NULL (some fun _ _ => 0) 0 flag = .ok (d, calls)) ∧
            calls = s.map Prod.snd) ↔
          s.length ≤ 0xffffffff ∧ (flag = .preorderwalk → ∀ k p d,
            s[total counts (k + 1) - 1]? = some (p, d) → rbtt.child .left p = .ok NIL))) := by
  obtain ⟨rbtt, t, hrun, hs, rfl⟩ := exists_sound hcmp _ hops
  refine ⟨rbtt, seq t, order flag t, hrun, inorder_eq hs.shape, traversal_eq hs.shape flag, ?_⟩
  intro hdist counts hcounts
  obtain ⟨d, hone⟩ := stdRbtreeWalk_all hs (fun _ _ => 0) noCount flag
    (walkStart_null rbtt)
  rw [callsOf_zero, List.nil_append] at hone
  change rbtt.stdRbtreeWalk NULL (some fun _ _ => 0) 0 flag =
    .ok (d, ((order flag t).map Prod.snd).take 0xffffffff) at hone
  rw [← endsWell_iff hcmp hdist, ← resume_walk_iff hs hcmp hdist hcounts]
  constructor
  · rintro ⟨fuel, calls, hresume, ⟨d', hwalk⟩, rfl⟩
    have hlen := congrArg List.length (Prod.mk.inj (Except.ok.inj (hone.symm.trans hwalk))).2
    rw [List.length_take, List.length_map] at hlen
    exact ⟨by omega, fuel, hresume⟩
  · rintro ⟨hlen, fuel, hresume⟩
    rw [List.take_of_length_le (by rwa [List.length_map])] at hone
    exact ⟨fuel, _, hresume, ⟨d, hone⟩, rfl⟩

/-- In the tree of `distinctOps` walks in order with the counts 1, 1, … visit 10, 20 and 30. -/
theorem rbtree_resume_iff_sample : ∃ rbtt fuel,
    runAll (stdRbtreeCreate compareKeys) distinctOps = .ok rbtt ∧
      resume (fun _ d => rbtt.stdRbtreeWalk d (some fun _ _ => 0) 1 .inorderwalk) fuel 0 NULL =
        .ok [10, 20, 30] := by
  obtain ⟨rbtt, e, s, hrun, he, hs, hiff⟩ := rbtree_resume_iff compareKeys
    totalPreorder_compareKeys distinctOps (by simp [NonNull, distinctOps, TreeOp.data]) .inorderwalk
  have hinorder : (do (← runAll (stdRbtreeCreate compareKeys) distinctOps).inorder) =
      .ok [(5, 10), (7, 20), (3, 30)] := by decide +kernel
  rw [hrun, exec_bind_ok] at hinorder
  obtain rfl := Except.ok.inj (he.symm.trans hinorder)
  obtain rfl := Except.ok.inj (hs.symm.trans hinorder)
  have hcond := hiff (by simp [Distinct, compareKeys]) (fun _ => 1)
    (fun k => ⟨by simp, by simp⟩)
  obtain ⟨fuel, calls, hresume, -, rfl⟩ := hcond.mpr ⟨by decide, fun h => absurd h (by decide)⟩
  exact ⟨rbtt, fuel, hrun, hresume⟩

/-- In preorder the first walk with the count 1 ends at 20 and hands back 10, which then gets no
call. -/
theorem rbtree_resume_skips : ∃ rbtt,
    runAll (stdRbtreeCreate compareKeys) distinctOps = .ok rbtt ∧
      ¬ ∃ fuel calls, resume (fun _ d => rbtt.stdRbtreeWalk d (some fun _ _ => 0) 1 .preorderwalk)
          fuel 0 NULL = .ok calls ∧
        ∃ d, rbtt.stdRbtreeWalk NULL (some fun _ _ => 0) 0 .preorderwalk = .ok (d, calls) := by
  obtain ⟨rbtt, t, hrun, -⟩ := exists_sound totalPreorder_compareKeys distinctOps
    (by simp [NonNull, distinctOps, TreeOp.data])
  have hskips : (runAll (stdRbtreeCreate compareKeys) distinctOps >>= fun rbtt =>
      resume (fun _ d => rbtt.stdRbtreeWalk d (some fun _ _ => 0) 1 .preorderwalk) 3 0 NULL) =
      .ok [20, 30] := by decide +kernel
  have hone : (runAll (stdRbtreeCreate compareKeys) distinctOps >>= fun rbtt =>
      rbtt.stdRbtreeWalk NULL (some fun _ _ => 0) 0 .preorderwalk) = .ok (NULL, [20, 10, 30]) := by
    decide +kernel
  rw [hrun, exec_bind_ok] at hskips hone
  refine ⟨rbtt, hrun, ?_⟩
  rintro ⟨fuel, calls, hresume, d, hwalk⟩
  obtain rfl := resume_unique hskips hresume
  exact absurd (Prod.mk.inj (Except.ok.inj (hone.symm.trans hwalk))).2 (by decide)

end OpxCommonUtils.RbTree
