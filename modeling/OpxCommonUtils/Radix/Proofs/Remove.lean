import OpxCommonUtils.Radix.Proofs.Insert

/-!
# Removal keeps the shape of the table

`Pruned` lists what `_std_radix_remove` does to the tree around a node, with the node and the
direction it hands to a walker; `removeNode_spec` proves that it does so and keeps the shape of
the table, and `stdRadixRemove_spec` says what the caller of `std_radix_remove` sees of it.
-/

namespace OpxCommonUtils.Radix

open Tree Trie LinkTree

/-- Where a walker goes on after the child on side `s`, the root of `S`, was promoted. -/
def promoteRet (s : Side) (c : List (Frame RtVal)) (S : Tree RtVal) : Ptr × RtTable.Dir :=
  match s with
  | .left => (Ctx.top NULL c, .walkright)
  | .right => (S.root NULL, .walkdown)

/-- The effect of `_std_radix_remove` on a node with payload `v` and children `l` and `r` below
`c`: the tree that is left, the nodes that are freed, and what is returned when `*dir` was
`dir`. -/
inductive Pruned (dir : RtTable.Dir) (p : Ptr) (v : RtVal) :
    List (Frame RtVal) → Tree RtVal → Tree RtVal → Tree RtVal → List Ptr → Ptr × RtTable.Dir → Prop
  | keep {c : List (Frame RtVal)} {l r : Tree RtVal} : l ≠ .nil → r ≠ .nil →
      Pruned dir p v c l r (plug c (.node p { v with rth := NULL } l r)) []
        (Ctx.top NULL c, .walkup)
  | last : Pruned dir p v [] .nil .nil .nil [p] (NULL, dir)
  | leaf {f : Frame RtVal} {c : List (Frame RtVal)} : f.val.rth ≠ NULL →
      Pruned dir p v (f :: c) .nil .nil (plug (f :: c) .nil) [p]
        (f.ptr, if f.side = .left then .walkright else .walkup)
  | collapse {f : Frame RtVal} {c : List (Frame RtVal)} : f.val.rth = NULL → f.sib ≠ .nil →
      Pruned dir p v (f :: c) .nil .nil (plug c f.sib) [f.ptr, p] (promoteRet f.side.flip c f.sib)
  | promote {c : List (Frame RtVal)} {l r S : Tree RtVal} {s : Side} : S ≠ .nil →
      Tree.node p v l r = join s p v S .nil →
      Pruned dir p v c l r (plug c S) [p] (promoteRet s c S)

/-- The table with the nodes `ps` freed and the head `rth` released. -/
structure Freed (rtt rtt' : RtTable) (ps : List Ptr) (rth : Ptr) : Prop where
  inodes : ps.length ≤ rtt.rttInodes → rtt'.rttInodes + ps.length = rtt.rttInodes
  nmalloc : rtt'.rttNmalloc = rtt.rttNmalloc
  nfree : rtt'.rttNfree = rtt.rttNfree + ps.length
  config : SameConfig rtt rtt'
  heads : rtt'.heads = (rtt.releaseHead rth).heads
  clhead : rtt'.rttClhead = rtt.rttClhead
  dom : ∀ q, (rtt'.nodes.get q).isSome → (rtt.nodes.get q).isSome ∧ q ∉ ps

theorem releaseHead_fields (rtt : RtTable) (rth : Ptr) :
    (rtt.releaseHead rth).rttInodes = rtt.rttInodes ∧
      (rtt.releaseHead rth).rttNmalloc = rtt.rttNmalloc ∧
      (rtt.releaseHead rth).rttNfree = rtt.rttNfree ∧
      (rtt.releaseHead rth).rttRoutes = rtt.rttRoutes ∧
      (rtt.releaseHead rth).rttClhead = rtt.rttClhead ∧ SameConfig rtt (rtt.releaseHead rth) := by
  unfold RtTable.releaseHead
  split
  · exact ⟨rfl, rfl, rfl, rfl, rfl, rfl, rfl, rfl, rfl, rfl, rfl⟩
  · dsimp only
    split <;> exact ⟨rfl, rfl, rfl, rfl, rfl, rfl, rfl, rfl, rfl, rfl, rfl⟩

/-- The released heads depend on the heads there were. -/
theorem heads_releaseHead_congr (rtt rtt' : RtTable) (h : rtt'.heads = rtt.heads) (rth : Ptr) :
    (rtt'.releaseHead rth).heads = (rtt.releaseHead rth).heads := by
  unfold RtTable.releaseHead RtTable.setHead
  split
  · exact h
  · dsimp only
    split <;> split <;> simp [h]

/-- The only child of a node is promoted. -/
theorem promoteChild_spec {rtt : RtTable} {c : List (Frame RtVal)} {s : Side} {p : Ptr}
    {v : RtVal} {S : Tree RtVal} (ht : Holds rtt.nodes rtt.rttRoot (plug c (join s p v S .nil)))
    (hS : S ≠ .nil) (hlock : v.lock = 0) :
    ∃ rtt', RtTable.promoteChild rtt p =
        .ok ((promoteRet s c S).1, (promoteRet s c S).2, rtt') ∧
      Holds rtt'.nodes rtt'.rttRoot (plug c S) ∧ Freed rtt rtt' [p] v.rth ∧
      rtt'.rttRoutes = rtt.rttRoutes := by
  cases S with
  | nil => exact absurd rfl hS
  | node q w l r =>
  obtain ⟨hnd, -, hdisj⟩ := (nodup_plug _ _).mp ht.nodup
  obtain ⟨hc, hrep⟩ := (rep_plug _ c _).mp ht.rep
  obtain ⟨hp, hgetp, ⟨hq, hgetq, -, -⟩, -⟩ := (rep_join ..).mp hrep
  rw [root_join] at hc
  have hqp : q ≠ p := by
    rintro rfl
    have := (ptrs_join_perm ..).nodup_iff.mp hnd
    simp [ptrs] at this
  have hqc : q ∉ Ctx.ptrs c := fun hmem => hdisj (by simp [ptrs]) hmem
  have hpc : p ∉ Ctx.ptrs c := fun hmem => hdisj (by simp) hmem
  rw [nul_rtNode] at hq
  -- the child that is left and the return values
  have hrun : RtTable.promoteChild rtt p = (do
      let nodes ← rtt.nodes.update q fun m => { m with rtnParent := Ctx.top NULL c }
      let rtt ←
        if Ctx.top NULL c = NULL then pure { rtt with nodes := nodes, rttRoot := q }
        else do
          let nodes ← RtTable.replaceChild nodes .left (Ctx.top NULL c) p q
          pure { rtt with nodes := nodes }
      return ((promoteRet s c (.node q w l r)).1, (promoteRet s c (.node q w l r)).2,
        (rtt.releaseHead v.rth).freeNode p)) := by
    rw [RtTable.promoteChild, Heap.deref_ok hgetp, exec_bind_ok]
    cases s <;> simp [mkSide, cell_rtNode, hlock, hq, promoteRet]
  let h₁ := rtt.nodes.set q (NodeLayout.cell (l.root NULL) (r.root NULL) (Ctx.top NULL c) w)
  have hup : (rtt.nodes.update q fun m => { m with rtnParent := Ctx.top NULL c }) = .ok h₁ := by
    rw [Heap.update_ok hgetq]
    rfl
  rw [hup, exec_bind_ok] at hrun
  have hfinal : ∀ (h' : Heap RtNode) (root : Ptr), (∀ x, (h'.get x).isSome →
      (rtt.nodes.get x).isSome) → Freed rtt
        (({ rtt with nodes := h', rttRoot := root }.releaseHead v.rth).freeNode p) [p] v.rth ∧
      (({ rtt with nodes := h', rttRoot := root }.releaseHead v.rth).freeNode p).rttRoutes =
        rtt.rttRoutes ∧
      (({ rtt with nodes := h', rttRoot := root }.releaseHead v.rth).freeNode p).nodes =
        h'.erase p ∧
      (({ rtt with nodes := h', rttRoot := root }.releaseHead v.rth).freeNode p).rttRoot = root := by
    intro h' root hdom
    let rtt₂ : RtTable := { rtt with nodes := h', rttRoot := root }
    obtain ⟨hnodes, hroot, -⟩ := Shape.releaseHead_same rtt₂ v.rth
    obtain ⟨h1, h2, h3, h4, h5, h6⟩ := releaseHead_fields rtt₂ v.rth
    refine ⟨⟨fun hle => ?_, h2, congrArg (· + 1) h3, h6,
      heads_releaseHead_congr rtt rtt₂ rfl v.rth, h5, fun x hx => ?_⟩, h4,
      congrArg (Heap.erase · p) hnodes, hroot⟩
    · show ulongPred (rtt₂.releaseHead v.rth).rttInodes + 1 = rtt.rttInodes
      rw [h1]
      simp only [List.length_singleton] at hle
      show ulongPred rtt.rttInodes + 1 = rtt.rttInodes
      rw [ulongPred, if_neg (by omega)]
      omega
    · have hx' : (((rtt₂.releaseHead v.rth).nodes.erase p).get x).isSome := hx
      rw [hnodes] at hx'
      by_cases hxp : x = p
      · simp [hxp] at hx'
      · rw [Heap.get_erase_ne _ hxp] at hx'
        exact ⟨hdom x hx', by simpa using hxp⟩
  cases c with
  | nil =>
    obtain ⟨hfreed, hroutes, hnodes, hroot⟩ := hfinal h₁ q fun x hx => by
      by_cases hxq : x = q
      · rw [hxq, hgetq]
        rfl
      · rwa [Heap.get_set_ne _ _ hxq] at hx
    refine ⟨_, hrun, ?_, hfreed, hroutes⟩
    rw [hnodes, hroot]
    refine ht.promote ?_ (by simp) fun x _ hxp hxq _ => ?_
    · rintro q' w' l' r' heq
      obtain ⟨rfl, rfl, rfl, rfl⟩ := Tree.node.inj heq
      rw [Heap.get_erase_ne _ hqp, Heap.get_set_self]
      rfl
    · rw [root_node] at hxq
      rw [Heap.get_erase_ne _ hxp, Heap.get_set_ne _ _ hxq]
  | cons f c =>
    obtain ⟨hfne, hgf, -, -⟩ := hc
    have hfp : f.ptr ≠ p := fun heq => hpc (by simp [heq])
    have hfq : f.ptr ≠ q := fun heq => hqc (by simp [heq])
    have hgf₁ : h₁.get f.ptr = some (mkSide f.side p (f.sib.root NULL) (Ctx.top NULL c) f.val) := by
      rw [Heap.get_set_ne _ _ hfq, hgf]
      rfl
    have hsibp : f.sib.root NULL ≠ p := by
      intro heq
      by_cases hnil : f.sib = .nil
      · rw [hnil] at heq
        exact hp heq.symm
      · refine hpc ?_
        rw [← heq]
        simp [root_mem_ptrs _ hnil]
    rw [nul_rtNode] at hfne
    rw [Ctx.top_cons, if_neg hfne, replaceChild_spec _ hgf₁ hsibp] at hrun
    let h₂ := h₁.set f.ptr (mkSide f.side q (f.sib.root NULL) (Ctx.top NULL c) f.val)
    obtain ⟨hfreed, hroutes, hnodes, hroot⟩ := hfinal h₂ rtt.rttRoot fun x hx => by
      by_cases hxf : x = f.ptr
      · rw [hxf, hgf]
        rfl
      · rw [Heap.get_set_ne _ _ hxf] at hx
        by_cases hxq : x = q
        · rw [hxq, hgetq]
          rfl
        · rwa [Heap.get_set_ne _ _ hxq] at hx
    refine ⟨_, hrun, ?_, hfreed, hroutes⟩
    rw [hnodes, hroot]
    refine ht.promote ?_ ?_ fun x _ hxp hxq hxf => ?_
    · rintro q' w' l' r' heq
      obtain ⟨rfl, rfl, rfl, rfl⟩ := Tree.node.inj heq
      rw [Heap.get_erase_ne _ hqp, Heap.get_set_ne _ _ hfq.symm, Heap.get_set_self]
      rfl
    · intro g d heq
      obtain ⟨rfl, rfl⟩ := List.cons.inj heq
      rw [Heap.get_erase_ne _ hfp, Heap.get_set_self]
      rfl
    · rw [root_node] at hxq
      rw [Ctx.top_cons] at hxf
      rw [Heap.get_erase_ne _ hxp, Heap.get_set_ne _ _ hxf, Heap.get_set_ne _ _ hxq]

/-- Nodes freed one after the other; the second one had no head. -/
theorem Freed.trans {rtt rtt' rtt'' : RtTable} {p q rth : Ptr} (h : Freed rtt rtt' [p] rth)
    (h' : Freed rtt' rtt'' [q] NULL) : Freed rtt rtt'' [q, p] rth where
  inodes hle := by
    have h1 := h.inodes (by simp only [List.length_cons] at hle ⊢; omega)
    have h2 := h'.inodes (by simp only [List.length_cons, List.length_nil] at *; omega)
    simp only [List.length_cons, List.length_nil] at *
    omega
  nmalloc := h'.nmalloc.trans h.nmalloc
  nfree := by
    rw [h'.nfree, h.nfree]
    rfl
  config := by
    obtain ⟨a1, a2, a3, a4, a5, a6⟩ := h.config
    obtain ⟨b1, b2, b3, b4, b5, b6⟩ := h'.config
    exact ⟨b1.trans a1, b2.trans a2, b3.trans a3, b4.trans a4, b5.trans a5, b6.trans a6⟩
  heads := by
    rw [← h.heads, h'.heads]
    rfl
  clhead := h'.clhead.trans h.clhead
  dom x hx := by
    obtain ⟨h1, h2⟩ := h'.dom x hx
    obtain ⟨h3, h4⟩ := h.dom x h1
    simp only [List.mem_singleton] at h2 h4
    simp [h2, h3, h4]

/-- The table after a node was freed whose head is released. -/
theorem freed_node {rtt : RtTable} (rtt' : RtTable) {p rth : Ptr} (h' : Heap RtNode) {root : Ptr}
    (hrtt : rtt' = { (rtt.releaseHead rth).freeNode p with nodes := h', rttRoot := root })
    (hdom : ∀ x, (h'.get x).isSome → (rtt.nodes.get x).isSome ∧ x ≠ p) :
    Freed rtt rtt' [p] rth ∧ rtt'.rttRoutes = rtt.rttRoutes := by
  obtain ⟨h1, h2, h3, h4, h5, h6⟩ := releaseHead_fields rtt rth
  subst hrtt
  refine ⟨⟨fun hle => ?_, h2, congrArg (· + 1) h3, h6, rfl, h5, fun x hx => ?_⟩, h4⟩
  · show ulongPred (rtt.releaseHead rth).rttInodes + 1 = rtt.rttInodes
    rw [h1]
    simp only [List.length_singleton] at hle
    rw [ulongPred, if_neg (by omega)]
    omega
  · simpa using hdom x hx

/-- A leaf is removed, and its parent is promoted away when it is left without a head. -/
theorem removeLeaf_spec (rtt : RtTable) {c : List (Frame RtVal)} {p : Ptr} {v : RtVal}
    (dir : RtTable.Dir) (ht : Holds rtt.nodes rtt.rttRoot (plug c (.node p v .nil .nil)))
    (hpar : ∀ f d, c = f :: d → f.val.rth = NULL → f.sib ≠ .nil ∧ f.val.lock = 0) :
    ∃ t' ps ret rtt', Pruned dir p v c .nil .nil t' ps ret ∧
      RtTable.removeLeaf rtt p dir = .ok (ret.1, ret.2, rtt') ∧
      Holds rtt'.nodes rtt'.rttRoot t' ∧ Freed rtt rtt' ps v.rth ∧
      rtt'.rttRoutes = rtt.rttRoutes := by
  obtain ⟨-, -, hdisj⟩ := (nodup_plug _ _).mp ht.nodup
  obtain ⟨hc, hp, hgetp, -, -⟩ := (rep_plug _ c _).mp ht.rep
  obtain ⟨hnodes, hroot, -⟩ := Shape.releaseHead_same rtt v.rth
  have hpc : p ∉ Ctx.ptrs c := fun hmem => hdisj (by simp [ptrs]) hmem
  have hnodes₁ : ((rtt.releaseHead v.rth).freeNode p).nodes = rtt.nodes.erase p :=
    congrArg (Heap.erase · p) hnodes
  cases c with
  | nil =>
    have hrun : RtTable.removeLeaf rtt p dir =
        .ok (NULL, dir, { (rtt.releaseHead v.rth).freeNode p with rttRoot := NULL }) := by
      rw [RtTable.removeLeaf, Heap.deref_ok hgetp, exec_bind_ok]
      rfl
    obtain ⟨hfreed, hroutes⟩ := freed_node _ (rtt.nodes.erase p) (p := p)
      (by rw [← hnodes₁]) fun x hx => by
        by_cases hxp : x = p
        · simp [hxp] at hx
        · exact ⟨by rwa [Heap.get_erase_ne _ hxp] at hx, hxp⟩
    exact ⟨.nil, [p], (NULL, dir), _, .last, hrun, ⟨rfl, trivial, by simp⟩, hfreed, hroutes⟩
  | cons f c =>
    obtain ⟨hfne, hgf, -, -⟩ := hc
    rw [nul_rtNode] at hfne
    have hfp : f.ptr ≠ p := fun heq => hpc (by simp [heq])
    have hsibp : f.sib.root NULL ≠ p := by
      intro heq
      by_cases hnil : f.sib = .nil
      · rw [hnil] at heq
        exact hp heq.symm
      · refine hpc ?_
        rw [← heq]
        simp [root_mem_ptrs _ hnil]
    have hgf₁ : (rtt.nodes.erase p).get f.ptr =
        some (mkSide f.side p (f.sib.root NULL) (Ctx.top NULL c) f.val) := by
      rw [Heap.get_erase_ne _ hfp, hgf]
      rfl
    let h₂ := (rtt.nodes.erase p).set f.ptr
      (mkSide f.side NULL (f.sib.root NULL) (Ctx.top NULL c) f.val)
    let rtt₂ : RtTable := { (rtt.releaseHead v.rth).freeNode p with nodes := h₂ }
    have hdir : (if (mkSide f.side p (f.sib.root NULL) (Ctx.top NULL c) f.val : RtNode).rtnLeft = p
        then RtTable.Dir.walkright else .walkup) =
        if f.side = .left then RtTable.Dir.walkright else .walkup := by
      cases f.side <;> simp [mkSide, cell_rtNode, hsibp]
    have hrth : (mkSide f.side p (f.sib.root NULL) (Ctx.top NULL c) f.val : RtNode).rtnRth =
        f.val.rth := by
      cases f.side <;> rfl
    have hrun : RtTable.removeLeaf rtt p dir =
        if f.val.rth ≠ NULL then
          .ok (f.ptr, if f.side = .left then .walkright else .walkup, rtt₂)
        else RtTable.promoteChild rtt₂ f.ptr := by
      rw [RtTable.removeLeaf, Heap.deref_ok hgetp, exec_bind_ok]
      simp only [cell_rtNode, Ctx.top_cons, hfne, if_false, hnodes₁, Heap.deref_ok hgf₁,
        exec_bind_ok, replaceChild_spec _ hgf₁ hsibp, hdir, hrth]
      by_cases h0 : f.val.rth = NULL <;> simp [h0, rtt₂, h₂]
    have hholds₂ : Holds rtt₂.nodes rtt₂.rttRoot (plug (f :: c) .nil) := by
      have hroot₂ : rtt₂.rttRoot = rtt.rttRoot := hroot
      rw [hroot₂]
      exact ht.detach
    obtain ⟨hfreed, hroutes⟩ := freed_node rtt₂ _ (p := p) rfl fun x hx => by
        by_cases hxf : x = f.ptr
        · rw [hxf, hgf]
          exact ⟨rfl, hfp⟩
        · rw [Heap.get_set_ne _ _ hxf] at hx
          by_cases hxp : x = p
          · simp [hxp] at hx
          · exact ⟨by rwa [Heap.get_erase_ne _ hxp] at hx, hxp⟩
    by_cases h0 : f.val.rth = NULL
    · obtain ⟨hsib, hlock⟩ := hpar f c rfl h0
      rw [if_neg (by simpa using h0)] at hrun
      rw [plug_cons, ← join_flip] at hholds₂
      obtain ⟨rtt', hrun', hholds', hfreed', hroutes'⟩ := promoteChild_spec hholds₂ hsib hlock
      rw [h0] at hfreed'
      exact ⟨_, _, _, rtt', .collapse h0 hsib, hrun.trans hrun', hholds', hfreed.trans hfreed',
        hroutes'.trans hroutes⟩
    · rw [if_pos h0] at hrun
      exact ⟨_, _, _, rtt₂, .leaf h0, hrun, hholds₂, hfreed, hroutes⟩

/-! ## What is left of the tree -/

namespace Pruned

variable {dir : RtTable.Dir} {p : Ptr} {v : RtVal} {c : List (Frame RtVal)}
  {l r t' : Tree RtVal} {ps : List Ptr} {ret : Ptr × RtTable.Dir}

theorem ptrs_perm (h : Pruned dir p v c l r t' ps ret) :
    (plug c (.node p v l r)).ptrs.Perm (ps ++ t'.ptrs) := by
  cases h with
  | keep => exact ptrs_plug_perm_of (List.Perm.refl _)
  | last => exact List.Perm.refl _
  | leaf => exact ptrs_plug_perm_of (List.Perm.refl _)
  | @collapse f c h0 hsib =>
    rw [plug_cons]
    refine ptrs_plug_perm_of ?_
    exact ptrs_join_perm ..
  | promote hS heq =>
    refine ptrs_plug_perm_of ?_
    rw [heq]
    simpa using ptrs_join_perm _ p v _ (.nil : Tree RtVal)

theorem size_eq (h : Pruned dir p v c l r t' ps ret) :
    t'.size + ps.length = (plug c (.node p v l r)).size := by
  rw [← length_ptrs, ← length_ptrs, h.ptrs_perm.length_eq, List.length_append, Nat.add_comm]

/-- The cells that are left were there before, except that the node itself may stay without its
head. -/
theorem mem_pre (h : Pruned dir p v c l r t' ps ret)
    (hnd : (plug c (.node p v l r)).ptrs.Nodup) {x : Ptr × RtVal} (hx : x ∈ t'.pre) :
    x = (p, { v with rth := NULL }) ∨ x ∈ (plug c (.node p v l r)).pre ∧ x.1 ≠ p := by
  have hps : p ∈ ps → x.1 ≠ p := by
    rintro hp rfl
    have hnd' := h.ptrs_perm.nodup_iff.mp hnd
    refine (List.nodup_append'.mp hnd').2.2 hp ?_
    rw [← map_fst_pre]
    exact List.mem_map_of_mem (f := Prod.fst) hx
  cases h with
  | keep => exact mem_pre_of_setVal hnd hx
  | last => simp [pre] at hx
  | leaf =>
    refine .inr ⟨?_, hps (by simp)⟩
    rw [mem_pre_plug] at hx ⊢
    exact .inr (hx.resolve_left (by simp [pre]))
  | @collapse f c h0 hsib =>
    refine .inr ⟨?_, hps (by simp)⟩
    rw [plug_cons, mem_pre_plug, mem_pre_join]
    rw [mem_pre_plug] at hx
    tauto
  | promote hS heq =>
    refine .inr ⟨?_, hps (by simp)⟩
    rw [heq, mem_pre_plug, mem_pre_join]
    rw [mem_pre_plug] at hx
    tauto

theorem wf {heads : Ptr → RtHead} (h : Pruned dir p v c l r t' ps ret)
    (hwf : Wf (view heads) [] (plug c (.node p v l r)))
    (hlinked : ∀ x ∈ (plug c (.node p v l r)).pre, Linked heads x) : Wf (view heads) [] t' := by
  obtain ⟨k, hc, ht⟩ := hwf.split
  cases h with
  | keep hl hr =>
    obtain ⟨key, h1, h2, -, -, h5, h6⟩ := wf_node.mp ht
    refine hc.plug (.node h1 h2 ?_ (fun _ => ⟨hl, hr⟩) h5 h6) (by simp)
    simp [view]
  | last => exact .nil
  | @leaf f c h0 =>
    refine hc.plug_empty ((key_view_eq_none (x := (f.ptr, f.val)) (hlinked _ ?_)).not.mpr h0)
    exact Shape.mem_pre_of_frame List.mem_cons_self
  | collapse h0 hsib =>
    cases hc with
    | cons hc h1 h2 h3 h4 h5 => exact hc.plug (h5.weaken (h1.trans (List.prefix_append _ _))) hsib
  | promote hS heq =>
    rw [heq] at ht
    obtain ⟨key, h1, -, -, -, h5, -⟩ := wf_join.mp ht
    exact hc.plug (h5.weaken (h1.trans (List.prefix_append _ _))) hS

theorem entries_perm (heads : Ptr → RtHead) (h : Pruned dir p v c l r t' ps ret) :
    (entries (view heads) (plug c (.node p v l r))).Perm
      ((((view heads).key v).map fun k => (k, p, v)).toList ++ entries (view heads) t') := by
  cases h with
  | keep hl hr =>
    refine entries_plug_perm _ ?_
    rw [entries_node, entries_node, List.append_assoc]
    simp [view]
  | last => simp [entries_node]
  | leaf =>
    refine entries_plug_perm _ ?_
    simp [entries_node]
  | @collapse f c h0 hsib =>
    rw [plug_cons]
    refine entries_plug_perm _ ((entries_join_perm _ _ _ _ _).trans ?_)
    have hnone : (view heads).key f.val = none := by simp [view, h0]
    simp [hnone, entries_node p]
  | promote hS heq =>
    refine entries_plug_perm _ ?_
    rw [heq]
    simpa using entries_join_perm _ p v _ (.nil : Tree RtVal)

end Pruned

/-! ## The removal -/

namespace Shape

variable {rtt rtt' : RtTable} {t : Tree RtVal}

/-- A table from which a node was pruned and its head released has the pruned shape. -/
theorem pruned (hs : Shape rtt t) {dir : RtTable.Dir} {p : Ptr} {v : RtVal}
    {c : List (Frame RtVal)} {l r t' : Tree RtVal} {ps : List Ptr} {ret : Ptr × RtTable.Dir}
    (heq : plug c (.node p v l r) = t) (h : Pruned dir p v c l r t' ps ret)
    (hholds : Holds rtt'.nodes rtt'.rttRoot t') (hfreed : Freed rtt rtt' ps v.rth) :
    Shape rtt' t' ∧ entries (view rtt'.heads) t' = entries (view rtt.heads) t' := by
  subst heq
  have hmem : (p, v) ∈ (plug c (.node p v l r)).pre := by
    rw [mem_pre_plug]
    simp [pre]
  have hold : ∀ x ∈ t'.pre, x.2.rth ≠ NULL →
      x ∈ (plug c (.node p v l r)).pre ∧ rtt'.heads x.2.rth = rtt.heads x.2.rth := by
    intro x hx h0
    rcases h.mem_pre hs.holds.nodup hx with rfl | ⟨hx, hxp⟩
    · exact absurd rfl h0
    · refine ⟨hx, ?_⟩
      rw [hfreed.heads, heads_releaseHead]
      exact fun hxv => hxp (congrArg Prod.fst (hs.rth_inj hx hmem h0 hxv))
  have hkey : ∀ x ∈ t'.pre, (view rtt'.heads).key x.2 = (view rtt.heads).key x.2 := by
    intro x hx
    by_cases h0 : x.2.rth = NULL
    · simp [view, h0]
    · simp only [view, (hold x hx h0).2]
  refine ⟨⟨hholds, (h.wf hs.wf hs.linked).congr (fun _ _ => rfl) hkey, fun x hx => ⟨?_, ?_, ?_⟩,
    fun q n hq => ?_⟩, entries_congr hkey⟩
  · rcases h.mem_pre hs.holds.nodup hx with rfl | ⟨hx, -⟩
    · exact (hs.linked _ hmem).tbit
    · exact (hs.linked x hx).tbit
  · intro h0
    obtain ⟨hx', hheads⟩ := hold x hx h0
    rw [hheads]
    exact (hs.linked x hx').addr h0
  · intro h0
    obtain ⟨hx', hheads⟩ := hold x hx h0
    rw [hheads]
    exact (hs.linked x hx').rtn h0
  · obtain ⟨hlive, hps⟩ := hfreed.dom q (by simp [hq])
    obtain ⟨m, hm⟩ := Option.isSome_iff_exists.mp hlive
    have := h.ptrs_perm.mem_iff.mp (hs.owned q m hm)
    exact (List.mem_append.mp this).resolve_left hps

/-- `_std_radix_remove` of an unlocked node, whose parent is not locked either when it would go
too. -/
theorem removeNode_spec (hs : Shape rtt t) {p : Ptr} {v : RtVal} {c : List (Frame RtVal)}
    {l r : Tree RtVal} (dir : RtTable.Dir) (heq : plug c (.node p v l r) = t)
    (hlock : v.lock = 0)
    (hpar : ∀ f d, c = f :: d → f.val.rth = NULL → l = .nil → r = .nil → f.val.lock = 0) :
    ∃ t' ps ret rtt', Pruned dir p v c l r t' ps ret ∧
      RtTable.removeNode rtt p dir = .ok (ret.1, ret.2, rtt') ∧ Shape rtt' t' ∧
      entries (view rtt'.heads) t' = entries (view rtt.heads) t' ∧ Freed rtt rtt' ps v.rth ∧
      rtt'.rttRoutes = ulongPred rtt.rttRoutes := by
  have hget := hs.get_node heq
  have hp : p ≠ NULL := hs.ptr_ne_null (by rw [← heq, mem_ptrs_plug]; simp [ptrs])
  have hl : l.root NULL = NULL ↔ l = .nil :=
    hs.root_of_subtree (c := ⟨.left, p, v, r⟩ :: c) heq
  have hr : r.root NULL = NULL ↔ r = .nil :=
    hs.root_of_subtree (c := ⟨.right, p, v, l⟩ :: c) heq
  let rtt₁ : RtTable := { rtt with rttRoutes := ulongPred rtt.rttRoutes }
  have hrun : RtTable.removeNode rtt p dir =
      if l ≠ .nil ∧ r ≠ .nil then do
        let nodes ← (rtt₁.releaseHead v.rth).nodes.update p fun m => { m with rtnRth := NULL }
        return (Ctx.top NULL c, .walkup, { rtt₁.releaseHead v.rth with nodes := nodes })
      else if l = .nil ∧ r = .nil then RtTable.removeLeaf rtt₁ p dir
      else RtTable.promoteChild rtt₁ p := by
    have hassert : assertThat (p != NULL) = .ok () := by
      rw [bne_iff_ne.mpr hp, assertThat_true]
    rw [RtTable.removeNode, hassert, exec_bind_ok, Heap.deref_ok hget, exec_bind_ok]
    simp only [cell_rtNode, hlock, beq_self_eq_true, assertThat_true, exec_bind_ok]
    by_cases hl0 : l = .nil <;> by_cases hr0 : r = .nil <;> simp [hl, hr, hl0, hr0, rtt₁]
  -- what the three branches do, for the table whose routes are counted down
  have hfinish : ∀ {t' ps ret rtt'}, Pruned dir p v c l r t' ps ret →
      RtTable.removeNode rtt p dir = .ok (ret.1, ret.2, rtt') → Holds rtt'.nodes rtt'.rttRoot t' →
      Freed rtt₁ rtt' ps v.rth → rtt'.rttRoutes = rtt₁.rttRoutes →
      ∃ t' ps ret rtt', Pruned dir p v c l r t' ps ret ∧
        RtTable.removeNode rtt p dir = .ok (ret.1, ret.2, rtt') ∧ Shape rtt' t' ∧
        entries (view rtt'.heads) t' = entries (view rtt.heads) t' ∧ Freed rtt rtt' ps v.rth ∧
        rtt'.rttRoutes = ulongPred rtt.rttRoutes := by
    intro t' ps ret rtt' hpr hres hholds hfreed hroutes
    have hfreed' : Freed rtt rtt' ps v.rth :=
      ⟨hfreed.inodes, hfreed.nmalloc, hfreed.nfree, hfreed.config,
        hfreed.heads.trans (heads_releaseHead_congr rtt rtt₁ rfl v.rth),
        hfreed.clhead, hfreed.dom⟩
    obtain ⟨hshape, hents⟩ := hs.pruned heq hpr hholds hfreed'
    exact ⟨t', ps, ret, rtt', hpr, hres, hshape, hents, hfreed', hroutes⟩
  by_cases hboth : l ≠ .nil ∧ r ≠ .nil
  · rw [if_pos hboth] at hrun
    obtain ⟨hnodes, hroot, -⟩ := releaseHead_same rtt₁ v.rth
    obtain ⟨h1, h2, h3, h4, h5, h6⟩ := releaseHead_fields rtt₁ v.rth
    have hget₁ : (rtt₁.releaseHead v.rth).nodes.get p = some (NodeLayout.cell (l.root NULL)
        (r.root NULL) (Ctx.top NULL c) v) := by
      rw [hnodes]
      exact hget
    rw [Heap.update_ok hget₁, exec_bind_ok] at hrun
    refine hfinish (.keep hboth.1 hboth.2) hrun ?_ ?_ h4
    · show Holds ((rtt₁.releaseHead v.rth).nodes.set p _) (rtt₁.releaseHead v.rth).rttRoot _
      rw [hnodes, hroot]
      exact Holds.setVal (v := v) (heq.symm ▸ hs.holds) { v with rth := NULL }
    · refine ⟨fun _ => h1, h2, h3, h6, rfl, h5, fun q hq => ⟨?_, by simp⟩⟩
      by_cases hqp : q = p
      · show (rtt.nodes.get q).isSome
        rw [hqp, hget]
        rfl
      · have hq' : (((rtt₁.releaseHead v.rth).nodes.set p _).get q).isSome := hq
        rwa [Heap.get_set_ne _ _ hqp, hnodes] at hq'
  · rw [if_neg hboth] at hrun
    by_cases hleaf : l = .nil ∧ r = .nil
    · obtain ⟨rfl, rfl⟩ := hleaf
      rw [if_pos ⟨rfl, rfl⟩] at hrun
      obtain ⟨t', ps, ret, rtt', hpr, hres, hholds, hfreed, hroutes⟩ :=
        removeLeaf_spec rtt₁ (v := v) (c := c) (p := p) dir (heq.symm ▸ hs.holds) (by
          rintro f d rfl h0
          refine ⟨?_, hpar f d rfl h0 rfl rfl⟩
          obtain ⟨k, hc, -⟩ := (heq.symm ▸ hs.wf : Wf _ [] (plug (f :: d) _)).split
          cases hc with
          | cons _ _ _ _ h4 _ =>
            refine h4 ((key_view_eq_none (x := (f.ptr, f.val)) ?_).mpr h0)
            exact hs.linked_frame heq List.mem_cons_self)
      exact hfinish hpr (hrun.trans hres) hholds hfreed hroutes
    · rw [if_neg hleaf] at hrun
      have hone : ∃ s S, S ≠ .nil ∧ Tree.node p v l r = join s p v S .nil := by
        by_cases hl0 : l = .nil
        · exact ⟨.right, r, fun hr0 => hleaf ⟨hl0, hr0⟩, by rw [hl0]; rfl⟩
        · refine ⟨.left, l, hl0, ?_⟩
          have hr0 : r = .nil := by
            by_contra hr0
            exact hboth ⟨hl0, hr0⟩
          rw [hr0]
          rfl
      obtain ⟨s, S, hS, hjoin⟩ := hone
      have hholds : Holds rtt₁.nodes rtt₁.rttRoot (plug c (join s p v S .nil)) := by
        rw [← hjoin, heq]
        exact hs.holds
      obtain ⟨rtt', hres, hholds', hfreed, hroutes⟩ := promoteChild_spec hholds hS hlock
      exact hfinish (.promote hS hjoin) (hrun.trans hres) hholds' hfreed hroutes

end Shape

end OpxCommonUtils.Radix
