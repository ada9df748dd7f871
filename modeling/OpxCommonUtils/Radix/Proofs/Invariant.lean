import OpxCommonUtils.Radix.Proofs.Lookup

/-!
# The representation invariant of the radix tree

What holds of every node of every table that calls lead to, spelled out for the node's own
fields and the heads below it (`NodeOk`), and what the counters of the table count.
-/

namespace OpxCommonUtils.Radix

open Tree Trie LinkTree

/-- The first `n` bits of the address of the head at a cell. -/
def headBits (heads : Ptr → RtHead) (x : Ptr × RtVal) (n : Nat) : Option (List Bool) :=
  (heads x.2.rth).rdxRthAddr.map fun a => firstBits (bitAt a) n

/-- The invariant of a node with children `l` and `r` in a table that stores `M`. -/
structure NodeOk (heads : Ptr → RtHead) (M : PrefixMap) (p : Ptr) (v : RtVal)
    (l r : Tree RtVal) : Prop where
  bit_lt : ∀ x ∈ l.pre ++ r.pre, v.bit < x.2.bit
  tbit : v.tbit = rnbit v.bit
  agree : ∃ K : List Bool, ∀ x ∈ (Tree.node p v l r).pre, x.2.rth ≠ NULL →
    headBits heads x v.bit = some K
  left : ∀ x ∈ l.pre, x.2.rth ≠ NULL →
    ∃ K : List Bool, headBits heads x (v.bit + 1) = some (K ++ [false])
  right : ∀ x ∈ r.pre, x.2.rth ≠ NULL →
    ∃ K : List Bool, headBits heads x (v.bit + 1) = some (K ++ [true])
  head : v.rth ≠ NULL →
    (heads v.rth).rthRtn = p ∧ ∃ K, K.length = v.bit ∧ headBits heads (p, v) v.bit = some K ∧
      M K = some v.rth
  glue : v.rth = NULL → l ≠ .nil ∧ r ≠ .nil

variable {rtt : RtTable} {t : Tree RtVal} {M : PrefixMap}

/-- The entries below a node give the bits of the heads below it. -/
theorem headBits_of_wf {heads : Ptr → RtHead} {k : List Bool} {s : Tree RtVal}
    (hwf : Wf (view heads) k s) (hlinked : ∀ x ∈ s.pre, Linked heads x) {x : Ptr × RtVal}
    (hx : x ∈ s.pre) (h0 : x.2.rth ≠ NULL) : headBits heads x k.length = some k := by
  obtain ⟨a, ha⟩ := (hlinked x hx).addr h0
  have hpre := (hwf.key_isPrefix (mem_entries.mpr ⟨hx, key_view_of_addr h0 ha⟩)).1
  rw [headBits, ha, Option.map_some, ← eq_firstBits_of_isPrefix hpre]

theorem Refines.nodeOk (h : Refines rtt t M) {c : List (Frame RtVal)} {p : Ptr} {v : RtVal}
    {l r : Tree RtVal} (heq : plug c (.node p v l r) = t) : NodeOk rtt.heads M p v l r := by
  obtain ⟨k, -, hwf⟩ := (heq.symm ▸ h.shape.wf).split
  obtain ⟨key, h1, h2, h3, h4, h5, h6⟩ := wf_node.mp hwf
  have hmem : ∀ x ∈ (Tree.node p v l r).pre, x ∈ t.pre := fun x hx => by
    rw [← heq, mem_pre_plug]
    exact .inl hx
  have hlinked : ∀ x ∈ (Tree.node p v l r).pre, Linked rtt.heads x :=
    fun x hx => h.shape.linked x (hmem x hx)
  have hl : ∀ x ∈ l.pre, x ∈ (Tree.node p v l r).pre := fun x hx => by simp [pre, hx]
  have hr : ∀ x ∈ r.pre, x ∈ (Tree.node p v l r).pre := fun x hx => by simp [pre, hx]
  have hself : (p, v) ∈ (Tree.node p v l r).pre := by simp [pre]
  have hwfkey : Wf (view rtt.heads) key (.node p v l r) :=
    .node (List.prefix_refl _) h2 h3 h4 h5 h6
  have hlen : key.length = v.bit := h2
  refine ⟨fun x hx => ?_, (hlinked _ hself).tbit, ⟨key, fun x hx h0 => ?_⟩, fun x hx h0 => ?_,
    fun x hx h0 => ?_, fun h0 => ?_, fun h0 => ?_⟩
  · rcases List.mem_append.mp hx with hx | hx
    · have := h5.length_le x hx
      simp only [List.length_append, List.length_singleton, len_view] at this
      omega
    · have := h6.length_le x hx
      simp only [List.length_append, List.length_singleton, len_view] at this
      omega
  · rw [← hlen]
    exact headBits_of_wf hwfkey hlinked hx h0
  · have := headBits_of_wf h5 (fun y hy => hlinked y (hl y hy)) hx h0
    rw [List.length_append, List.length_singleton, hlen] at this
    exact ⟨key, this⟩
  · have := headBits_of_wf h6 (fun y hy => hlinked y (hr y hy)) hx h0
    rw [List.length_append, List.length_singleton, hlen] at this
    exact ⟨key, this⟩
  · obtain ⟨K, hin, hM⟩ := h.exists_key (hmem _ hself) h0
    have hKlen := (h.shape.wf.key_isPrefix hin).2
    refine ⟨(hlinked _ hself).rtn h0, K, hKlen, ?_, hM⟩
    obtain ⟨a, ha⟩ := (hlinked _ hself).addr h0
    have hkey := (mem_entries.mp hin).2
    rw [key_view_of_addr h0 ha] at hkey
    rw [headBits, ha, ← hkey]
    rfl
  · exact h4 ((key_view_eq_none (hlinked _ hself)).mpr h0)

/-- The stored heads are the nodes with a head. -/
theorem Refines.length_entries (h : Refines rtt t M) :
    (entries (view rtt.heads) t).length = t.pre.countP (fun x => x.2.rth ≠ NULL) := by
  unfold entries
  rw [List.length_filterMap_eq_countP]
  refine List.countP_congr fun x hx => ?_
  rw [Option.isSome_map, Option.isSome_iff_ne_none, ne_eq,
    key_view_eq_none (h.shape.linked x hx), decide_eq_true_eq]

/-- The representation invariant of the radix tree, in every table that calls lead to: the nodes
form a tree whose links are consistent, every node meets `NodeOk`, the stored prefixes are those
of the nodes with a head, and the counters count nodes and heads. -/
theorem radix_invariant {maxaddrlen : Nat} (h : Reached maxaddrlen rtt M) :
    ∃ t, Holds rtt.nodes rtt.rttRoot t ∧
      (∀ p n, rtt.nodes.get p = some n → p ∈ t.ptrs) ∧
      (∀ c p v l r, plug c (.node p v l r) = t → NodeOk rtt.heads M p v l r) ∧
      (∀ K rth, M K = some rth ↔ rth ≠ NULL ∧
        ∃ x ∈ t.pre, x.2.rth = rth ∧ headBits rtt.heads x x.2.bit = some K) ∧
      rtt.rttInodes = t.size ∧ rtt.rttNmalloc - rtt.rttNfree = t.size ∧
      rtt.rttNfree ≤ rtt.rttNmalloc ∧
      rtt.rttRoutes = t.pre.countP (fun x => x.2.rth ≠ NULL) := by
  obtain ⟨t, ht, -⟩ := h.refines
  have halloc := ht.alloc
  refine ⟨t, ht.shape.holds, ht.shape.owned, fun c p v l r heq => ht.nodeOk heq,
    fun K rth => ⟨fun hK => ?_, ?_⟩, ht.inodes, by omega, by omega,
    ht.routes.trans ht.length_entries⟩
  · obtain ⟨x, hx, rfl⟩ := (ht.stored K rth).mp hK
    obtain ⟨hmem, hkey⟩ := mem_entries.mp hx
    have h0 := ht.ne_null hK
    obtain ⟨a, ha⟩ := (ht.shape.linked x hmem).addr h0
    rw [key_view_of_addr h0 ha] at hkey
    exact ⟨h0, x, hmem, rfl, by rw [headBits, ha]; exact hkey⟩
  · rintro ⟨h0, x, hx, rfl, hbits⟩
    obtain ⟨a, ha⟩ := (ht.shape.linked x hx).addr h0
    rw [headBits, ha] at hbits
    exact (ht.stored _ _).mpr
      ⟨x, mem_entries.mpr ⟨hx, (key_view_of_addr h0 ha).trans hbits⟩, rfl⟩

/-- 10/8 with 10.0/16 and 10.64/16 below it, which part at a node without a head. -/
def nestedOps : List TableOp := [
  .insert .above true 1 (fun i => if i = 0 then 10 else 0) 8,
  .insert .above true 2 (fun i => if i = 0 then 10 else 0) 16,
  .insert .above true 3 (fun i => if i = 0 then 10 else 64) 16]

theorem nestedOps_allowed : TableOp.AllAllowed 32 PrefixMap.empty nestedOps :=
  TableOp.allAllowed_inserts [(1, fun i => if i = 0 then 10 else 0, 8),
    (2, fun i => if i = 0 then 10 else 0, 16), (3, fun i => if i = 0 then 10 else 64, 16)]
    (by decide) (by decide) (by simp [PrefixMap.empty])

/-- The tree of `nestedOps` has four nodes and three of them have heads. -/
theorem radix_invariant_sample : ∃ rtt t, Holds rtt.nodes rtt.rttRoot t ∧
    Reached 32 rtt (TableOp.specAll PrefixMap.empty nestedOps).2 ∧ t.size = 4 ∧
    t.pre.countP (fun x => x.2.rth ≠ NULL) = 3 := by
  obtain ⟨rtt, hrun, h⟩ := (@Reached.create 32 true fun _ => default).runAll (by decide)
    nestedOps_allowed
  have hcounts : (TableOp.runAll (RtTable.stdRadixCreate 32 true fun _ => default)
      nestedOps).toOption.map (fun r => (r.2.rttInodes, r.2.rttRoutes)) = some (4, 3) := by
    decide +kernel
  rw [hrun] at hcounts
  obtain ⟨hsize, hcount⟩ := Prod.mk.inj (Option.some.inj hcounts)
  obtain ⟨t, hholds, -, -, -, hinodes, -, -, hroutes⟩ := radix_invariant h
  exact ⟨rtt, t, hholds, h, hinodes.symm.trans hsize, hroutes.symm.trans hcount⟩

end OpxCommonUtils.Radix
