import OpxCommonUtils.Radix.Print
import OpxCommonUtils.Radix.Proofs.ManyHeads
import OpxCommonUtils.RbTree.Proofs.Print

/-!
# Printing a radix tree

The arrays of `std_radix_print` are long enough just for the trees in which no node lies deeper
than 84. What its guard bounds is the number of nodes, and every nested prefix puts the tree one
node deeper: the 86 prefixes of one address of up to 85 bits make a tree of at most 171 nodes that
is too deep. `std_rbtree_print` is its twin.
-/

namespace OpxCommonUtils.Radix

open Tree LinkTree TreePrint Trie RtTable

variable {rtt : RtTable} {t t' : Tree RtVal} {M : PrefixMap}

/-- The children of a held tree. -/
theorem links_of_holds (ht : Holds rtt.nodes rtt.rttRoot t) : Links NULL rtt.child t := by
  refine links_of_rep (fun hget => ?_) ht.rep
  rw [child, child, Heap.deref_ok hget]
  exact ⟨rfl, rfl⟩

/-- Both arrays are long enough just when no node lies deeper than 84. -/
theorem stdRadixPrint_iff (ht : Holds rtt.nodes rtt.rttRoot t)
    (hsmall : rtt.rttInodes ≤ stdRadixMaxprint) :
    InArrays MAXDEPTH rtt.stdRadixPrint ↔ t.height ≤ 85 := by
  have hroot : rtt.rttRoot = t.root NULL := ht.root_eq
  have hsize := ht.size_le
  by_cases hne : t = .nil
  · rw [stdRadixPrint, TreePrint.print_iff (by decide) hsmall, hroot, hne]
    simp [height]
  · have hnull : t.root NULL ≠ NULL := fun h => hne ((ht.root_eq_nul (c := [])).mp h)
    rw [stdRadixPrint, hroot, (links_of_holds ht).print_iff hne (by decide) hsmall hnull
      (by omega), MAXDEPTH]
    omega

/-! ## Nested prefixes -/

/-- The prefixes of one address. -/
def nested (n : Nat) : List Bool := firstBits (bitAt fun _ => 0) n

theorem nested_inj {m n : Nat} (h : nested m = nested n) : m = n := by
  simpa [nested] using congrArg List.length h

/-- The keys of the entries are the keys of the map, each once. -/
theorem Refines.keys_perm (h : Refines rtt t M) {ks : List (List Bool)} (hnodup : ks.Nodup)
    (hks : ∀ K, K ∈ ks ↔ ∃ rth, M K = some rth) :
    ((entries (view rtt.heads) t).map Prod.fst).Perm ks := by
  have hpair : ((entries (view rtt.heads) t).map Prod.fst).Nodup :=
    List.pairwise_map.mpr (h.shape.wf.sorted.imp fun hlt => hlt.ne)
  refine (List.perm_ext_iff_of_nodup hpair hnodup).mpr fun K => ?_
  rw [hks, List.mem_map]
  constructor
  · rintro ⟨⟨K, x⟩, hx, rfl⟩
    exact ⟨_, (h.stored _ _).mpr ⟨x, hx, rfl⟩⟩
  · rintro ⟨rth, hrth⟩
    obtain ⟨x, hx, -⟩ := (h.stored _ _).mp hrth
    exact ⟨(K, x), hx, rfl⟩

/-- A table of `n` nested prefixes is at least `n` nodes high and has less than `2 * n` nodes. -/
theorem Refines.nested_bounds (h : Refines rtt t M) {n : Nat} (hn : 0 < n)
    (hM : ∀ K, (∃ rth, M K = some rth) ↔ ∃ i < n, K = nested i) :
    n ≤ t.height ∧ rtt.rttInodes < 2 * n := by
  have hnodup : ((List.range n).map nested).Nodup := List.nodup_range.map fun _ _ => nested_inj
  have hperm := h.keys_perm hnodup (fun K => by
    rw [hM]
    simp [eq_comm])
  have hlen : (entries (view rtt.heads) t).length = n := by
    simpa using hperm.length_eq
  have hne : t ≠ .nil := by
    rintro rfl
    exact hn.ne hlen
  refine ⟨?_, by rw [h.inodes, ← hlen]; exact h.shape.wf.size_lt hne⟩
  have hall : ∀ e ∈ entries (view rtt.heads) t, e.1 = firstBits (bitAt fun _ => 0) e.1.length := by
    intro e he
    obtain ⟨i, -, hi⟩ := List.mem_map.mp (hperm.subset (List.mem_map_of_mem he))
    rw [← hi, nested, length_firstBits]
  have hcount := h.shape.wf.countP_le_height (bitAt fun _ => 0)
  rwa [List.countP_eq_length.mpr fun e he => decide_eq_true (hall e he), hlen] at hcount

/-- A table of the `n` shortest nested prefixes. -/
theorem exists_nested (n : Nat) (hn : n ≤ 257) : ∃ rtt M, Reached 256 rtt M ∧
    ∀ K, (∃ rth, M K = some rth) ↔ ∃ i < n, K = nested i := by
  obtain ⟨rtt, M, -, h, hM⟩ := exists_keys (P := fun _ => True) 256 (by decide)
    (fun _ _ => 0) id (fun i hi => Nat.le_of_lt_succ hi) (fun _ _ heq => nested_inj heq) trivial
    (fun _ _ _ _ _ => trivial) n hn
  refine ⟨rtt, M, h, fun K => ?_⟩
  simp only [hM]
  constructor
  · rintro ⟨_, i, hi, rfl, -⟩
    exact ⟨i, hi, rfl⟩
  · rintro ⟨i, hi, rfl⟩
    exact ⟨_, i, hi, rfl, rfl⟩

/-- Both printers stay inside their arrays just for the trees that are low enough. -/
theorem printers_in_arrays_iff (cmp : Ptr → Ptr → Int) (hcmp : TotalPreorder cmp)
    (ops : List RbTree.TreeOp) (hops : RbTree.TreeOp.NonNull ops) (rbtt : RbTree.RbtreeTable)
    (hrun : RbTree.TreeOp.runAll (.stdRbtreeCreate cmp) ops = .ok rbtt)
    (hsmall : rbtt.rbttNuminodes ≤ 200) (maxaddrlen : Nat) (rtt : RtTable) (M : PrefixMap)
    (hreach : Reached maxaddrlen rtt M) (hsmall' : rtt.rttInodes ≤ stdRadixMaxprint) :
    (∃ t, Holds rbtt.nodes rbtt.rbttRoot t ∧
      (InArrays RbTree.MAXDEPTH rbtt.stdRbtreePrint ↔ t.height ≤ 11)) ∧
    ∃ t, Holds rtt.nodes rtt.rttRoot t ∧ (InArrays MAXDEPTH rtt.stdRadixPrint ↔ t.height ≤ 85) := by
  obtain ⟨rbtt', t, hrun', hs, -⟩ := RbTree.exists_sound hcmp ops hops
  rw [hrun] at hrun'
  obtain rfl := Except.ok.inj hrun'
  obtain ⟨t', ht', -⟩ := hreach.refines
  have hholds := hs.shape.holds
  have hholds' := ht'.shape.holds
  exact ⟨⟨t, hholds, hs.print_iff hholds hsmall⟩, t', hholds', stdRadixPrint_iff hholds' hsmall'⟩

/-- The table of `sampleOps` and one of two nested prefixes. -/
theorem printers_in_arrays_sample : ∃ rbtt rtt M,
    RbTree.TreeOp.runAll (.stdRbtreeCreate RbTree.compareKeys) RbTree.sampleOps = .ok rbtt ∧
      Reached 256 rtt M ∧
      (∃ t, Holds rbtt.nodes rbtt.rbttRoot t ∧
        (InArrays RbTree.MAXDEPTH rbtt.stdRbtreePrint ↔ t.height ≤ 11)) ∧
      ∃ t, Holds rtt.nodes rtt.rttRoot t ∧
        (InArrays MAXDEPTH rtt.stdRadixPrint ↔ t.height ≤ 85) := by
  obtain ⟨rbtt, hrun, hcount⟩ := RbTree.sampleOps_numinodes
  obtain ⟨rtt, M, h, hM⟩ := exists_nested 2 (by decide)
  obtain ⟨t, ht, -⟩ := h.refines
  have hsmall := (ht.nested_bounds (by decide) hM).2
  refine ⟨rbtt, rtt, M, hrun, h, ?_⟩
  exact printers_in_arrays_iff RbTree.compareKeys RbTree.totalPreorder_compareKeys
    RbTree.sampleOps RbTree.sampleOps_nonNull rbtt hrun (by omega) 256 rtt M h
    (hsmall.le.trans (by decide))

/-- 126 insertions in increasing order put a node of a red-black tree at depth 11, and the 86
prefixes of up to 85 bits one of a radix tree at depth 85; three times the depth is the index of
the character behind the indent. -/
theorem printers_leave_arrays :
    (¬ ∀ (cmp : Ptr → Ptr → Int) (ops : List RbTree.TreeOp) (rbtt : RbTree.RbtreeTable),
      TotalPreorder cmp → RbTree.TreeOp.NonNull ops →
      RbTree.TreeOp.runAll (.stdRbtreeCreate cmp) ops = .ok rbtt → rbtt.rbttNuminodes ≤ 200 →
      InArrays RbTree.MAXDEPTH rbtt.stdRbtreePrint) ∧
    ¬ ∀ (maxaddrlen : Nat) (rtt : RtTable) (M : PrefixMap), maxaddrlen ≤ 256 →
      Reached maxaddrlen rtt M → rtt.rttInodes ≤ stdRadixMaxprint →
      InArrays MAXDEPTH rtt.stdRadixPrint := by
  constructor
  · intro hclaim
    obtain ⟨rbtt, hrun, hcount, hout⟩ := RbTree.ascending_print
    exact hout (hclaim RbTree.compareKeys _ rbtt RbTree.totalPreorder_compareKeys
      (RbTree.ascending_nonNull 126) hrun (by omega))
  · intro hclaim
    obtain ⟨rtt, M, h, hM⟩ := exists_nested 86 (by decide)
    obtain ⟨t, ht, -⟩ := h.refines
    obtain ⟨hhigh, hsmall⟩ := ht.nested_bounds (by decide) hM
    have hle : rtt.rttInodes ≤ stdRadixMaxprint := hsmall.le.trans (by decide)
    have hlow := (stdRadixPrint_iff ht.shape.holds hle).mp (hclaim 256 rtt M le_rfl h hle)
    omega

end OpxCommonUtils.Radix
