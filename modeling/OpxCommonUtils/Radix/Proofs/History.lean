import OpxCommonUtils.Misc.TrieShape
import OpxCommonUtils.Radix.Proofs.Invariant

/-!
# A radix table forgets its history

Where the nodes of a table branch depends on nothing but the stored prefixes: the order of the
insertions, entries that came and went, failed allocations and the bits of an address beyond its
prefix leave no trace in the tree.
-/

namespace OpxCommonUtils.Radix

open Tree Trie LinkTree

variable {rtt rtt' : RtTable} {t t' : Tree RtVal} {M M' : PrefixMap}

/-- What a node says about its place: the bit it branches on, with its test bit, and its head. -/
def RtVal.reading (v : RtVal) : Nat × UInt8 × Ptr := (v.bit, v.tbit, v.rth)

/-- The keys of the nodes are the stored prefixes. -/
theorem Refines.mem_keys (h : Refines rtt t M) {K : List Bool} :
    K ∈ keys (view rtt.heads) t ↔ (M K).isSome := by
  rw [Trie.mem_keys, Option.isSome_iff_exists]
  constructor
  · rintro ⟨x, hx⟩
    exact ⟨x.2.rth, (h.stored K x.2.rth).mpr ⟨x, hx, rfl⟩⟩
  · rintro ⟨rth, hK⟩
    obtain ⟨x, hx, -⟩ := (h.stored K rth).mp hK
    exact ⟨x, hx⟩

/-- The reading of a node follows from the length of its string and the key of its entry. -/
theorem Refines.reading_eq (h : Refines rtt t M) {x : Ptr × RtVal} (hx : x ∈ t.pre) :
    x.2.reading = (x.2.bit, rnbit x.2.bit,
      (((view rtt.heads).key x.2).bind M).getD NULL) := by
  have hlinked := h.shape.linked x hx
  have hrth : x.2.rth = (((view rtt.heads).key x.2).bind M).getD NULL := by
    cases hkey : (view rtt.heads).key x.2 with
    | none => exact (key_view_eq_none hlinked).mp hkey
    | some K =>
      have hK := (h.stored K x.2.rth).mpr ⟨x, mem_entries.mpr ⟨hx, hkey⟩, rfl⟩
      rw [Option.bind_some, hK, Option.getD_some]
  rw [RtVal.reading, hlinked.tbit, ← hrth]

/-- The tree as the outline of the trie shows it. -/
theorem Refines.outline_reading (h : Refines rtt t M) :
    t.outline RtVal.reading =
      (Trie.outline (view rtt.heads) t).map fun a => (a.1, rnbit a.1, (a.2.bind M).getD NULL) := by
  rw [Trie.outline, map_outline]
  exact outline_congr fun x hx => h.reading_eq hx

theorem Refines.outline_eq (h : Refines rtt t M) (h' : Refines rtt' t' M')
    (hdom : ∀ K, (M K).isSome = (M' K).isSome) :
    Trie.outline (view rtt.heads) t = Trie.outline (view rtt'.heads) t' :=
  h.shape.wf.outline_eq h'.shape.wf fun K => by rw [h.mem_keys, h'.mem_keys, hdom K]

theorem Refines.routes_eq (h : Refines rtt t M) (h' : Refines rtt' t' M')
    (hdom : ∀ K, (M K).isSome = (M' K).isSome) : rtt.rttRoutes = rtt'.rttRoutes := by
  have hlen : ∀ {rtt : RtTable} {t : Tree RtVal} {M : PrefixMap}, Refines rtt t M →
      rtt.rttRoutes = (keys (view rtt.heads) t).length := by
    intro rtt t M h
    rw [h.routes, keys, List.length_map]
  have hsorted : ∀ {rtt : RtTable} {t : Tree RtVal} {M : PrefixMap}, Refines rtt t M →
      (keys (view rtt.heads) t).Nodup := by
    intro rtt t M h
    exact List.pairwise_map.mpr (h.shape.wf.sorted.imp fun hlt => hlt.ne)
  rw [hlen h, hlen h']
  refine ((List.perm_ext_iff_of_nodup (hsorted h) (hsorted h')).mpr fun K => ?_).length_eq
  rw [h.mem_keys, h'.mem_keys, hdom K]

/-- Two tables that hold the same prefixes have the same tree up to the addresses of the nodes
and the heads, whatever calls led to them, and the same counters; where they hold the same heads,
these are at the same nodes. -/
theorem tree_of_prefixes {maxaddrlen maxaddrlen' : Nat} (h : Reached maxaddrlen rtt M)
    (h' : Reached maxaddrlen' rtt' M') (hdom : ∀ K, (M K).isSome = (M' K).isSome) :
    ∃ t t', Holds rtt.nodes rtt.rttRoot t ∧ Holds rtt'.nodes rtt'.rttRoot t' ∧
      (t.outline fun v => (v.bit, v.tbit, decide (v.rth = NULL))) =
        (t'.outline fun v => (v.bit, v.tbit, decide (v.rth = NULL))) ∧
      (M = M' → t.outline RtVal.reading = t'.outline RtVal.reading) ∧
      rtt.rttInodes = rtt'.rttInodes ∧ rtt.rttRoutes = rtt'.rttRoutes := by
  obtain ⟨t, ht, -⟩ := h.refines
  obtain ⟨t', ht', -⟩ := h'.refines
  have hout := ht.outline_eq ht' hdom
  refine ⟨t, t', ht.shape.holds, ht'.shape.holds, ?_, ?_, ?_, ht.routes_eq ht' hdom⟩
  · have hplain : ∀ {rtt : RtTable} {t : Tree RtVal}, Shape rtt t →
        (t.outline fun v => (v.bit, v.tbit, decide (v.rth = NULL))) =
          (Trie.outline (view rtt.heads) t).map fun a => (a.1, rnbit a.1, decide (a.2 = none)) := by
      intro rtt t hs
      rw [Trie.outline, map_outline]
      refine outline_congr fun x hx => ?_
      have hlinked := hs.linked x hx
      simp only [hlinked.tbit, len_view, key_view_eq_none hlinked]
    rw [hplain ht.shape, hplain ht'.shape, hout]
  · rintro rfl
    rw [ht.outline_reading, ht'.outline_reading, hout]
  · rw [ht.inodes, ht'.inodes, ← size_outline (fun v => ((view rtt.heads).len v,
      (view rtt.heads).key v)) t, ← size_outline (fun v => ((view rtt'.heads).len v,
      (view rtt'.heads).key v)) t']
    exact congrArg Outline.size hout

/-- A prefix that came before another one and went after it leaves no trace in the map. -/
theorem PrefixMap.remove_first {K K' : List Bool} {rth rth' : Ptr} (hne : K' ≠ K)
    (hrth : rth' ≠ rth) :
    ((PrefixMap.empty.insert K rth).insert K' rth').remove rth = PrefixMap.empty.insert K' rth' := by
  funext e
  by_cases h' : e = K'
  · simp [PrefixMap.remove, PrefixMap.insert, h', hrth]
  · by_cases h : e = K
    · simp [PrefixMap.remove, PrefixMap.insert, PrefixMap.empty, h, hne.symm]
    · simp [PrefixMap.remove, PrefixMap.insert, PrefixMap.empty, h, h']

/-- What `sampleOps` leave stored is 10.1/16. -/
theorem spec_sampleOps : (TableOp.specAll PrefixMap.empty sampleOps).2 =
    PrefixMap.empty.insert (firstBits (bitAt fun i => if i = 0 then 10 else 1) 16) 3 := by
  let M := PrefixMap.empty.insert (firstBits (bitAt fun i => if i = 0 then 10 else 255) 8) 1
  have hM : (TableOp.spec M (.insert .above true 2 (fun i => if i = 0 then 10 else 0) 8)).2 = M := by
    have h1 : M (firstBits (bitAt fun i => if i = 0 then 10 else 0) 8) = some 1 := by decide
    simp [TableOp.spec, h1]
  change (TableOp.spec (TableOp.spec (TableOp.spec M
    (.insert .above true 2 (fun i => if i = 0 then 10 else 0) 8)).2
    (.insert .above true 3 (fun i => if i = 0 then 10 else 1) 16)).2 (.remove 1)).2 = _
  rw [hM]
  exact PrefixMap.remove_first (by decide) (by decide)

/-- What `sampleOps` leave is what the one insertion of 10.1/16 makes. -/
theorem tree_of_prefixes_sample : ∃ (rtt rtt' : RtTable) (t t' : Tree RtVal),
    Holds rtt.nodes rtt.rttRoot t ∧ Holds rtt'.nodes rtt'.rttRoot t' ∧
      t.outline RtVal.reading = t'.outline RtVal.reading ∧ rtt.rttInodes = rtt'.rttInodes := by
  obtain ⟨rtt, h⟩ := exists_reached (by decide)
    (@Reached.create 32 true fun _ => default) sampleOps_allowed
  have hone : TableOp.AllAllowed 32 PrefixMap.empty
      [.insert .above true 3 (fun i => if i = 0 then 10 else 1) 16] :=
    ⟨⟨by decide, by decide, by simp [PrefixMap.empty]⟩, Malloc.succeeds_above, trivial⟩
  obtain ⟨rtt', h'⟩ := exists_reached (by decide)
    (@Reached.create 32 true fun _ => default) hone
  rw [spec_sampleOps] at h
  obtain ⟨t, t', hholds, hholds', -, heads, inodes, -⟩ :=
    tree_of_prefixes h h' fun _ => rfl
  exact ⟨rtt, rtt', t, t', hholds, hholds', heads rfl, inodes⟩

end OpxCommonUtils.Radix
