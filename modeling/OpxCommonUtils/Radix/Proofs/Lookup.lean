import OpxCommonUtils.Radix.Proofs.Refinement

/-!
# Exact and longest matches

`std_radix_getexact` and `std_radix_getbest` on a table that stores a map: the first returns
what the map holds for the key, the second the longest prefix the map holds.
-/

namespace OpxCommonUtils.Radix

open Tree Trie LinkTree

namespace Shape

variable {rtt : RtTable} {t : Tree RtVal}

/-- On a part of the path of a query, the nearest matching node is the longest match of fewer than
`m` bits, when the nodes before that part have at least as many. -/
theorem find_below (hs : Shape rtt t) {addr : Addr} {n m : Nat} {f : Frame RtVal}
    {c as bs : List (Frame RtVal)} {near : Tree RtVal}
    (hl : Landing (view rtt.heads) (bitAt addr) (fun v => decide (v.bit < n)) t f c near)
    (hsplit : f :: c = as ++ bs) (hm : m ≤ n + 1) (has : ∀ x ∈ as, m ≤ x.val.bit)
    (hbs : ∀ x ∈ bs, matchesQuery rtt.heads (bitAt addr) n x = true → x.val.bit < m) :
    match bs.find? (matchesQuery rtt.heads (bitAt addr) n) with
    | some g => g.val.bit < m ∧
        (firstBits (bitAt addr) g.val.bit, g.ptr, g.val) ∈ entries (view rtt.heads) t ∧
        ∀ p < m, g.val.bit < p → ∀ x, (firstBits (bitAt addr) p, x) ∉ entries (view rtt.heads) t
    | none => ∀ p < m, ∀ x, (firstBits (bitAt addr) p, x) ∉ entries (view rtt.heads) t := by
  obtain ⟨k, hc, -⟩ := hl.split hs.wf
  have hsorted := hc.len_sorted
  -- whatever is stored for a prefix of the query is on the path
  have hpath : ∀ p < m, ∀ x, (firstBits (bitAt addr) p, x) ∈ entries (view rtt.heads) t →
      ∃ g ∈ bs, g.val.bit = p ∧ matchesQuery rtt.heads (bitAt addr) n g = true := by
    intro p hp x hx
    obtain ⟨g, hg, rfl, hkey⟩ := hl.mem_path hs.wf (n := n) (fun v hv => by simpa using hv) hx
      (by simp) (by simp only [length_firstBits]; omega)
    have hlen := (hs.wf.key_isPrefix hx).2
    rw [length_firstBits] at hlen
    have hbit : g.val.bit = p := hlen.symm
    refine ⟨g, ?_, hbit, ?_⟩
    · rw [hsplit] at hg
      rcases List.mem_append.mp hg with hga | hgb
      · have := has g hga
        omega
      · exact hgb
    · simp only [matchesQuery, hbit, hkey, decide_eq_true_eq, and_true]
      omega
  cases hfind : bs.find? (matchesQuery rtt.heads (bitAt addr) n) with
  | none =>
    intro p hp x hx
    obtain ⟨g, hg, -, hmatch⟩ := hpath p hp x hx
    exact absurd hmatch (List.find?_eq_none.mp hfind g hg)
  | some g =>
    obtain ⟨hmatch, as', bs', hsplit', has'⟩ := List.find?_eq_some_iff_append.mp hfind
    have hg : g ∈ bs := by simp [hsplit']
    have hlt := hbs g hg hmatch
    simp only [matchesQuery, decide_eq_true_eq] at hmatch
    refine ⟨hlt, ?_, fun p hp hgp x hx => ?_⟩
    · exact hl.plug_eq ▸ mem_entries_of_frame (by simp [hsplit, hg]) hmatch.2
    · obtain ⟨g', hg', hbit, hmatch'⟩ := hpath p hp x hx
      rw [hsplit, hsplit'] at hsorted
      rw [hsplit'] at hg'
      rcases List.mem_append.mp hg' with hga | hgb
      · simpa [hmatch'] using has' g' hga
      · rcases List.mem_cons.mp hgb with rfl | hgb
        · omega
        · have hrest := (List.pairwise_append.mp (List.pairwise_append.mp hsorted).2.1).2.1
          have := List.rel_of_pairwise_cons hrest hgb
          simp only [len_view] at this
          omega

/-- The node `std_radix_getbest` and its variants start from. -/
theorem bestNode_spec (hs : Shape rtt t) (hnil : t ≠ .nil) (addr : Addr) (n : Nat) :
    ∃ f c near,
      Landing (view rtt.heads) (bitAt addr) (fun v => decide (v.bit < n)) t f c near ∧
        RtTable.bestNode rtt addr n =
          .ok (((f :: c).find? (matchesQuery rtt.heads (bitAt addr) n)).elim NULL Frame.ptr) := by
  obtain ⟨f, c, near, hl, hdesc⟩ := hs.descend_spec (RtTable.shorter n)
    (fun v => decide (v.bit < n)) hnil (fun _ _ _ _ => rfl) addr
  refine ⟨f, c, near, hl, ?_⟩
  have hlen := hs.length_path hl.plug_eq
  rw [RtTable.bestNode, hdesc, exec_bind_ok]
  exact hs.backtrack_spec addr n _ (f :: c) near hl.plug_eq (by omega)

end Shape

namespace Refines

variable {rtt : RtTable} {t : Tree RtVal} {M : PrefixMap}

/-- An empty table stores nothing. -/
theorem empty_map (h : Refines rtt .nil M) (K : List Bool) : M K = none := by
  cases hK : M K with
  | none => rfl
  | some rth =>
    obtain ⟨x, hx, -⟩ := (h.stored K rth).mp hK
    simp at hx

/-- The map at the key of a node on a path. -/
theorem map_of_frame (h : Refines rtt t M) {c : List (Frame RtVal)} {s : Tree RtVal}
    {f : Frame RtVal} {K : List Bool} (heq : plug c s = t) (hf : f ∈ c)
    (hkey : (view rtt.heads).key f.val = some K) : M K = some f.val.rth :=
  (h.stored K _).mpr ⟨(f.ptr, f.val), heq ▸ mem_entries_of_frame hf hkey, rfl⟩

/-- `std_radix_getexact` returns the head stored for the first `n` bits. -/
theorem getexact_spec (h : Refines rtt t M) (addr : Addr) (n : Nat) :
    RtTable.stdRadixGetexact rtt (some addr) n =
      .ok ((M (firstBits (bitAt addr) n)).getD NULL) := by
  have hdebug := h.plain.1
  unfold RtTable.stdRadixGetexact
  simp only [hdebug, Bool.false_and, Bool.false_eq_true, if_false]
  by_cases hnil : t = .nil
  · subst hnil
    rw [if_pos (h.shape.root_eq_null.mpr rfl), h.empty_map]
    rfl
  rw [if_neg (h.shape.root_eq_null.not.mpr hnil)]
  obtain ⟨f, c, near, hl, hdesc⟩ := h.shape.descend_spec (RtTable.shorter n)
    (fun v => decide (v.bit < n)) hnil (fun _ _ _ _ => rfl) addr
  obtain ⟨m, hm, -, hbit, htbit, hflags, -, -, hrth⟩ := h.shape.deref_frame hl.plug_eq
  have hlinked := h.shape.linked_frame hl.plug_eq (List.mem_cons_self (a := f))
  have hquiet := (h.quiet (f.ptr, f.val)
    (hl.plug_eq ▸ Shape.mem_pre_of_frame List.mem_cons_self)).1
  rw [hdesc, exec_bind_ok, hm, exec_bind_ok, hbit, hrth, htbit, hlinked.tbit]
  by_cases hhere : f.val.bit = n ∧ f.val.rth ≠ NULL
  · obtain ⟨rfl, h0⟩ := hhere
    obtain ⟨his, hhis⟩ := hlinked.addr h0
    have hkey := key_view_of_addr h0 hhis
    rw [if_neg (by simp [h0]), rdxAddr_ok h0 hhis, exec_bind_ok]
    by_cases hcmp : firstBits (bitAt addr) f.val.bit = firstBits (bitAt his) f.val.bit
    · rw [(rdxCompareAddress_eq_false addr his f.val.bit).mpr hcmp]
      have hmark : m.marked = false := by rw [RtNode.marked, hflags, hquiet]
      rw [h.map_of_frame hl.plug_eq List.mem_cons_self (hcmp ▸ hkey)]
      simp [hmark]
    · have hdiff : rdxCompareAddress addr his (rnbyte f.val.bit) (rnbit f.val.bit) = true := by
        rw [← Bool.not_eq_false, rdxCompareAddress_eq_false]
        exact hcmp
      rw [if_pos hdiff]
      cases hM : M (firstBits (bitAt addr) f.val.bit) with
      | none => rfl
      | some old =>
        exfalso
        obtain ⟨x, hx, -⟩ := (h.stored _ _).mp hM
        obtain ⟨-, hkey'⟩ := hl.exact h.shape.wf (fun _ => rfl) hx
        rw [hkey] at hkey'
        exact hcmp (Option.some_inj.mp hkey').symm
  · rw [if_pos (by simpa [or_iff_not_imp_left] using hhere)]
    cases hM : M (firstBits (bitAt addr) n) with
    | none => rfl
    | some old =>
      exfalso
      obtain ⟨x, hx, -⟩ := (h.stored _ _).mp hM
      obtain ⟨rfl, hkey'⟩ := hl.exact h.shape.wf (fun _ => rfl) hx
      have hlen := (h.shape.wf.key_isPrefix hx).2
      rw [length_firstBits] at hlen
      refine hhere ⟨hlen.symm, fun h0 => ?_⟩
      simp [view, h0] at hkey'

/-- The nearest matching node of the path of a query is the longest match in the map. -/
theorem find_longest (h : Refines rtt t M) {addr : Addr} {n : Nat} {f : Frame RtVal}
    {c : List (Frame RtVal)} {near : Tree RtVal}
    (hl : Landing (view rtt.heads) (bitAt addr) (fun v => decide (v.bit < n)) t f c near) :
    match (f :: c).find? (matchesQuery rtt.heads (bitAt addr) n) with
    | some g => g.val.bit ≤ n ∧ M (firstBits (bitAt addr) g.val.bit) = some g.val.rth ∧
        ∀ p ≤ n, g.val.bit < p → M (firstBits (bitAt addr) p) = none
    | none => ∀ p ≤ n, M (firstBits (bitAt addr) p) = none := by
  have hnone : ∀ K, (∀ x, (K, x) ∉ entries (view rtt.heads) t) → M K = none := by
    intro K hK
    cases hM : M K with
    | none => rfl
    | some old =>
      obtain ⟨x, hx, -⟩ := (h.stored _ _).mp hM
      exact absurd hx (hK x)
  have hfound := h.shape.find_below hl (List.nil_append (f :: c)).symm (m := n + 1) le_rfl (by simp)
    fun x _ hmatch => by
      simp only [matchesQuery, decide_eq_true_eq] at hmatch
      omega
  cases hfind : (f :: c).find? (matchesQuery rtt.heads (bitAt addr) n) with
  | none =>
    rw [hfind] at hfound
    exact fun p hp => hnone _ (hfound p (by omega))
  | some g =>
    rw [hfind] at hfound
    obtain ⟨hlt, hmem, hmax⟩ := hfound
    exact ⟨by omega, (h.stored _ _).mpr ⟨_, hmem, rfl⟩, fun p hp hgp => hnone _ (hmax p (by omega) hgp)⟩

/-- `std_radix_getbest` returns the head of the longest stored prefix of the query. -/
theorem getbest_spec (h : Refines rtt t M) (addr : Addr) (n : Nat) :
    ∃ r, RtTable.stdRadixGetbest rtt (some addr) n = .ok r ∧
      ((∃ p ≤ n, M (firstBits (bitAt addr) p) = some r ∧
          ∀ p' ≤ n, p < p' → M (firstBits (bitAt addr) p') = none) ∨
        r = NULL ∧ ∀ p ≤ n, M (firstBits (bitAt addr) p) = none) := by
  have hq : rtt.queryAddr addr = addr := by rw [RtTable.queryAddr, h.plain.2.1]
  unfold RtTable.stdRadixGetbest
  simp only [hq, h.plain.1, Bool.false_and, Bool.false_eq_true, if_false]
  by_cases hnil : t = .nil
  · subst hnil
    rw [if_pos (h.shape.root_eq_null.mpr rfl)]
    exact ⟨NULL, rfl, .inr ⟨rfl, fun p _ => h.empty_map _⟩⟩
  rw [if_neg (h.shape.root_eq_null.not.mpr hnil)]
  obtain ⟨f, c, near, hl, hbest⟩ := h.shape.bestNode_spec hnil addr n
  have hlongest := h.find_longest hl
  rw [hbest, exec_bind_ok]
  cases hfind : (f :: c).find? (matchesQuery rtt.heads (bitAt addr) n) with
  | none =>
    rw [hfind] at hlongest
    exact ⟨NULL, rfl, .inr ⟨rfl, hlongest⟩⟩
  | some g =>
    rw [hfind] at hlongest
    obtain ⟨hle, hM, hmax⟩ := hlongest
    have hg := List.mem_of_find?_eq_some hfind
    obtain ⟨as, bs, hsplit⟩ := List.append_of_mem hg
    have hplug := hl.plug_eq
    rw [hsplit, plug_append] at hplug
    obtain ⟨m, hm, -, -, -, hflags, -, -, hrth⟩ := h.shape.deref_frame hplug
    have hquiet := (h.quiet (g.ptr, g.val) (hl.plug_eq ▸ Shape.mem_pre_of_frame hg)).1
    have hmark : m.marked = false := by rw [RtNode.marked, hflags, hquiet]
    have hne := h.shape.frame_ne_null hl.plug_eq hg
    refine ⟨g.val.rth, ?_, .inl ⟨_, hle, hM, hmax⟩⟩
    show RtTable.liveHead rtt g.ptr = .ok g.val.rth
    rw [RtTable.liveHead, if_neg hne, hm, exec_bind_ok]
    simp [hmark, hrth]

end Refines

/-! ## Results -/

/-- The radix table refines a finite map from prefixes to heads, for keys of at most 65528 bits:
any sequence of calls returns the heads the map returns, afterwards an exact lookup finds what
the map holds, and the map holds no head for two prefixes. -/
theorem radix_refines_map (maxaddrlen : Nat) (hmax : maxaddrlen ≤ 65528) (rmfree : Bool)
    (heads : Ptr → RtHead) (ops : List TableOp)
    (hops : TableOp.AllAllowed maxaddrlen PrefixMap.empty ops) :
    ∃ rtt, TableOp.runAll (RtTable.stdRadixCreate maxaddrlen rmfree heads) ops =
        .ok ((TableOp.specAll PrefixMap.empty ops).1, rtt) ∧
      (∀ addr bitlen, RtTable.stdRadixGetexact rtt (some addr) bitlen =
        .ok (((TableOp.specAll PrefixMap.empty ops).2 (firstBits (bitAt addr) bitlen)).getD
          NULL)) ∧
      ∀ K rth, (TableOp.specAll PrefixMap.empty ops).2 K = some rth →
        rth ≠ NULL ∧ ∀ K', (TableOp.specAll PrefixMap.empty ops).2 K' = some rth → K' = K := by
  obtain ⟨rtt, t, hrun, h⟩ :=
    (Refines.create maxaddrlen rmfree heads).runAll_spec hmax hops
  exact ⟨rtt, hrun, h.getexact_spec, fun K rth hK => ⟨h.ne_null hK, fun K' hK' => h.head_inj hK' hK⟩⟩

/-- Two 10/8 prefixes with different host bits, one of 16 bits inside, and the removal of the
first. -/
def sampleOps : List TableOp := [
  .insert .above true 1 (fun i => if i = 0 then 10 else 255) 8,
  .insert .above true 2 (fun i => if i = 0 then 10 else 0) 8,
  .insert .above true 3 (fun i => if i = 0 then 10 else 1) 16,
  .remove 1]

example : (TableOp.specAll PrefixMap.empty sampleOps).1 = [1, 1, 3, 1] := by decide

theorem sampleOps_allowed : TableOp.AllAllowed 32 PrefixMap.empty sampleOps := by
  have hnone : ∀ K₀ K rth, rth ≠ 1 → PrefixMap.empty.insert K₀ 1 K ≠ some rth := by
    intro K₀ K rth hne
    simp only [PrefixMap.insert, PrefixMap.empty]
    split <;> simp [hne.symm]
  let M := PrefixMap.empty.insert (firstBits (bitAt fun i => if i = 0 then 10 else 255) 8) 1
  have hM : (TableOp.spec M (.insert .above true 2 (fun i => if i = 0 then 10 else 0) 8)).2 = M := by
    have h1 : M (firstBits (bitAt fun i => if i = 0 then 10 else 0) 8) = some 1 := by decide
    simp [TableOp.spec, h1]
  refine ⟨⟨by decide, by decide, by simp [PrefixMap.empty]⟩, Malloc.succeeds_above,
    ⟨by decide, by decide, fun K hK => absurd hK (hnone _ _ _ (by decide))⟩,
    Malloc.succeeds_above, ⟨by decide, by decide, fun K hK => ?_⟩, Malloc.succeeds_above,
    ⟨firstBits (bitAt fun i => if i = 0 then 10 else 255) 8, by decide⟩, trivial, trivial⟩
  have hK' : (TableOp.spec M (.insert .above true 2 (fun i => if i = 0 then 10 else 0) 8)).2 K =
      some 3 := hK
  rw [hM] at hK'
  exact absurd hK' (hnone _ _ _ (by decide))

/-- The calls return the heads they should, and only 10.1/16 is left. -/
theorem radix_refines_map_sample : ∃ rtt,
    TableOp.runAll (RtTable.stdRadixCreate 32 true fun _ => default) sampleOps =
        .ok ([1, 1, 3, 1], rtt) ∧
      RtTable.stdRadixGetexact rtt (some fun i => if i = 0 then 10 else 1) 16 = .ok 3 ∧
      RtTable.stdRadixGetexact rtt (some fun i => if i = 0 then 10 else 1) 8 = .ok NULL := by
  obtain ⟨rtt, hrun, hget, -⟩ :=
    radix_refines_map 32 (by decide) true (fun _ => default) sampleOps sampleOps_allowed
  have h16 := hget (fun i => if i = 0 then 10 else 1) 16
  have h8 := hget (fun i => if i = 0 then 10 else 1) 8
  exact ⟨rtt, hrun, h16, h8⟩

/-- A key of more than 65528 bits is compared for ever with a root that is as long and agrees with
it in 8192 bytes. -/
theorem insertBelowRoot_wraps {rtt : RtTable} {A : Malloc RtNode} {rth old : Ptr} {n : Nat}
    {m : RtNode} {addr : Addr} (his : Addr) (h0 : rth ≠ NULL) (hold : old ≠ NULL)
    (haddr : (rtt.heads rth).rdxRthAddr = some addr) (hhis : (rtt.heads old).rdxRthAddr = some his)
    (hroot : rtt.nodes.get rtt.rttRoot = some m) (hm : n ≤ m.rtnBit) (hrth : m.rtnRth = old)
    (hn : 65528 < n) (hsame : ∀ i < 8192, addr i = his i) :
    RtTable.insertBelowRoot rtt A rth n = .error .diverges := by
  have hstop : RtTable.descend rtt.nodes (RtTable.shorterOrGlue n) addr (rtt.nodes.bound + 1)
      rtt.rttRoot = .ok rtt.rttRoot := by
    rw [RtTable.descend, Heap.deref_ok hroot, exec_bind_ok, if_neg]
    have hle : ¬ m.rtnBit < n := by omega
    simp [RtTable.shorterOrGlue, hle, hrth, hold]
  have hwrap : dbitOf addr his (min m.rtnBit n) = .error .diverges :=
    dbitLoop_wraps addr his _ (by omega) hsame _ 0 rfl (by decide)
  rw [RtTable.insertBelowRoot, rdxAddr_ok h0 haddr, exec_bind_ok, hstop, exec_bind_ok,
    Heap.deref_ok hroot, exec_bind_ok, hrth, rdxAddr_ok hold hhis, exec_bind_ok, hwrap]
  rfl

/-- The first insertion into a new table makes the root. -/
theorem first_insert (n : Nat) : ∃ rtt,
    TableOp.run (RtTable.stdRadixCreate n true fun _ => default)
      (.insert .above true 1 (fun _ => 0) n) = .ok (1, rtt) ∧ rtt.rttRoot = 1 ∧
      rtt.nodes.get 1 = some { RtNode.new n with rtnRth := 1 } ∧
      (rtt.heads 1).rdxRthAddr = some (fun _ => 0) ∧ rtt.rttDebug = false ∧
      rtt.rttConvert = none ∧ rtt.rttMaxaddrlen = n := by
  let rtt₀ := RtTable.stdRadixCreate n true fun _ => default
  let hd : RtHead := { rtt₀.heads 1 with rthAddr := some fun _ => 0 }
  have hrun : TableOp.run rtt₀ (.insert .above true 1 (fun _ => 0) n) =
      .ok (({ (rtt₀.setHead 1 hd).setHead 1 { hd with rdxRthAddr := some fun _ => 0 } with
        rttNinserts := 1 } : RtTable).insertRoot .above 1 n) := by
    rw [TableOp.run, Shape.stdRadixInsert_eq _ .above true _ rfl rfl (by decide)
      rfl]
    rfl
  exact ⟨_, hrun, rfl, rfl, rfl, rfl, rfl, rfl⟩

/-- Past 65528 bits the calls need not even return: the second insertion of a key of 65535 zero
bits never ends. -/
theorem radix_insert_wraps :
    TableOp.AllAllowed 65535 PrefixMap.empty
        [.insert .above true 1 (fun _ => 0) 65535, .insert .above true 2 (fun _ => 0) 65535] ∧
      TableOp.runAll (RtTable.stdRadixCreate 65535 true fun _ => default)
        [.insert .above true 1 (fun _ => 0) 65535, .insert .above true 2 (fun _ => 0) 65535] =
          .error .diverges := by
  constructor
  · refine ⟨⟨by decide, by decide, by simp [PrefixMap.empty]⟩, Malloc.succeeds_above,
      ⟨by decide, by decide, fun K hK => ?_⟩, Malloc.succeeds_above, trivial⟩
    simp only [TableOp.spec, PrefixMap.empty, PrefixMap.insert] at hK
    split at hK <;> simp at hK
  · obtain ⟨rtt₁, hrun₁, hroot, hnode, hhead, hdebug, hconv, -⟩ := first_insert 65535
    have hrun₂ : TableOp.run rtt₁ (.insert .above true 2 (fun _ => 0) 65535) =
        .error .diverges := by
      let rtt₂ : RtTable := rtt₁.setHead 2 { rtt₁.heads 2 with rthAddr := some fun _ => 0 }
      have haddr : (rtt₂.heads 2).rthAddr = some fun _ => 0 := by
        simp [rtt₂, RtTable.heads_setHead]
      rw [TableOp.run, Shape.stdRadixInsert_eq rtt₂ .above true _ hdebug hconv (by decide) haddr,
        RtTable.insertKey]
      dsimp only [rtt₂]
      have hne : rtt₁.rttRoot ≠ NULL := by simp [hroot]
      simp only [RtTable.rttRoot_setHead, hne, if_false]
      refine insertBelowRoot_wraps (fun _ => 0) (by decide)
        (by decide) ?_ ?_ (m := { RtNode.new 65535 with rtnRth := 1 }) ?_ le_rfl rfl (by decide)
        fun _ _ => rfl
      · simp [RtTable.heads_setHead]
      · simp [RtTable.heads_setHead, hhead]
      · show rtt₁.nodes.get rtt₁.rttRoot = _
        rw [hroot, hnode]
    rw [TableOp.runAll, hrun₁, exec_bind_ok]
    simp only [TableOp.runAll, hrun₂, exec_bind_error]

/-- Longest prefix match: in every table that calls lead to, `std_radix_getbest` returns the head
of the longest stored prefix of the query, `NULL` when there is none, and its answer depends on
the stored prefixes and the first `bitlen` bits of the query only. -/
theorem getbest_longest_match {maxaddrlen : Nat} {rtt : RtTable} {M : PrefixMap}
    (h : Reached maxaddrlen rtt M) (addr : Addr) (bitlen : Nat) :
    ∃ r, RtTable.stdRadixGetbest rtt (some addr) bitlen = .ok r ∧
      ((∃ p ≤ bitlen, M (firstBits (bitAt addr) p) = some r ∧
          ∀ p' ≤ bitlen, p < p' → M (firstBits (bitAt addr) p') = none) ∨
        r = NULL ∧ ∀ p ≤ bitlen, M (firstBits (bitAt addr) p) = none) ∧
      (r = NULL ↔ ∀ p ≤ bitlen, M (firstBits (bitAt addr) p) = none) ∧
      ∀ rtt' addr', Reached maxaddrlen rtt' M →
        firstBits (bitAt addr') bitlen = firstBits (bitAt addr) bitlen →
        RtTable.stdRadixGetbest rtt' (some addr') bitlen = .ok r := by
  obtain ⟨t, ht, -⟩ := h.refines
  obtain ⟨r, hr, hbest⟩ := ht.getbest_spec addr bitlen
  refine ⟨r, hr, hbest, ⟨fun h0 => ?_, fun hnone => ?_⟩, fun rtt' addr' h' hsame => ?_⟩
  · rcases hbest with ⟨p, _, hM, -⟩ | ⟨-, hnone⟩
    · exact absurd h0 (ht.ne_null hM)
    · exact hnone
  · rcases hbest with ⟨p, hp, hM, -⟩ | ⟨h0, -⟩
    · rw [hnone p hp] at hM
      cases hM
    · exact h0
  · obtain ⟨t', ht', -⟩ := h'.refines
    obtain ⟨r', hr', hbest'⟩ := ht'.getbest_spec addr' bitlen
    have hpfx : ∀ p ≤ bitlen, firstBits (bitAt addr') p = firstBits (bitAt addr) p := by
      intro p hp
      rw [← take_firstBits _ hp, hsame, take_firstBits _ hp]
    rw [hr']
    rcases hbest with ⟨p, hp, hM, hmax⟩ | ⟨h0, hnone⟩
    · rcases hbest' with ⟨p', hp', hM', hmax'⟩ | ⟨-, hnone'⟩
      · rw [hpfx p' hp'] at hM'
        have hpp : p = p' := by
          rcases Nat.lt_trichotomy p p' with hlt | heq | hgt
          · rw [hmax p' hp' hlt] at hM'
            cases hM'
          · exact heq
          · have := hmax' p hp hgt
            rw [hpfx p hp, hM] at this
            cases this
        subst hpp
        rw [hM] at hM'
        rw [Option.some_inj.mp hM']
      · have := hnone' p hp
        rw [hpfx p hp, hM] at this
        cases this
    · rcases hbest' with ⟨p', hp', hM', -⟩ | ⟨h0', -⟩
      · rw [hpfx p' hp', hnone p' hp'] at hM'
        cases hM'
      · rw [h0, h0']

/-- In the table of `sampleOps`, 10.1.1.1 is matched by 10.1/16. -/
theorem getbest_longest_match_sample : ∃ rtt,
    RtTable.stdRadixGetbest rtt (some fun i => if i = 0 then 10 else 1) 32 = .ok 3 := by
  obtain ⟨rtt, h⟩ := exists_reached (by decide)
    (@Reached.create 32 true fun _ => default) sampleOps_allowed
  obtain ⟨r, hr, hbest, -⟩ := getbest_longest_match h (fun i => if i = 0 then 10 else 1) 32
  have h16 : (TableOp.specAll PrefixMap.empty sampleOps).2
      (firstBits (bitAt fun i => if i = 0 then 10 else 1) 16) = some 3 := by decide
  refine ⟨rtt, ?_⟩
  rcases hbest with ⟨p, hp, hM, hmax⟩ | ⟨-, hnone⟩
  · have hother : ∀ p ≤ 32, p ≠ 16 → (TableOp.specAll PrefixMap.empty sampleOps).2
        (firstBits (bitAt fun i => if i = 0 then 10 else 1) p) = none := by decide
    by_cases h : p = 16
    · rw [h, h16] at hM
      rw [hr, Option.some_inj.mp hM]
    · rw [hother p hp h] at hM
      cases hM
  · rw [hnone 16 (by decide)] at h16
    cases h16

end OpxCommonUtils.Radix
